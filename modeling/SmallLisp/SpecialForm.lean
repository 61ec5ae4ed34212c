/-! The five special forms. A list whose first element is the symbol of one is not an application: the form
decides which of its parts are evaluated, and in which frame. -/

namespace SmallLisp

inductive SpecialForm
  /-- Binds a name in the current frame. -/
  | define
  /-- Evaluates a body in a new frame with local bindings. -/
  | localBindings
  /-- Evaluates forms one after the other. -/
  | sequence
  /-- Evaluates one of two branches. -/
  | conditional
  /-- Makes a closure over the current frame. -/
  | function
  deriving DecidableEq, Repr

/-- The symbol that stands at the head of the form. -/
def SpecialForm.name : SpecialForm → String
  | .define => "def!"
  | .localBindings => "let*"
  | .sequence => "do"
  | .conditional => "if"
  | .function => "fn*"

/-- The special form that a symbol stands for. -/
def SpecialForm.ofName? : String → Option SpecialForm
  | "def!" => some .define
  | "let*" => some .localBindings
  | "do" => some .sequence
  | "if" => some .conditional
  | "fn*" => some .function
  | _ => none

theorem SpecialForm.ofName?_name (f : SpecialForm) : ofName? f.name = some f := by
  cases f <;> decide

end SmallLisp
