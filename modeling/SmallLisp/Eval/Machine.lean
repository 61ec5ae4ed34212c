import SmallLisp.Frames

/-! The state that evaluation works on, and the computations on it. A computation ends with a value or with
an error, and what it did up to an error stays done; or it runs out of steps and has no outcome at all. -/

namespace SmallLisp

/-- What evaluation finds around it and cannot change: the limits, and the files that can be read. -/
structure Context where
  limits : Limits
  files : String → Except FileFault (List UInt8)

/-- What evaluation changes: the frames, the text printed so far, and the number of closures made so far,
from which the next closure has its stamp. -/
structure Machine where
  frames : Frames
  output : String
  stamps : Nat

/-- A computation of the evaluator. -/
abbrev EvalM := ReaderT Context (ExceptT Error (StateT Machine Option))

namespace EvalM

variable {α : Type}

/-- There is no outcome within the steps allowed. -/
def outOfSteps : EvalM α := fun _ _ => none

/-- Runs a computation from a state. -/
def runFrom (x : EvalM α) (ctx : Context) (m : Machine) : Option (Except Error α × Machine) := x ctx m

/-- Looks a name up as a frame sees it. -/
def lookup (frame : Nat) (name : String) : EvalM Value := do
  match (← get).frames.get? frame name with
  | some v => return v
  | none => throw (.unbound name)

/-- Changes the frames. -/
def modifyFrames (f : Frames → Frames) : EvalM Unit := modify fun m => { m with frames := f m.frames }

/-- Binds a name in a frame. -/
def bindName (frame : Nat) (name : String) (value : Value) : EvalM Unit :=
  modifyFrames (·.set frame name value)

/-- Makes a frame under another one, with bindings made from left to right. -/
def extendFrame (outer : Nat) (pairs : List (String × Value)) : EvalM Nat :=
  modifyGet fun m =>
    let (frame, frames) := m.frames.extend outer pairs
    (frame, { m with frames := frames })

/-- A stamp that no closure has yet. -/
def freshStamp : EvalM Nat := modifyGet fun m => (m.stamps, { m with stamps := m.stamps + 1 })

/-- Prints a line. -/
def printLine (line : String) : EvalM Unit := modify fun m => { m with output := m.output ++ line ++ "\n" }

/-- The printed form of values with a separator between them. -/
def printed (style : PrintStyle) (separator : String) (vs : List Value) : EvalM String := do
  ofExcept (withinLimits (Value.printAll (← read).limits style separator vs))

/-- The description of a value. -/
def described (v : Value) : EvalM String := do
  ofExcept (withinLimits (v.describe (← read).limits))

end EvalM

end SmallLisp
