import SmallLisp.Eval.Run

/-! An interpreter session. It owns one root frame, which holds the library, the function `eval`, the
program's arguments, and two functions that are written in the language itself; whatever is submitted to the
session is evaluated there, in the state that everything before it has left. -/

namespace SmallLisp

/-- A machine with a single frame that binds the library. -/
def Machine.library : Machine :=
  ⟨⟨#[⟨Builtin.library.map fun b => (b.name, .builtin b), none⟩]⟩, "", 0⟩

/-- A session: the state of its machine, and the forms submitted to it so far. -/
structure Session where
  machine : Machine
  submitted : Array Value

/-- A computation of a session. -/
abbrev SessionM := ReaderT Context (ExceptT Error (StateT Session Option))

/-- What evaluating a text comes to: a single value, or several of them. -/
inductive Results
  | one (v : Value)
  | several (vs : List Value)

/-- What the values of all forms come to. A text without forms has the value `nil`. -/
def Results.ofList : List Value → Results
  | [] => .one .nil
  | [v] => .one v
  | vs => .several vs

namespace Session

variable {α : Type}

/-- The root frame of a session. -/
def rootFrame : Nat := 0

/-- The definitions that a session starts with, in source text. -/
def bootstrap : List String := [
  "(def! not (fn* (a) (if a false true)))",
  "(def! load-file (fn* (f) (eval (read-string (str \"(do \" (slurp f) \"\\nnil)\")))))"]

/-- Works on the machine of the session. -/
def onMachine (x : EvalM α) : SessionM α := fun ctx session =>
  match session with
  | ⟨machine, submitted⟩ =>
    match x.runFrom ctx machine with
    | some (result, machine) => some (result, ⟨machine, submitted⟩)
    | none => none

/-- Evaluates a form in the root frame. -/
def submit (form : Value) : SessionM Value := do
  modify fun session => { session with submitted := session.submitted.push form }
  onMachine (evaluate form rootFrame)

/-- Evaluates the first form of a text, if it holds one. -/
def runFirst (source : String) : SessionM (Option Value) := do
  match ← ofExcept (readFirst (← read).limits source) with
  | some form => return some (← submit form)
  | none => return none

/-- Evaluates the forms of a stream one after the other. A form is read when those in front of it have been
evaluated, so a fault is an error only then. -/
def runForms (stream : TokenStream) : SessionM (List Value) := do
  let ctx ← read
  match _ : stream.nextForm? ctx.limits with
  | (.ok (some form), rest) =>
    let v ← submit form
    return v :: (← runForms rest)
  | (.ok none, _) => return []
  | (.error e, _) => throw e
termination_by stream.unread.length
decreasing_by exact TokenStream.nextForm?_length_lt ‹_›

/-- The forms of a stream are evaluated by its next form and then those behind it. -/
theorem runForms_eq (stream : TokenStream) :
    runForms stream = (do
      match stream.nextForm? (← read).limits with
      | (.ok (some form), rest) =>
        let v ← submit form
        return v :: (← runForms rest)
      | (.ok none, _) => return []
      | (.error e, _) => throw e) := by
  rw [runForms]
  refine congrArg (read >>= ·) (funext fun ctx => ?_)
  split <;> simp only [*]

/-- The values of all forms of a text. -/
def runAll (source : String) : SessionM (List Value) := runForms (.ofSource source)

/-- Evaluates a text. -/
def eval (source : String) : SessionM Results := return .ofList (← runAll source)

/-- The printed value of the first form of a text, if it holds one. -/
def reply (source : String) : SessionM (Option String) := do
  match ← runFirst source with
  | some v => return some (← onMachine (EvalM.printed .readable "" [v]))
  | none => return none

/-- Binds the arguments of a program. -/
def setArgv (argv : List String) : SessionM Unit :=
  onMachine (EvalM.bindName rootFrame "*ARGV*" (.list (argv.map .text)))

/-- Runs a source file with arguments, as the function `load-file` does it. -/
def loadFile (path : String) (argv : List String) : SessionM Value := do
  setArgv argv
  submit (.list [.symbol "load-file", .text path])

/-- Takes the text that was printed since it was taken last. -/
def takeOutput (session : Session) : String × Session :=
  (session.machine.output, { session with machine := { session.machine with output := "" } })

/-- What a session does before anything else. -/
def boot (argv : List String) : SessionM Unit := do
  onMachine (EvalM.bindName rootFrame Builtin.eval.name (.builtin .eval))
  setArgv argv
  bootstrap.forM fun source => do
    let _ ← runFirst source

/-- A new session. -/
def start (ctx : Context) (argv : List String) : Session :=
  match boot argv ctx ⟨.library, #[]⟩ with
  | some (_, session) => session
  | none => ⟨.library, #[]⟩

end Session

/-- How an error is reported to the user: a thrown value is printed, anything else is worded. -/
def Error.report (limits : Limits) : Error → Except Overrun String
  | .thrown v => v.print limits .readable
  | e => .ok ("EOF: " ++ e.message)

end SmallLisp
