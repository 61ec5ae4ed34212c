import SmallLisp.Eval.Step

/-! The evaluator: a loop of steps. Going on to the next form is a turn of the loop and takes no room, so a
chain of such steps can be as long as it likes; nested work runs one level deeper, and when there is no room
for it, the depth limit is passed. -/

namespace SmallLisp

/-- Runs a task to its value, with room for nested work `room` levels deep. -/
def run : Nat → Nat → Task → EvalM Value
  | 0, _, _ => EvalM.outOfSteps
  | steps + 1, room, task => do
    let nested : Nested :=
      match room with
      | 0 => fun _ => throw (.overrun .depth)
      | room + 1 => run steps room
    match ← step nested task with
    | .value v => return v
    | .next form frame => run steps room (.eval form frame)

/-- Runs a task within the limits of the context. -/
def perform (task : Task) : EvalM Value := do
  let limits := (← read).limits
  run limits.steps limits.depth task

/-- Evaluates a form in a frame. -/
def evaluate (form : Value) (frame : Nat) : EvalM Value := perform (.eval form frame)

/-- Calls a function with arguments, from a frame. -/
def callFunction (fn : Value) (args : List Value) (caller : Nat) : EvalM Value :=
  perform (.call fn args caller)

end SmallLisp
