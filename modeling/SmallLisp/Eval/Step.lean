import SmallLisp.Closure
import SmallLisp.Eval.Primitive

/-! A single step of evaluation. A step either finishes with a value or names the form and the frame to go on
with: the branch chosen by `if`, the last form of `do`, the body of `let*`, the body of a closure, the form
given to `eval`. Whatever else has to be evaluated on the way is nested work, which a step hands to the
evaluator that it is given. Where to go on is never nested work. -/

namespace SmallLisp

/-- What the evaluator can be asked to do. A call knows the frame it is made from, for `eval` to find the
root. -/
inductive Task
  | eval (form : Value) (frame : Nat)
  | call (fn : Value) (args : List Value) (caller : Nat)

/-- The outcome of a step. -/
inductive Step
  | value (v : Value)
  | next (form : Value) (frame : Nat)

/-- An evaluator for nested work. -/
abbrev Nested := Task → EvalM Value

open EvalM

/-- Makes a closure over a frame. -/
def makeClosure (params body : Value) (frame : Nat) : EvalM Value := do
  match Params.ofForm params with
  | .ok params => return .closure (← freshStamp) params body frame
  | .error fault => throw (.params fault)

/-- Evaluates local bindings from left to right, each in the frame built so far. -/
def bindLocals (nested : Nested) (frame : Nat) : List (Value × Value) → EvalM Unit
  | [] => return
  | (name, form) :: pairs => do
    match name with
    | .symbol name =>
      let v ← nested (.eval form frame)
      bindName frame name v
      bindLocals nested frame pairs
    | other => throw (.bindings (.notSymbol (← described other)))

/-- Evaluates all forms but the last, with which the evaluation is to go on. -/
def runSequence (nested : Nested) (frame : Nat) (form : Value) : List Value → EvalM Step
  | [] => return .next form frame
  | next :: forms => do
    let _ ← nested (.eval form frame)
    runSequence nested frame next forms

/-- A step of a special form with the given parts. -/
def SpecialForm.step (nested : Nested) (frame : Nat) : SpecialForm → List Value → EvalM Step
  | .define, [name, form] => do
    match name with
    | .symbol name =>
      let v ← nested (.eval form frame)
      bindName frame name v
      return .value v
    | other => throw (.definedNotSymbol (← described other))
  | .localBindings, [bindings, body] => do
    match bindings.elements? with
    | none => throw (.bindings .notSequence)
    | some items =>
      match Assoc.pairUp? items with
      | none => throw (.bindings .unbalanced)
      | some pairs =>
        let inner ← extendFrame frame []
        bindLocals nested inner pairs
        return .next body inner
  | .sequence, form :: forms => runSequence nested frame form forms
  | .conditional, [condition, thenForm] => do
    let v ← nested (.eval condition frame)
    return .next (if v.isTruthy then thenForm else .nil) frame
  | .conditional, [condition, thenForm, elseForm] => do
    let v ← nested (.eval condition frame)
    return .next (if v.isTruthy then thenForm else elseForm) frame
  | .function, [params, body] => do
    let closure ← makeClosure params body frame
    return .value closure
  | form, parts => throw (.formArity form parts.length)

/-- A step of a predefined function, called from a frame. -/
def Builtin.step (nested : Nested) (caller : Nat) : Builtin → List Value → EvalM Step
  | .primitive p, args => do
    let v ← ofExcept (p.run (← read) args)
    return .value v
  | .prn, args => do
    printLine (← printed .readable " " args)
    return .value .nil
  | .println, args => do
    printLine (← printed .raw " " args)
    return .value .nil
  | .apply, fn :: arg :: more => do
    let given := arg :: more
    match (given.getLast (List.cons_ne_nil arg more)).elements? with
    | some items =>
      let v ← nested (.call fn (given.dropLast ++ items) caller)
      return .value v
    | none => throw (.argumentType .apply)
  | .map, [fn, xs] => do
    match xs.elements? with
    | some items =>
      let vs ← items.mapM fun x => nested (.call fn [x] caller)
      return .value (.list vs)
    | none => throw (.argumentType .map)
  | .eval, [form] => do
    return .next form ((← get).frames.root caller)
  | b, args => throw (.builtinArity b args.length)

/-- A step of applying a function to arguments, from a frame. -/
def applyStep (nested : Nested) (fn : Value) (args : List Value) (caller : Nat) : EvalM Step := do
  match fn with
  | .closure _ params body captured =>
    let pairs ← ofExcept (params.assign args)
    let frame ← extendFrame captured pairs
    return .next body frame
  | .builtin b => b.step nested caller args
  | other => throw (.notCallable (← printed .readable "" [other]))

/-- The value of a form that is no application: a symbol is looked up, the parts of a collection are evaluated
from left to right, and anything else is its own value. -/
def evalParts (nested : Nested) (frame : Nat) : Value → EvalM Value
  | .symbol name => lookup frame name
  | .list items => do
    let vs ← items.mapM fun item => nested (.eval item frame)
    return .list vs
  | .vector items => do
    let vs ← items.mapM fun item => nested (.eval item frame)
    return .vector vs
  | .map entries => do
    let vs ← entries.mapM fun (key, form) => do
      let v ← nested (.eval form frame)
      return (key, v)
    return .map vs
  | v => return v

/-- The special form that a head of a list stands for. -/
def Value.specialForm? : Value → Option SpecialForm
  | .symbol name => SpecialForm.ofName? name
  | _ => none

/-- A step of the evaluator. -/
def step (nested : Nested) : Task → EvalM Step
  | .call fn args caller => applyStep nested fn args caller
  | .eval (.list (head :: tail)) frame =>
    match head.specialForm? with
    | some form => form.step nested frame tail
    | none => do
      let fn ← nested (.eval head frame)
      let args ← tail.mapM fun form => nested (.eval form frame)
      applyStep nested fn args frame
  | .eval form frame => do
    let v ← evalParts nested frame form
    return .value v

end SmallLisp
