import SmallLisp.Eval.Machine
import SmallLisp.Form.Read
import SmallLisp.Value.Equal

/-! The functions that answer from their arguments alone. A wrong number of arguments is reported before
anything else, and arguments of a wrong kind before what only their values make wrong. Integers have no
bounds, and division rounds toward zero. -/

namespace SmallLisp

/-- The integers among which an operation is to be done, if the arguments are all integers. -/
def Value.integers? (args : List Value) : Option (List Int) :=
  args.mapM fun
    | .int n => some n
    | _ => none

/-- The quotient of two integers: that of their absolute values, with its sign given back to it. -/
def quotient (n d : Int) : Int :=
  let q : Int := (n.natAbs / d.natAbs : Nat)
  if 0 ≤ n ↔ 0 < d then q else -q

/-- Divides by one integer after the other. -/
def divideBy (n : Int) : List Int → Except Error Int
  | [] => .ok n
  | d :: ds => if d = 0 then .error .divisionByZero else divideBy (quotient n d) ds

/-- The integers given to a function, or its complaint about them. -/
def Primitive.integers (p : Primitive) (args : List Value) : Except Error (List Int) :=
  match Value.integers? args with
  | some ns => .ok ns
  | none => .error (.argumentType (.primitive p))

/-- A wrong number of arguments. -/
def Primitive.miscounted {α : Type} (p : Primitive) (args : List Value) : Except Error α :=
  .error (.builtinArity (.primitive p) args.length)

/-- Does an operation on any number of integers that it admits. -/
def Arith.run (op : Arith) (args : List Value) : Except Error Int := do
  match op, args with
  | .add, args => return (← Primitive.integers (.arith .add) args).foldl (· + ·) 0
  | .mul, args => return (← Primitive.integers (.arith .mul) args).foldl (· * ·) 1
  | .sub, first :: rest =>
    match ← Primitive.integers (.arith .sub) (first :: rest) with
    | [n] => return -n
    | n :: ns => return ns.foldl (· - ·) n
    | [] => return 0
  | .div, first :: second :: rest =>
    match ← Primitive.integers (.arith .div) (first :: second :: rest) with
    | n :: ns => divideBy n ns
    | [] => return 0
  | op, args => Primitive.miscounted (.arith op) args

/-- Compares two integers. -/
def Order.holds (op : Order) (a b : Int) : Bool :=
  match op with
  | .lt => a < b
  | .le => a ≤ b
  | .gt => b < a
  | .ge => b ≤ a

/-- The map that a call with keys and values makes. -/
def Value.ofKeysAndValues (args : List Value) : Except Error Value :=
  match Assoc.pairUp? args with
  | none => Primitive.miscounted .hashMap args
  | some pairs => do
    let entries ← pairs.mapM fun
      | (.text key, value) => .ok (key, value)
      | _ => .error (.argumentType (.primitive .hashMap))
    return .map (Assoc.ofPairs entries)

/-- The number of elements of a collection; `nil` has none. -/
def Value.size? : Value → Option Nat
  | .nil => some 0
  | .list items => some items.length
  | .vector items => some items.length
  | .map entries => some entries.length
  | _ => none

/-- The text of a file. -/
def fileText (ctx : Context) (path : String) : Except Error String :=
  if path.toList.contains '\x00' then .error .nulInPath
  else
    match ctx.files path with
    | .error fault => .error (.unreadable path fault)
    | .ok bytes =>
      match Text.ofBytes bytes with
      | .error fault => .error (.undecodable fault)
      | .ok text => .ok text

/-- The first form of a text, or `nil` if there is none. -/
def firstForm (ctx : Context) (source : String) : Except Error Value := do
  match ← readFirst ctx.limits source with
  | some form => return form
  | none => return .nil

/-- The answer of a primitive function. -/
def Primitive.run (ctx : Context) : Primitive → List Value → Except Error Value
  | .arith op, args => do return .int (← op.run args)
  | .order op, [a, b] => do
    match ← integers (.order op) [a, b] with
    | [m, n] => return .bool (op.holds m n)
    | _ => return .bool false
  | .test question, [v] => .ok (.bool (v.passes question))
  | .equal, [a, b] => do return .bool (← withinLimits (a.equal ctx.limits b))
  | .list, args => .ok (.list args)
  | .vector, args => .ok (.vector args)
  | .hashMap, args => Value.ofKeysAndValues args
  | .isEmpty, [v] =>
    match v.size? with
    | some n => .ok (.bool (n == 0))
    | none => .error (.argumentType (.primitive .isEmpty))
  | .count, [v] =>
    match v.size? with
    | some n => .ok (.int n)
    | none => .error (.argumentType (.primitive .count))
  | .keyword, [v] =>
    match v with
    | .text name => .ok (.text (keywordOf name))
    | _ => .error (.argumentType (.primitive .keyword))
  | .prStr, args => do return .text (← withinLimits (Value.printAll ctx.limits .readable " " args))
  | .str, args => do return .text (← withinLimits (Value.printAll ctx.limits .raw "" args))
  | .readString, [v] =>
    match v with
    | .text source =>
      if isKeyword source then .error (.argumentType (.primitive .readString)) else firstForm ctx source
    | _ => .error (.argumentType (.primitive .readString))
  | .slurp, [v] =>
    match v with
    | .text path =>
      if isKeyword path then .error (.argumentType (.primitive .slurp))
      else do return .text (← fileText ctx path)
    | _ => .error (.argumentType (.primitive .slurp))
  | .throw, [v] => .error (.thrown v)
  | p, args => p.miscounted args

end SmallLisp
