import SmallLisp.Error
import SmallLisp.Frames

/-! Parameter lists of closures, and the frame that a closure's body is evaluated in. The names in front of
the marker take one argument each; the name behind it takes the list of all further arguments. The frame is
made under the one that the closure was made in, wherever it is called from. -/

namespace SmallLisp

/-- The symbol in front of the last parameter of a closure that takes any number of arguments. -/
def restMarker : String := "&"

namespace Params

/-- The names of a list of symbols. -/
def symbolNames? (items : List Value) : Option (List String) :=
  items.mapM fun
    | .symbol name => some name
    | _ => none

/-- The parameters that a list of names describes. -/
def ofNames (names : List String) : Except ParamsFault Params :=
  let fixed := names.takeWhile (· ≠ restMarker)
  match names.dropWhile (· ≠ restMarker) with
  | [] => .ok ⟨fixed, none⟩
  | [_, rest] => if rest = restMarker then .error .restIsMarker else .ok ⟨fixed, some rest⟩
  | _ => .error .restNotLast

/-- The parameters that a form describes. -/
def ofForm (form : Value) : Except ParamsFault Params :=
  match form.elements? with
  | none => .error .notSequence
  | some items =>
    match symbolNames? items with
    | none => .error .notSymbols
    | some names => ofNames names

/-- The parameters with their arguments, if there is the right number of those. -/
def assign (params : Params) (args : List Value) : Except Error (List (String × Value)) :=
  let count := params.fixed.length
  match params.rest with
  | none =>
    if args.length = count then .ok (params.fixed.zip args) else .error (.argumentCount count args.length)
  | some rest =>
    if args.length < count then .error (.tooFewArguments count args.length)
    else .ok (params.fixed.zip (args.take count) ++ [(rest, .list (args.drop count))])

/-- Binds arguments to parameters in a new frame. -/
def enter (params : Params) (captured : Nat) (args : List Value) (t : Frames) :
    Except Error (Nat × Frames) := do
  let pairs ← params.assign args
  return t.extend captured pairs

end Params

end SmallLisp
