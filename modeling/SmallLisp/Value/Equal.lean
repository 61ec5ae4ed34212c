import SmallLisp.Assoc
import SmallLisp.Limits
import SmallLisp.Value

/-! Equality of values. A list and a vector are equal if their elements are; two maps if they have the same
keys with equal values, in whatever order; closures only if they are the same closure. Values of different
kinds differ. Elements are compared from left to right up to the first difference, so a part that nests too
deep to be compared is an error only if the comparison gets to it. -/

namespace SmallLisp.Value

/-- Whether two maps have the same keys, neither of them twice. -/
def sameKeys (a b : List (String × Value)) : Bool :=
  a.length == b.length && a.all fun entry => (Assoc.find? entry.1 b).isSome

/-- Compares values that nest less than `room` levels deep. -/
def equalWithin : Nat → Value → Value → Except Overrun Bool
  | 0, _, _ => .error .nesting
  | room + 1, a, b =>
    match a.elements?, b.elements? with
    | some xs, some ys =>
      if xs.length = ys.length then (xs.zip ys).allM fun (x, y) => equalWithin room x y else .ok false
    | none, none =>
      match a, b with
      | nil, nil => .ok true
      | bool x, bool y => .ok (x == y)
      | int x, int y => .ok (x == y)
      | symbol x, symbol y => .ok (x == y)
      | text x, text y => .ok (x == y)
      | builtin x, builtin y => .ok (x == y)
      | closure x .., closure y .. => .ok (x == y)
      | map xs, map ys =>
        if sameKeys xs ys then
          xs.allM fun (key, x) =>
            match Assoc.find? key ys with
            | some y => equalWithin room x y
            | none => .ok false
        else .ok false
      | _, _ => .ok false
    | _, _ => .ok false

/-- Whether two values are equal. -/
def equal (limits : Limits) (a b : Value) : Except Overrun Bool :=
  equalWithin limits.nesting a b

end SmallLisp.Value
