import SmallLisp.Text.Quoted
import SmallLisp.Value.Print

/-! The description of a value, as diagnostics show it. It names the kind of every part: a symbol differs
from a string at sight, and so does a list from a vector. Strings and keywords are quoted literals, keywords
with their mark. -/

namespace SmallLisp

/-- Descriptions between a kind's brackets. -/
def kindOf (kind opening closing : String) (parts : List String) : String :=
  kind ++ "(" ++ opening ++ ", ".intercalate parts ++ closing ++ ")"

namespace Value

/-- Describes a value that nests less than `room` levels deep. -/
def describeWithin (limits : Limits) : Nat → Value → Except Overrun String
  | 0, _ => .error .nesting
  | room + 1, v =>
    match v with
    | nil => .ok "nil"
    | bool b => .ok (if b then "True" else "False")
    | int n => decimalText limits.digits n
    | symbol name => .ok ("Symbol(" ++ Text.quoted name ++ ")")
    | text s => .ok (Text.quoted s)
    | list items => do
      let parts ← items.mapM (describeWithin limits room)
      return kindOf "List" "[" "]" parts
    | vector items => do
      let parts ← items.mapM (describeWithin limits room)
      return kindOf "Vector" "[" "]" parts
    | map entries => do
      let parts ← entries.mapM fun (key, value) => do
        let shown ← describeWithin limits room value
        return Text.quoted key ++ ": " ++ shown
      return kindOf "HashMap" "\x7b" "\x7d" parts
    | closure _ params body _ => do
      let shown ← closureText limits params body
      return "<Closure " ++ shown ++ ">"
    | builtin b => .ok ("<builtin " ++ b.name ++ ">")

/-- The description of a value. -/
def describe (limits : Limits) (v : Value) : Except Overrun String :=
  describeWithin limits limits.nesting v

/-- The description of a value that stands alone: a text or a symbol is shown as it is. -/
def describeBare (limits : Limits) : Value → Except Overrun String
  | symbol name => .ok name
  | text s => .ok s
  | v => v.describe limits

end Value

end SmallLisp
