import SmallLisp.Limits
import SmallLisp.Text.DecimalDigit
import SmallLisp.Value

/-! Atoms: what a token that is no bracket, string or shorthand stands for. It is an integer if it consists
of decimal digits, with or without a minus sign in front; it may be one of three words with a meaning of
their own; a colon in front makes it a keyword; anything else is a symbol. -/

namespace SmallLisp

/-- An integer in decimal notation: its sign and the values of its digits, of which there is at least one. -/
structure Numeral where
  negative : Bool
  digits : List Nat

namespace Numeral

/-- The values of one or more decimal digits. -/
def digits? (cs : List Char) : Option (List Nat) :=
  if cs.isEmpty then none else cs.mapM Text.digitValue?

/-- Takes characters for the notation of an integer, if they are one. -/
def ofChars? : List Char → Option Numeral
  | '-' :: cs => (digits? cs).map (⟨true, ·⟩)
  | cs => (digits? cs).map (⟨false, ·⟩)

/-- The number without its sign. -/
def magnitude (n : Numeral) : Nat := n.digits.foldl (fun acc digit => acc * 10 + digit) 0

/-- The integer, unless its notation is longer than the limit. Leading zeros count, the sign does not. -/
def toInt (limit : Nat) (n : Numeral) : Except Overrun Int :=
  if n.digits.length ≤ limit then .ok (if n.negative then -(n.magnitude : Int) else n.magnitude)
  else .error (.digitsRead limit n.digits.length)

end Numeral

/-- The value of a word that is no integer. -/
def Value.ofWord (word : String) : Value :=
  match word with
  | "nil" => .nil
  | "true" => .bool true
  | "false" => .bool false
  | word =>
    match word.toList with
    | ':' :: name => .text (keywordOf (String.ofList name))
    | _ => .symbol word

/-- The value of an atom. -/
def Value.ofAtom (limits : Limits) (atom : String) : Except Overrun Value :=
  match Numeral.ofChars? atom.toList with
  | some numeral => return .int (← numeral.toInt limits.digits)
  | none => .ok (.ofWord atom)

end SmallLisp
