import SmallLisp.Limits
import SmallLisp.Text.StringLiteral
import SmallLisp.Value

/-! Printing values as source text. The readable style writes strings as literals, so that data can be read
back; the raw style writes them as they are. Printing fails for an integer with more digits than the limit
and for a value that nests deeper than the limit; within them it visits the parts from left to right and
fails at the first that cannot be printed. -/

namespace SmallLisp

/-- How strings are printed: as literals, or as they are. -/
inductive PrintStyle
  | readable | raw
  deriving DecidableEq, Repr

/-- The decimal notation of an integer, if it has at most `digits` digits. -/
def decimalText (digits : Nat) (n : Int) : Except Overrun String :=
  if n.natAbs < Nat.pow 10 digits then .ok (if n < 0 then "-" ++ n.natAbs.repr else n.natAbs.repr)
  else .error (.digitsWritten digits)

/-- A text printed: a keyword behind its colon, a string by the style. -/
def printText (style : PrintStyle) (s : String) : String :=
  if isKeyword s then ":" ++ keywordName s
  else match style with
    | .readable => Text.stringLiteral s
    | .raw => s

/-- Texts between an opening and a closing bracket, separated by spaces. -/
def bracketed (opening closing : String) (parts : List String) : String :=
  opening ++ " ".intercalate parts ++ closing

namespace Value

/-- Prints a value that nests less than `room` levels deep. -/
def printWithin (digits : Nat) (style : PrintStyle) : Nat → Value → Except Overrun String
  | 0, _ => .error .nesting
  | room + 1, v =>
    match v with
    | nil => .ok "nil"
    | bool b => .ok (if b then "true" else "false")
    | int n => decimalText digits n
    | symbol name => .ok name
    | text s => .ok (printText style s)
    | list items => do
      let parts ← items.mapM (printWithin digits style room)
      return bracketed "(" ")" parts
    | vector items => do
      let parts ← items.mapM (printWithin digits style room)
      return bracketed "[" "]" parts
    | map entries => do
      let parts ← entries.mapM fun (key, value) => do
        let shown ← printWithin digits style room value
        return [printText style key, shown]
      return bracketed "\x7b" "\x7d" parts.flatten
    | closure .. => .ok "#<function>"
    | builtin _ => .ok "#<builtin>"

/-- The printed form of a value. -/
def print (limits : Limits) (style : PrintStyle) (v : Value) : Except Overrun String :=
  printWithin limits.digits style limits.nesting v

/-- The printed forms of several values with a separator between them. -/
def printAll (limits : Limits) (style : PrintStyle) (separator : String) (vs : List Value) :
    Except Overrun String := do
  let parts ← vs.mapM (print limits style)
  return separator.intercalate parts

theorem printAll_singleton (limits : Limits) (style : PrintStyle) (separator : String) (v : Value) :
    printAll limits style separator [v] = v.print limits style := by
  rw [printAll, List.mapM_cons]
  cases v.print limits style <;> rfl

/-- Without anything between them, the printed forms of some values come before those of the others. -/
theorem printAll_append (limits : Limits) (style : PrintStyle) (xs ys : List Value) :
    printAll limits style "" (xs ++ ys) = do
      let s ← printAll limits style "" xs
      let t ← printAll limits style "" ys
      return s ++ t := by
  have hjoin : ∀ ss ts : List String, "".intercalate (ss ++ ts) = "".intercalate ss ++ "".intercalate ts := by
    intro ss ts
    by_cases hss : ss = []
    · simp [hss]
    by_cases hts : ts = []
    · simp [hts]
    rw [String.intercalate_append_of_ne_nil hss hts, String.append_empty]
  simp only [printAll, List.mapM_append, bind_assoc, pure_bind, hjoin]

end Value

/-- The names of a parameter list as they are written between its brackets. -/
def Params.names (params : Params) : List String :=
  match params.rest with
  | none => params.fixed
  | some rest => params.fixed ++ ["&", rest]

/-- The form that makes a closure with these parameters and this body. -/
def closureText (limits : Limits) (params : Params) (body : Value) : Except Overrun String := do
  let shown ← body.print limits .readable
  return "(fn* " ++ bracketed "(" ")" params.names ++ " " ++ shown ++ ")"

end SmallLisp
