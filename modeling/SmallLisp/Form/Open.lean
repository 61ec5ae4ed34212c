import SmallLisp.Assoc
import SmallLisp.Form.Atom
import SmallLisp.Token
import SmallLisp.Value.Describe

/-! Open forms: the forms that the reader has seen the beginning of and not the end, innermost first. Each
token either opens a form, closes the innermost one, or is a form by itself; a form that is complete becomes
part of the one around it, which it may complete in turn. Reading is therefore a single pass over the tokens
with a stack, and the depth of nesting is the height of the stack. -/

namespace SmallLisp

/-- A form that is not complete yet. -/
inductive OpenForm
  /-- A bracket and the forms read behind it, the last one first. -/
  | sequence (bracket : Bracket) (reversed : List Value)
  /-- A sign that puts the next form into a list behind a name. -/
  | shorthand (name : String)
  /-- The sign for metadata, behind which the metadata comes first. -/
  | unnoted
  /-- Metadata that the form it belongs to has to follow. -/
  | noted (note : Value)

namespace OpenForm

/-- What a shorthand token opens. -/
def ofShorthand? : String → Option OpenForm
  | "'" => some (.shorthand "quote")
  | "`" => some (.shorthand "quasiquote")
  | "~" => some (.shorthand "unquote")
  | "~@" => some (.shorthand "splice-unquote")
  | "@" => some (.shorthand "deref")
  | "^" => some .unnoted
  | _ => none

/-- What is missing when the tokens end inside these forms. -/
def missing : List OpenForm → ReadFault
  | .sequence bracket _ :: _ => .missingCloser bracket
  | _ => .missingForm

end OpenForm

/-- The key that a form is in a map literal. -/
def Value.literalKey (limits : Limits) : Value → Except Error String
  | .text key => .ok key
  | v => do
    let shown ← withinLimits (v.describe limits)
    throw (.read (.badKey shown))

/-- The map that the forms between two curly brackets stand for. -/
def Value.ofMapLiteral (limits : Limits) (items : List Value) : Except Error Value :=
  match Assoc.pairUp? items with
  | none => .error (.read .oddMap)
  | some pairs => do
    let entries ← pairs.mapM fun (key, value) => return (← key.literalKey limits, value)
    return .map (Assoc.ofPairs entries)

/-- The value of the forms between two brackets. -/
def Value.ofItems (limits : Limits) (bracket : Bracket) (items : List Value) : Except Error Value :=
  match bracket with
  | .round => .ok (.list items)
  | .square => .ok (.vector items)
  | .curly => ofMapLiteral limits items

/-- How far reading a form has come. -/
inductive Progress
  | complete (v : Value)
  | within (opened : List OpenForm)

namespace Progress

/-- Puts a complete form into the open forms around it. -/
def settle : List OpenForm → Value → Progress
  | [], v => .complete v
  | .sequence bracket items :: outer, v => .within (.sequence bracket (v :: items) :: outer)
  | .shorthand name :: outer, v => settle outer (.list [.symbol name, v])
  | .unnoted :: outer, v => .within (.noted v :: outer)
  | .noted note :: outer, v => settle outer (.list [.symbol "with-meta", v, note])

/-- Opens one more form, as far as the limit lets forms nest. -/
def enter (limits : Limits) (opened : List OpenForm) (form : OpenForm) : Except Error Progress :=
  if opened.length < limits.nesting then .ok (.within (form :: opened)) else .error (.overrun .nesting)

/-- Closes the innermost form with a bracket, which has to be its own. -/
def close (limits : Limits) (bracket : Bracket) (token : String) : List OpenForm → Except Error Progress
  | .sequence b items :: outer =>
    if b = bracket then return settle outer (← Value.ofItems limits bracket items.reverse)
    else .error (.read (.strayCloser token))
  | _ => .error (.read (.strayCloser token))

/-- Takes the next token inside some open forms. -/
def accept (limits : Limits) (opened : List OpenForm) (token : Token) : Except Error Progress :=
  match token.kind with
  | .opener bracket => enter limits opened (.sequence bracket [])
  | .closer bracket => close limits bracket token.text opened
  | .shorthand =>
    match OpenForm.ofShorthand? token.text with
    | some form => enter limits opened form
    | none => .error (.read (.unknownShorthand token.text))
  | .string => .ok (settle opened (.text (Text.ofStringLiteral token.text)))
  | .atom => return settle opened (← withinLimits (Value.ofAtom limits token.text))
  | .other kind => .error (.read (.unknownToken kind token.text))

end Progress

end SmallLisp
