import SmallLisp.Limits
import SmallLisp.SpecialForm
import SmallLisp.Text.Quoted
import SmallLisp.Text.Utf8
import SmallLisp.Value

/-! Errors are causes, and `Error.message` is the one place that words them. Where a message shows a value,
the cause holds the text that was shown, because showing a value can itself pass a limit and fail. -/

namespace SmallLisp

/-- The three kinds of brackets: around lists, vectors and maps. -/
inductive Bracket
  | round | square | curly
  deriving DecidableEq, Repr

def Bracket.opening : Bracket → Char
  | .round => '('
  | .square => '['
  | .curly => '\x7b'

def Bracket.closing : Bracket → Char
  | .round => ')'
  | .square => ']'
  | .curly => '\x7d'

/-- What is wrong with source text. -/
inductive ReadFault
  | unclosedString
  | missingForm
  | missingCloser (bracket : Bracket)
  | strayCloser (token : String)
  | unknownToken (kind token : String)
  | unknownShorthand (token : String)
  | oddMap
  | badKey (shown : String)
  deriving DecidableEq, Repr

/-- Whether the text only ended too early, so that more of it could mend the fault. -/
def ReadFault.isIncomplete : ReadFault → Bool
  | .unclosedString | .missingForm | .missingCloser _ => true
  | _ => false

/-- What is wrong with a parameter list. -/
inductive ParamsFault
  | notSequence | notSymbols | restNotLast | restIsMarker
  deriving DecidableEq, Repr

/-- What is wrong with a list of local bindings. -/
inductive BindingsFault
  | notSequence
  | unbalanced
  | notSymbol (shown : String)
  deriving DecidableEq, Repr

/-- Why a file cannot be read. `notLoaded` is the answer for a file whose content is not at hand yet. -/
inductive FileFault
  | notFound | isDirectory | notDirectory | nameTooLong | accessDenied | notLoaded
  | other (reason : String)
  deriving DecidableEq, Repr

/-- Why an evaluation ended without a value. -/
inductive Error
  | thrown (value : Value)
  | unbound (name : String)
  | builtinArity (b : Builtin) (given : Nat)
  | formArity (f : SpecialForm) (given : Nat)
  | argumentCount (expected given : Nat)
  | tooFewArguments (least given : Nat)
  | notName (shown : String)
  | mapInName
  | definedNotSymbol (shown : String)
  | read (fault : ReadFault)
  | params (fault : ParamsFault)
  | bindings (fault : BindingsFault)
  | argumentType (b : Builtin)
  | notCallable (shown : String)
  | divisionByZero
  | unreadable (path : String) (fault : FileFault)
  | nulInPath
  | undecodable (fault : Text.Utf8Fault)
  | overrun (limit : Overrun)
  deriving Inhabited

/-- A result that only a limit can prevent. -/
def withinLimits {α : Type} : Except Overrun α → Except Error α
  | .ok a => .ok a
  | .error limit => .error (.overrun limit)

def ReadFault.message : ReadFault → String
  | .unclosedString => "expected '\"', got EOF"
  | .missingForm => "expected form, got EOF"
  | .missingCloser bracket => s!"expected '{bracket.closing}', got EOF"
  | .strayCloser token => s!"unexpected '{token}'"
  | .unknownToken kind token => s!"Unknown token: {kind} {token}"
  | .unknownShorthand token => s!"No reader macro defined for {Text.quoted token}"
  | .oddMap => "hash-map literal needs an even number of forms"
  | .badKey shown => s!"hash-map keys must be strings or keywords, got {shown}"

def ParamsFault.message : ParamsFault → String
  | .notSequence => "fn* parameters must be a list or vector"
  | .notSymbols => "fn* parameters must be symbols"
  | .restNotLast => "fn* '&' must be followed by exactly one parameter name"
  | .restIsMarker => "fn* variadic parameter name cannot be '&'"

def BindingsFault.message : BindingsFault → String
  | .notSequence => "let* needs a binding list"
  | .unbalanced => "let* bindings must be balanced"
  | .notSymbol shown => s!"let* binding names must be symbols, got {shown}"

def FileFault.message : FileFault → String
  | .notFound => "No such file or directory"
  | .isDirectory => "Is a directory"
  | .notDirectory => "Not a directory"
  | .nameTooLong => "File name too long"
  | .accessDenied => "Permission denied"
  | .notLoaded => "Resource temporarily unavailable"
  | .other reason => reason

/-- What a predefined function says about a wrong number of arguments. Most take a fixed number, which is
`needed` here; the number that the others ask for is part of their wording. -/
def Builtin.arityMessage (b : Builtin) (given : Nat) : String :=
  let exactly (needed : Nat) := s!"{b.name} requires exactly {needed} argument(s), got {given}"
  match b with
  | .primitive (.arith .sub) => "- requires at least 1 argument"
  | .primitive (.arith .div) => "/ requires at least 2 arguments"
  | .primitive .hashMap => "hash-map requires an even number of arguments"
  | .primitive .equal => exactly 2
  | .primitive (.order _) => exactly 2
  | .apply => "apply requires a function and a list of arguments"
  | .map => exactly 2
  | .eval => s!"eval requires exactly 1 argument, got {given}"
  | _ => exactly 1

/-- What a predefined function says about arguments of a wrong kind. -/
def Builtin.typeMessage : Builtin → String
  | .primitive .hashMap => "hash-map keys must be strings or keywords"
  | .primitive .isEmpty => "empty? expects a collection"
  | .primitive .count => "count expects a collection"
  | .primitive .keyword => "keyword expects a string"
  | .primitive .readString => "read-string expects a string"
  | .primitive .slurp => "slurp expects a file name"
  | .apply => "Last argument to apply must be a list or vector"
  | .map => "map expects a list or vector"
  | b => s!"All arguments to {b.name} must be numbers"

/-- What a special form says about a wrong number of parts. -/
def SpecialForm.arityMessage (f : SpecialForm) (given : Nat) : String :=
  match f with
  | .sequence => "do requires at least 1 argument"
  | .conditional => s!"if requires 2 or 3 arguments, got {given}"
  | f => s!"{f.name} requires exactly 2 arguments, got {given}"

def Text.Utf8Reason.message : Utf8Reason → String
  | .invalidStart => "invalid start byte"
  | .invalidContinuation => "invalid continuation byte"
  | .unexpectedEnd => "unexpected end of data"

/-- Names the faulty byte, or the first and last position where the fault spans several. -/
def Text.Utf8Fault.message (fault : Utf8Fault) : String :=
  if fault.count ≤ 1 then
    s!"'utf-8' codec can't decode byte 0x{hexDigits 2 fault.byte.toNat} in position {fault.start}: " ++
      fault.reason.message
  else
    s!"'utf-8' codec can't decode bytes in position {fault.start}-{fault.start + fault.count - 1}: " ++
      fault.reason.message

/-- The wording of an error. -/
def Error.message : Error → String
  | .thrown _ => "thrown value"
  | .unbound name => s!"'{name}' not found"
  | .builtinArity b given => b.arityMessage given
  | .formArity f given => f.arityMessage given
  | .argumentCount expected given => s!"Expected {expected} argument(s), got {given}"
  | .tooFewArguments least given => s!"Expected at least {least} argument(s), got {given}"
  | .notName shown => s!"Cannot bind {shown}, expected a symbol"
  | .mapInName => "unhashable type: 'HashMap'"
  | .definedNotSymbol shown => s!"def! binding name must be a symbol, got {shown}"
  | .read fault => fault.message
  | .params fault => fault.message
  | .bindings fault => fault.message
  | .argumentType b => b.typeMessage
  | .notCallable shown => s!"{shown} is not callable"
  | .divisionByZero => "Division by zero"
  | .unreadable path fault => s!"slurp: cannot read {path}: {fault.message}"
  | .nulInPath => "embedded null byte"
  | .undecodable fault => fault.message
  | .overrun limit => limit.message

end SmallLisp
