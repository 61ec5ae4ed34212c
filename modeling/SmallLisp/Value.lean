import SmallLisp.Builtin

/-! Values. Source text is read into values and evaluation gives values, so code and data are one type. A
keyword is a text behind a mark character, which lets keywords and strings be keys of one map; strings that
start with the mark are therefore keywords. A closure refers to its frame by number and carries a stamp that
no other closure has: two closures are the same only if they were made by the same evaluation. -/

namespace SmallLisp

/-- The parameters of a closure: the names that take one argument each, and the name, if any, that takes the
list of all further ones. -/
structure Params where
  fixed : List String
  rest : Option String
  deriving DecidableEq, Repr

inductive Value
  | nil
  | bool (b : Bool)
  | int (n : Int)
  | symbol (name : String)
  | text (s : String)
  | list (items : List Value)
  | vector (items : List Value)
  | map (entries : List (String × Value))
  | closure (stamp : Nat) (params : Params) (body : Value) (frame : Nat)
  | builtin (b : Builtin)
  deriving Inhabited

/-- The character in front of a keyword's name. -/
def keywordMark : Char := 'ʞ'

/-- Whether a text is a keyword. -/
def isKeyword (s : String) : Bool := s.toList.head? == some keywordMark

/-- The name of a keyword: the text without the mark. -/
def keywordName (s : String) : String := String.ofList (s.toList.drop 1)

/-- The keyword of a name. A keyword is its own keyword. -/
def keywordOf (name : String) : String :=
  if isKeyword name then name else String.ofList (keywordMark :: name.toList)

namespace Value

/-- Only `nil` and `false` count as false in a condition. -/
def isTruthy : Value → Bool
  | nil => false
  | bool b => b
  | _ => true

/-- The elements of a list or vector. -/
def elements? : Value → Option (List Value)
  | list items => some items
  | vector items => some items
  | _ => none

/-- The name that a value stands for where a name is bound: a symbol's or a text itself. -/
def boundName? : Value → Option String
  | symbol name => some name
  | text s => some s
  | _ => none

/-- Whether a value is a map or has one inside. -/
def holdsMap : Value → Bool
  | map _ => true
  | list items => items.attach.any fun ⟨v, _⟩ => v.holdsMap
  | vector items => items.attach.any fun ⟨v, _⟩ => v.holdsMap
  | _ => false

/-- The answer of a value to one of the questions. -/
def passes : Test → Value → Bool
  | .isList, list _ => true
  | .isVector, vector _ => true
  | .isMap, map _ => true
  | .isNil, nil => true
  | .isTrue, bool b => b
  | .isFalse, bool b => !b
  | .isSymbol, symbol _ => true
  | .isString, text s => !isKeyword s
  | .isKeyword, text s => isKeyword s
  | .isFunction, closure .. => true
  | .isFunction, builtin _ => true
  | _, _ => false

end Value

end SmallLisp
