import SmallLisp.Error

/-! Tokens: the pieces that source text is made of once blanks, commas and comments are left out. A token
keeps the characters it was written with; its kind says how the reader takes them. -/

namespace SmallLisp

/-- What a token is. Source text never gives an `other` token, but a stream of ready-made tokens may. -/
inductive TokenKind
  /-- One of the signs in front of a form that abbreviate a list around it. -/
  | shorthand
  | opener (bracket : Bracket)
  | closer (bracket : Bracket)
  | string
  | atom
  | other (name : String)
  deriving DecidableEq, Repr

structure Token where
  kind : TokenKind
  text : String
  deriving DecidableEq, Repr

namespace Token

/-- A token of a single character. -/
def single (kind : TokenKind) (c : Char) : Token := ⟨kind, c.toString⟩

/-- An atom or a string whose characters were collected from the last to the first. -/
def collected (kind : TokenKind) (reversed : List Char) : Token := ⟨kind, String.ofList reversed.reverse⟩

end Token

end SmallLisp
