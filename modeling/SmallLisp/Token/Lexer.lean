import SmallLisp.Text.Blank
import SmallLisp.Token

/-! The lexer: source text into tokens, one character at a time. Between two characters it is in one of six
modes; a character completes at most two tokens and leaves the lexer in the next mode. An atom is a maximal
run of characters that delimit nothing, a string ends at its first double quote that has no backslash before
it, and a comment reaches to the end of its line. Text that ends inside a string is at fault, after all the
tokens before that string. -/

namespace SmallLisp

/-- What the lexer is in the middle of. Collected characters are in reverse order. -/
inductive LexMode
  | between
  | comment
  /-- Behind a tilde, which an at sign would make part of a longer shorthand. -/
  | tilde
  | atom (reversed : List Char)
  | string (reversed : List Char)
  /-- In a string, behind a backslash. -/
  | escaped (reversed : List Char)
  deriving DecidableEq, Repr

/-- The characters that end an atom besides the blanks. -/
def delimiters : List Char :=
  ['[', ']', '\x7b', '\x7d', '(', ')', '\'', '"', '\x60', ',', ';', '~', '^', '@']

/-- Whether a character can be part of an atom. -/
def isAtomChar (c : Char) : Bool := !Text.isBlank c && !delimiters.contains c

/-- What a character does between two tokens: the tokens that it is, and the mode behind it. -/
def LexMode.start (c : Char) : List Token × LexMode :=
  if isAtomChar c then ([], .atom [c])
  else
    match c with
    | '(' => ([.single (.opener .round) c], .between)
    | ')' => ([.single (.closer .round) c], .between)
    | '[' => ([.single (.opener .square) c], .between)
    | ']' => ([.single (.closer .square) c], .between)
    | '\x7b' => ([.single (.opener .curly) c], .between)
    | '\x7d' => ([.single (.closer .curly) c], .between)
    | '\'' | '\x60' | '^' | '@' => ([.single .shorthand c], .between)
    | '~' => ([], .tilde)
    | '"' => ([], .string [c])
    | ';' => ([], .comment)
    | _ => ([], .between)

/-- The tokens that a character completes, and the mode behind it. -/
def LexMode.feed : LexMode → Char → List Token × LexMode
  | between, c => start c
  | comment, c => ([], if c = '\n' then .between else .comment)
  | tilde, c =>
    if c = '@' then ([⟨.shorthand, "~@"⟩], .between)
    else
      let (tokens, mode) := start c
      (⟨.shorthand, "~"⟩ :: tokens, mode)
  | atom cs, c =>
    if isAtomChar c then ([], .atom (c :: cs))
    else
      let (tokens, mode) := start c
      (.collected .atom cs :: tokens, mode)
  | string cs, c =>
    if c = '\\' then ([], .escaped (c :: cs))
    else if c = '"' then ([.collected .string (c :: cs)], .between)
    else ([], .string (c :: cs))
  | escaped cs, c => ([], .string (c :: cs))

/-- The tokens that the end of the text completes. -/
def LexMode.finish : LexMode → List Token
  | tilde => [⟨.shorthand, "~"⟩]
  | atom cs => [.collected .atom cs]
  | _ => []

/-- Whether the end of the text would cut a string off. -/
def LexMode.inString : LexMode → Bool
  | string _ | escaped _ => true
  | _ => false

/-- The tokens of a text, and whether a string that nothing closes follows them. -/
structure Lexed where
  tokens : List Token
  unclosed : Bool
  deriving DecidableEq, Repr

/-- The lexer between two characters: the tokens complete so far, and the mode. -/
structure Lexer where
  tokens : Array Token
  mode : LexMode

namespace Lexer

/-- Takes one more character. -/
def feed (l : Lexer) (c : Char) : Lexer :=
  let (tokens, mode) := l.mode.feed c
  ⟨l.tokens ++ tokens, mode⟩

/-- Takes more characters. -/
def feedAll (l : Lexer) (cs : List Char) : Lexer := cs.foldl feed l

/-- Ends the text. -/
def finish (l : Lexer) : Lexed :=
  ⟨(l.tokens ++ l.mode.finish).toList, l.mode.inString⟩

end Lexer

/-- The tokens of source text. -/
def lex (source : String) : Lexed :=
  (Lexer.feedAll ⟨#[], .between⟩ source.toList).finish

/-- The fault at the end of the tokens, if there is one. -/
def Lexed.fault? (lexed : Lexed) : Option Error :=
  if lexed.unclosed then some (.read .unclosedString) else none

end SmallLisp
