/-! String literals of the language. Writing puts a backslash before a backslash and a double quote and
writes a line feed as `\n`; reading lets a backslash before any other character stand for that character,
so that every literal can be read. Reading undoes writing. -/

namespace SmallLisp.Text

/-- One character of a string as a literal writes it. -/
def escapeChar : Char → List Char
  | '\\' => ['\\', '\\']
  | '"' => ['\\', '"']
  | '\n' => ['\\', 'n']
  | c => [c]

/-- The characters of a string as a literal writes them between its quotes. -/
def escape (cs : List Char) : List Char := cs.flatMap escapeChar

/-- What the character behind a backslash stands for. -/
def escapedMeaning (c : Char) : Char := if c = 'n' then '\n' else c

/-- Resolves the backslashes of a literal. A backslash at the very end stands for itself. -/
def unescape : List Char → List Char
  | '\\' :: c :: cs => escapedMeaning c :: unescape cs
  | c :: cs => c :: unescape cs
  | [] => []

theorem escape_cons (c : Char) (cs : List Char) : escape (c :: cs) = escapeChar c ++ escape cs := rfl

theorem unescape_escapeChar_append (c : Char) (rest : List Char) :
    unescape (escapeChar c ++ rest) = c :: unescape rest := by
  unfold escapeChar
  split
  · rfl
  · rfl
  · rfl
  · next h _ _ =>
      rw [List.singleton_append, unescape]
      exact fun _ _ hc _ => h hc

theorem unescape_escape_append (cs rest : List Char) :
    unescape (escape cs ++ rest) = cs ++ unescape rest := by
  induction cs with
  | nil => rfl
  | cons c cs ih => rw [escape_cons, List.append_assoc, unescape_escapeChar_append, ih, List.cons_append]

/-- Reading a literal gives the string it was written from. -/
theorem unescape_escape (cs : List Char) : unescape (escape cs) = cs := by
  simpa [unescape] using unescape_escape_append cs []

/-- The literal of a string, with its quotes. -/
def stringLiteral (s : String) : String :=
  String.ofList ('"' :: escape s.toList ++ ['"'])

/-- The string that a literal stands for. Its first and last characters are taken for the quotes. -/
def ofStringLiteral (token : String) : String :=
  String.ofList (unescape (token.toList.drop 1).dropLast)

theorem ofStringLiteral_stringLiteral (s : String) : ofStringLiteral (stringLiteral s) = s := by
  simp [ofStringLiteral, stringLiteral, unescape_escape]

end SmallLisp.Text
