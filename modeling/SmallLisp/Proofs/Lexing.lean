import SmallLisp.Session

/-! Lexing piece by piece. The lexer takes a text apart from left to right, so what it does with a text is told
by what it does with the pieces. Where an atom or nothing has begun, any character that cannot be part of an atom
finishes what there is and then counts as if it stood alone; pieces that begin with such a character can therefore
be lexed by themselves. -/

namespace SmallLisp

namespace LexMode

/-- The tokens that characters complete one after the other, and the mode behind them. -/
def scan : LexMode → List Char → List Token × LexMode
  | m, [] => ([], m)
  | m, c :: cs =>
    let (tokens, m) := m.feed c
    let (more, m) := m.scan cs
    (tokens ++ more, m)

theorem scan_nil (m : LexMode) : m.scan [] = ([], m) := rfl

theorem scan_cons (m : LexMode) (c : Char) (cs : List Char) :
    m.scan (c :: cs) = ((m.feed c).1 ++ ((m.feed c).2.scan cs).1, ((m.feed c).2.scan cs).2) := rfl

theorem scan_append (m : LexMode) (cs ds : List Char) :
    m.scan (cs ++ ds) = ((m.scan cs).1 ++ ((m.scan cs).2.scan ds).1, ((m.scan cs).2.scan ds).2) := by
  induction cs generalizing m with
  | nil => rfl
  | cons c cs ih => simp only [List.cons_append, scan_cons, ih, List.append_assoc]

end LexMode

theorem Lexer.feedAll_eq (l : Lexer) (cs : List Char) :
    l.feedAll cs = ⟨l.tokens ++ (l.mode.scan cs).1.toArray, (l.mode.scan cs).2⟩ := by
  induction cs generalizing l with
  | nil => simp [feedAll, LexMode.scan_nil]
  | cons c cs ih =>
      have hfeed : l.feed c = ⟨l.tokens ++ (l.mode.feed c).1, (l.mode.feed c).2⟩ := rfl
      have hall : l.feedAll (c :: cs) = (l.feed c).feedAll cs := rfl
      rw [hall, ih, hfeed, LexMode.scan_cons]
      refine congrArg (Lexer.mk · _) (Array.toList_inj.mp ?_)
      simp

/-- The tokens of a text, by the mode that its characters lead to. -/
theorem lex_eq (source : String) :
    lex source =
      ⟨(LexMode.between.scan source.toList).1 ++ (LexMode.between.scan source.toList).2.finish,
        (LexMode.between.scan source.toList).2.inString⟩ := by
  rw [lex, Lexer.feedAll_eq]
  simp [Lexer.finish]

namespace LexMode

/-- Whether the lexer has nothing, or only the beginning of an atom. -/
def AtRest : LexMode → Prop
  | between | atom _ => True
  | _ => False

theorem feed_atRest {m : LexMode} (hm : m.AtRest) {c : Char} (hc : isAtomChar c = false) :
    m.feed c = (m.finish ++ (between.feed c).1, (between.feed c).2) := by
  cases m with
  | between => rfl
  | atom cs => simp [feed, hc, finish]
  | _ => exact hm.elim

/-- A character that cannot be part of an atom, with all that stands behind it, is lexed as if it stood alone. -/
theorem scan_atRest {m : LexMode} (hm : m.AtRest) {c : Char} (hc : isAtomChar c = false) (cs : List Char) :
    m.scan (c :: cs) = (m.finish ++ (between.scan (c :: cs)).1, (between.scan (c :: cs)).2) := by
  rw [scan_cons, scan_cons, feed_atRest hm hc, List.append_assoc]

theorem scan_atom {cs reversed : List Char} (hcs : ∀ c ∈ cs, isAtomChar c = true) :
    (atom reversed).scan cs = ([], atom (cs.reverse ++ reversed)) := by
  induction cs generalizing reversed with
  | nil => rfl
  | cons c cs ih =>
      have hc := hcs c List.mem_cons_self
      have hrest := @ih (c :: reversed) fun d hd => hcs d (List.mem_cons_of_mem _ hd)
      have hfeed : (atom reversed).feed c = ([], atom (c :: reversed)) := by simp [feed, hc]
      rw [scan_cons, hfeed, hrest]
      simp

/-- What is written of one character of a string literal leads the lexer on inside the literal. -/
theorem scan_escapeChar (reversed : List Char) (c : Char) :
    (string reversed).scan (Text.escapeChar c) = ([], string ((Text.escapeChar c).reverse ++ reversed)) := by
  unfold Text.escapeChar
  split
  · rfl
  · rfl
  · rfl
  · next hslash hquote _ =>
      have hslash : c ≠ '\\' := hslash
      have hquote : c ≠ '"' := hquote
      simp [scan, feed, hslash, hquote]

theorem scan_escape (reversed cs : List Char) :
    (string reversed).scan (Text.escape cs) = ([], string ((Text.escape cs).reverse ++ reversed)) := by
  induction cs generalizing reversed with
  | nil => rfl
  | cons c cs ih =>
      rw [Text.escape_cons, scan_append, scan_escapeChar, ih]
      simp

/-- The closing quote of a literal is the one that the lexer finds, and nothing is left open behind it. -/
theorem scan_stringLiteral (s : String) :
    between.scan (Text.stringLiteral s).toList = ([⟨.string, Text.stringLiteral s⟩], between) := by
  have hchars : (Text.stringLiteral s).toList = '"' :: Text.escape s.toList ++ ['"'] := by
    simp [Text.stringLiteral]
  have hfeed : between.feed '"' = ([], string ['"']) := by decide
  rw [hchars, List.cons_append, scan_cons, hfeed, scan_append, scan_escape]
  simp [scan, feed, Token.collected, Text.stringLiteral]

end LexMode

/-! ### What spells which tokens -/

/-- By themselves, the characters are these tokens, and nothing of them is left open but an atom at the end. -/
def Spells (cs : List Char) (tokens : List Token) : Prop :=
  ∃ complete m, LexMode.between.scan cs = (complete, m) ∧ m.AtRest ∧ complete ++ m.finish = tokens

namespace Spells

open LexMode

variable {cs ds : List Char} {tokens more : List Token}

/-- The tokens of a text. -/
theorem lex_eq {source : String} (h : Spells source.toList tokens) : lex source = ⟨tokens, false⟩ := by
  obtain ⟨complete, m, hscan, hm, htokens⟩ := h
  rw [SmallLisp.lex_eq, hscan, ← htokens]
  cases m <;> first | rfl | exact hm.elim

theorem nil : Spells [] [] := ⟨[], between, rfl, trivial, rfl⟩

/-- A piece may be followed by a piece that begins with a character which cannot be part of an atom. -/
theorem append (c : Char) (hc : isAtomChar c = false) (h : Spells cs tokens) (h' : Spells (c :: ds) more) :
    Spells (cs ++ c :: ds) (tokens ++ more) := by
  obtain ⟨complete, m, hscan, hm, rfl⟩ := h
  obtain ⟨complete', m', hscan', hm', rfl⟩ := h'
  refine ⟨complete ++ (m.finish ++ complete'), m', ?_, hm', by simp⟩
  rw [scan_append, hscan]
  dsimp only
  rw [scan_atRest hm hc, hscan']

/-- A character that leaves nothing open can be put in front. -/
theorem cons {c : Char} (done : List Token) (hc : between.feed c = (done, between)) (h : Spells cs tokens) :
    Spells (c :: cs) (done ++ tokens) := by
  obtain ⟨complete, m, hscan, hm, rfl⟩ := h
  refine ⟨done ++ complete, m, ?_, hm, by simp⟩
  rw [scan_cons, hc, hscan]

theorem space (h : Spells cs tokens) : Spells (' ' :: cs) tokens := h.cons [] rfl

theorem opener (bracket : Bracket) (h : Spells cs tokens) :
    Spells (bracket.opening :: cs) (.single (.opener bracket) bracket.opening :: tokens) :=
  h.cons [_] (by cases bracket <;> rfl)

theorem closer (bracket : Bracket) : Spells [bracket.closing] [.single (.closer bracket) bracket.closing] :=
  nil.cons [_] (by cases bracket <;> rfl)

theorem atom {word : String} (hne : word.toList ≠ []) (hword : ∀ c ∈ word.toList, isAtomChar c = true) :
    Spells word.toList [⟨.atom, word⟩] := by
  obtain ⟨c, cs, hcs⟩ := List.exists_cons_of_ne_nil hne
  rw [hcs] at hword
  have hc : isAtomChar c = true := hword c List.mem_cons_self
  have hrest : ∀ d ∈ cs, isAtomChar d = true := fun d hd => hword d (List.mem_cons_of_mem _ hd)
  have hfeed : between.feed c = ([], .atom [c]) := if_pos hc
  have hscan : between.scan word.toList = ([], .atom (cs.reverse ++ [c])) := by
    rw [hcs, scan_cons, hfeed, scan_atom hrest]
    rfl
  refine ⟨_, _, hscan, trivial, ?_⟩
  simp [finish, Token.collected, ← hcs]

theorem stringLiteral (s : String) :
    Spells (Text.stringLiteral s).toList [⟨.string, Text.stringLiteral s⟩] :=
  ⟨_, _, scan_stringLiteral s, trivial, List.append_nil _⟩

/-- Pieces with spaces between them. -/
theorem intercalate {pieces : List (List Char × List Token)}
    (h : ∀ piece ∈ pieces, Spells piece.1 piece.2) :
    Spells ([' '].intercalate (pieces.map Prod.fst)) (pieces.flatMap Prod.snd) := by
  induction pieces with
  | nil => exact nil
  | cons piece pieces ih =>
      have hpiece := h piece List.mem_cons_self
      have hrest := ih fun piece hmem => h piece (List.mem_cons_of_mem _ hmem)
      cases pieces with
      | nil => simpa using hpiece
      | cons next pieces =>
          have happend := hpiece.append ' ' (by decide) hrest.space
          simpa using happend

end Spells

end SmallLisp
