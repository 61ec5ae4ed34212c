import SmallLisp.Proofs.Enclosing
import SmallLisp.Proofs.Layout

/-! What stands between tokens. The end of a line finishes everything but a string, so the lines behind a text that
leaves no string open are lexed as if they stood alone, with or without a comment between them and the text. In the
same way a gap of separators and comments finishes any token in front of it, so the tokens of a text can be written
down again with other such gaps between them, and are read as the same forms. -/

namespace SmallLisp

/-! ### Tokens and the characters behind them -/

/-- Whether a character ends every token that it stands behind: it separates, or begins a comment. -/
def endsTokens (c : Char) : Bool := isSeparator c || c == ';'

theorem isAtomChar_of_endsTokens {c : Char} (hc : endsTokens c = true) : isAtomChar c = false := by
  simp only [endsTokens, Bool.or_eq_true, beq_iff_eq] at hc
  rcases hc with hseparator | rfl
  · exact isAtomChar_of_isSeparator hseparator
  · decide

/-- Where a token can be written depends on the next character alone, and one that ends tokens is always right. -/
theorem Token.Fits.of_head {t : Token} {rest rest' : List Char} (h : t.Fits rest)
    (hhead : ∀ c ∈ rest'.head?, rest.head? = some c ∨ endsTokens c = true) : t.Fits rest' := by
  cases h with
  | opener bracket => exact .opener bracket rest'
  | closer bracket => exact .closer bracket rest'
  | sign _ hc => exact .sign rest' hc
  | tilde hrest =>
      refine .tilde fun hat => ?_
      rcases hhead '@' hat with hsame | hends
      · exact hrest hsame
      · exact absurd hends (by decide)
  | tildeAt => exact .tildeAt rest'
  | string _ hbody => exact .string rest' hbody
  | atom hne hword hrest =>
      refine .atom hne hword fun c hc => ?_
      rcases hhead c hc with hsame | hends
      · exact hrest c hsame
      · exact isAtomChar_of_endsTokens hends

/-! ### The end of a line -/

/-- A piece that can be written in front of some characters can be written there with a newline behind these. -/
theorem Piece.Fits.newline {piece : Piece} {cs : List Char} (h : piece.Fits cs) (rest : List Char) :
    piece.Fits (cs ++ '\n' :: rest) := by
  cases piece with
  | separator c => exact h
  | comment body =>
      obtain ⟨hbody, rfl | hhead⟩ := h
      · exact ⟨hbody, .inr rfl⟩
      · obtain ⟨more, rfl⟩ := List.head?_eq_some_iff.mp hhead
        exact ⟨hbody, .inr rfl⟩
  | token t =>
      refine Token.Fits.of_head h fun c hc => ?_
      cases cs with
      | nil =>
          cases hc
          exact .inr (by decide)
      | cons d cs => exact .inl hc

/-- The pieces of a text are also its pieces when more lines follow. -/
theorem Layout.newline {pieces : List Piece} (h : Layout [] pieces) (rest : List Char) :
    Layout ('\n' :: rest) pieces := by
  induction h with
  | nil => exact .nil
  | cons hpiece _ ih =>
      rw [List.append_nil] at hpiece
      exact .cons (hpiece.newline rest) ih

/-- A semicolon finishes whatever is not inside a string, and the rest of the line does nothing more. -/
theorem LexMode.scan_lineComment {m : LexMode} (hm : m.inString = false) {body : List Char} (hbody : '\n' ∉ body) :
    m.scan (';' :: body) = (m.finish, .comment) := by
  have hfeed : m.feed ';' = (m.finish, .comment) := by
    cases m with
    | string | escaped => cases hm
    | _ => rfl
  rw [scan_cons, hfeed, scan_comment hbody, List.append_nil]

/-- A comment at the end of a text that leaves no string open makes no difference. -/
theorem lex_lineComment {source comment : String} (hsource : (lex source).unclosed = false)
    (hcomment : '\n' ∉ comment.toList) : lex (source ++ ";" ++ comment) = lex source := by
  rw [lex_eq] at hsource
  have hchars : (source ++ ";" ++ comment).toList = source.toList ++ ';' :: comment.toList := by simp
  have hclosed : (LexMode.between.scan source.toList).2.inString = false := hsource
  rw [lex_eq, lex_eq, hchars, LexMode.scan_append, LexMode.scan_lineComment hclosed hcomment, hclosed]
  simp [LexMode.finish, LexMode.inString]

/-- **Lines are lexed one after the other.** Behind a text that leaves no string open, and behind such a text with a
comment, the next lines give the tokens and the fault that they give by themselves. Their pieces stay where they are,
too: each way to take the next lines apart, up to a string that nothing closes, is continued from the front to a way to
take the whole text apart, with the newline as a separator and the same characters left over. -/
theorem lex_lines {source comment : String} (hsource : (lex source).fault? = none) (hcomment : '\n' ∉ comment.toList)
    (tail : String) : ∀ line ∈ [source, source ++ ";" ++ comment],
      lex (line ++ "\n" ++ tail) = (lex tail).behind (lex source).tokens ∧
      ∀ pieces rest, tail.toList = pieces.flatMap Piece.chars ++ rest → Layout rest pieces →
        ∃ front, line.toList = front.flatMap Piece.chars ∧ front.filterMap Piece.token? = (lex source).tokens ∧
          Layout rest (front ++ .separator '\n' :: pieces) := by
  have hclosed : (lex source).unclosed = false := Lexed.fault?_eq_none.mp hsource
  intro line hline
  have hsame : lex line = lex source := by
    simp only [List.mem_cons, List.not_mem_nil, or_false] at hline
    rcases hline with rfl | rfl
    · rfl
    · exact lex_lineComment hclosed hcomment
  refine ⟨?_, fun pieces rest htail hpieces => ?_⟩
  · rw [lex_newline (hsame ▸ hclosed), hsame]
    rfl
  · obtain ⟨front, left, fault, hchars, hfront, hleft⟩ := exists_layout line.toList
    obtain ⟨htokens, hfault⟩ := hfront.lex_eq hchars hleft
    rw [hsame, hsource] at hfault
    subst hfault
    cases hleft with
    | nothing =>
        refine ⟨front, by rw [hchars, List.append_nil], by rw [← htokens, hsame], ?_⟩
        exact (hfront.newline _).append (.cons (show isSeparator '\n' = true by decide) hpieces)

/-- Behind an atom, a tilde and an unfinished comment, a line that begins with an at sign and ends inside a string. -/
theorem lex_lines_tilde :
    lex "(a\\ ~; b" = ⟨[.single (.opener .round) '(', ⟨.atom, "a\\"⟩, ⟨.shorthand, "~"⟩], false⟩ ∧
      lex "(a\\ ~; b;\"c\n@d \"e" = ⟨[.single (.opener .round) '(', ⟨.atom, "a\\"⟩, ⟨.shorthand, "~"⟩,
        .single .shorthand '@', ⟨.atom, "d"⟩], true⟩ := by
  have hsource : lex "(a\\ ~; b" =
      ⟨[.single (.opener .round) '(', ⟨.atom, "a\\"⟩, ⟨.shorthand, "~"⟩], false⟩ := by decide
  have htail : lex "@d \"e" = ⟨[.single .shorthand '@', ⟨.atom, "d"⟩], true⟩ := by decide
  have hclosed : (lex "(a\\ ~; b").fault? = none := by rw [hsource]; rfl
  have hline := (@lex_lines "(a\\ ~; b" "\"c" hclosed (by decide) "@d \"e" _ (.tail _ (.head _))).1
  rw [hsource, htail] at hline
  exact ⟨hsource, hline⟩

/-! ### Gaps -/

/-- What can stand between two tokens: separators, and comments that a newline ends. -/
inductive Gap : List Char → Prop
  | nil : Gap []
  | separator {c : Char} {cs : List Char} : isSeparator c = true → Gap cs → Gap (c :: cs)
  | comment {body cs : List Char} : '\n' ∉ body → Gap cs → Gap (';' :: body ++ '\n' :: cs)

/-- The characters are these tokens with a gap behind each. Only the gap behind the last one may be empty. -/
inductive Spread : List Token → List Char → Prop
  | nil : Spread [] []
  | cons {t : Token} {tokens : List Token} {gap cs : List Char} : Gap gap → (tokens ≠ [] → gap ≠ []) →
      Spread tokens cs → Spread (t :: tokens) (t.text.toList ++ gap ++ cs)

/-- The text is these tokens with gaps in front of them, between them and behind them. -/
def Respaced (tokens : List Token) (text : String) : Prop :=
  ∃ lead body, text.toList = lead ++ body ∧ Gap lead ∧ Spread tokens body

theorem Gap.endsTokens {c : Char} {cs : List Char} (h : Gap (c :: cs)) : endsTokens c = true := by
  cases h with
  | separator hc => simp [SmallLisp.endsTokens, hc]
  | comment => decide

theorem Gap.exists_layout {cs : List Char} (h : Gap cs) (rest : List Char) :
    ∃ pieces, cs = pieces.flatMap Piece.chars ∧ pieces.filterMap Piece.token? = [] ∧ Layout rest pieces := by
  induction h with
  | nil => exact ⟨[], rfl, rfl, .nil⟩
  | @separator c cs hc _ ih =>
      obtain ⟨pieces, rfl, htokens, hlayout⟩ := ih
      exact ⟨.separator c :: pieces, rfl, htokens, .cons hc hlayout⟩
  | @comment body cs hbody _ ih =>
      obtain ⟨pieces, rfl, htokens, hlayout⟩ := ih
      have hnewline : Layout rest (.separator '\n' :: pieces) := .cons (show isSeparator '\n' = true by decide) hlayout
      exact ⟨.comment body :: .separator '\n' :: pieces, rfl, htokens, .cons ⟨hbody, .inr rfl⟩ hnewline⟩

theorem Spread.exists_layout {tokens : List Token} {cs : List Char} (h : Spread tokens cs)
    (hfits : ∀ t ∈ tokens, ∃ rest, t.Fits rest) :
    ∃ pieces, cs = pieces.flatMap Piece.chars ∧ pieces.filterMap Piece.token? = tokens ∧ Layout [] pieces := by
  induction h with
  | nil => exact ⟨[], rfl, rfl, .nil⟩
  | @cons t tokens gap cs hgap hne hspread ih =>
      obtain ⟨back, hcs, hback, hlayout⟩ := ih fun u hu => hfits u (List.mem_cons_of_mem _ hu)
      obtain ⟨between, hchars, hnone, hbetween⟩ := hgap.exists_layout (back.flatMap Piece.chars ++ [])
      obtain ⟨rest, ht⟩ := hfits t List.mem_cons_self
      have hhead : ∀ c ∈ (gap ++ cs).head?, rest.head? = some c ∨ endsTokens c = true := by
        intro c hc
        cases gap with
        | cons d gap =>
            cases hc
            exact .inr hgap.endsTokens
        | nil =>
            -- no gap is left out in front of a token, so this is the end of the text
            cases hspread with
            | nil => cases hc
            | cons => exact absurd rfl (hne (List.cons_ne_nil _ _))
      refine ⟨.token t :: (between ++ back), ?_, ?_, .cons ?_ (hbetween.append hlayout)⟩
      · rw [List.flatMap_cons, List.flatMap_append, ← hchars, ← hcs, ← List.append_assoc]
        rfl
      · have hrest : (between ++ back).filterMap Piece.token? = tokens := by
          rw [List.filterMap_append, hnone, hback, List.nil_append]
        exact congrArg (t :: ·) hrest
      · rw [List.append_nil, List.flatMap_append, ← hchars, ← hcs]
        exact ht.of_head hhead

/-- What is read of a text depends on its tokens alone. -/
theorem readPrefix_congr {source text : String} (h : lex text = lex source) (limits : Limits) :
    readPrefix limits text = readPrefix limits source := by
  rw [readPrefix_eq, readPrefix_eq, h]

/-- **Layout makes no difference.** Let a text leave no string open, and let its tokens be written down again with
separators and comments between any two of them, and perhaps around them. Then they are lexed as the same tokens, and
read as the same forms, up to the same fault if there is one. -/
theorem lex_respaced {source text : String} (hsource : (lex source).fault? = none)
    (htext : Respaced (lex source).tokens text) :
    lex text = lex source ∧
      ∀ limits, readPrefix limits text = readPrefix limits source ∧ readAll limits text = readAll limits source := by
  obtain ⟨lead, body, hchars, hlead, hbody⟩ := htext
  obtain ⟨pieces, rfl, hpieces, hlayout⟩ := hbody.exists_layout fun t => exists_fits_of_lex
  obtain ⟨front, rfl, hfront, hlead⟩ := hlead.exists_layout (pieces.flatMap Piece.chars ++ [])
  have hwhole : text.toList = (front ++ pieces).flatMap Piece.chars ++ [] := by
    rw [hchars, List.append_nil, List.flatMap_append]
  obtain ⟨htokens, hfault⟩ := (hlead.append hlayout).lex_eq hwhole .nothing
  have hsame : lex text = lex source := by
    rw [List.filterMap_append, hfront, hpieces, List.nil_append] at htokens
    have hclosed := (Lexed.fault?_eq_none.mp hfault).trans (Lexed.fault?_eq_none.mp hsource).symm
    calc lex text = ⟨(lex text).tokens, (lex text).unclosed⟩ := rfl
      _ = ⟨(lex source).tokens, (lex source).unclosed⟩ := by rw [htokens, hclosed]
  have hread := readPrefix_congr hsame
  exact ⟨hsame, fun limits => ⟨hread limits, by rw [readAll, readAll, hread]⟩⟩

/-- Two signs that would be one without a gap, a string with a semicolon, a comment with a bracket, and wide blanks. -/
theorem lex_respaced_signs :
    lex ";(\n~,@ ;x\nf\u3000\";\\\"\"\u00a0:k" = lex "~ @f\";\\\"\":k" ∧
      ∀ limits, readAll limits ";(\n~,@ ;x\nf\u3000\";\\\"\"\u00a0:k" = readAll limits "~ @f\";\\\"\":k" := by
  have hsource : lex "~ @f\";\\\"\":k" = ⟨[⟨.shorthand, "~"⟩, .single .shorthand '@', ⟨.atom, "f"⟩,
      ⟨.string, "\";\\\"\""⟩, ⟨.atom, ":k"⟩], false⟩ := by decide
  have htext : Respaced (lex "~ @f\";\\\"\":k").tokens ";(\n~,@ ;x\nf\u3000\";\\\"\"\u00a0:k" := by
    rw [hsource]
    have hopen : Gap [';', '(', '\n'] := @Gap.comment ['('] [] (by decide) .nil
    have hinner : Gap [' ', ';', 'x', '\n'] := .separator (by decide) (@Gap.comment ['x'] [] (by decide) .nil)
    have hcomma : Gap [','] := .separator (by decide) .nil
    have hwide : Gap ['\u3000'] := .separator (by decide) .nil
    have hfixed : Gap ['\u00a0'] := .separator (by decide) .nil
    refine ⟨_, _, ?_, hopen, .cons hcomma nofun (.cons hinner nofun (.cons hwide nofun (.cons hfixed nofun
      (.cons .nil (absurd rfl) .nil))))⟩
    decide
  obtain ⟨hlex, hread⟩ := lex_respaced (by rw [hsource]; rfl) htext
  exact ⟨hlex, fun limits => (hread limits).2⟩

end SmallLisp
