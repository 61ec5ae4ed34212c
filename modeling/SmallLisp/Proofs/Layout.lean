import SmallLisp.Proofs.Lexing

/-! The layout of source text. A text consists of pieces: characters that only separate, comments, and tokens.
What can be a piece is said here by its own characters and the character behind it, without the lexer. The main
statement says that the lexer takes every text apart into such pieces with nothing left over, unless a string is
opened that nothing closes, and that there is no other way to take the text apart. -/

namespace SmallLisp

/-! ### Pieces of text -/

/-- Whether a character between two tokens does nothing but separate them. -/
def isSeparator (c : Char) : Bool := Text.isBlank c || c == ','

theorem isAtomChar_of_isSeparator {c : Char} (hc : isSeparator c = true) : isAtomChar c = false := by
  simp only [isSeparator, Bool.or_eq_true, beq_iff_eq] at hc
  rcases hc with hblank | rfl
  · simp [isAtomChar, hblank]
  · decide

/-- The inside of a string: a backslash goes with the character behind it, and no double quote stands by
itself. -/
inductive Quoteless : List Char → Prop
  | nil : Quoteless []
  | plain {c : Char} {cs : List Char} : c ≠ '\\' → c ≠ '"' → Quoteless cs → Quoteless (c :: cs)
  | escaped (c : Char) {cs : List Char} : Quoteless cs → Quoteless ('\\' :: c :: cs)

/-- Among the characters behind an opening quote is one that closes the string. -/
def HasClosingQuote (cs : List Char) : Prop := ∃ body rest, cs = body ++ '"' :: rest ∧ Quoteless body

/-- The inside of a string goes on up to a double quote or the end of the text, or up to a backslash there. -/
theorem exists_quoteless (cs : List Char) :
    ∃ body rest, cs = body ++ rest ∧ Quoteless body ∧ (rest = [] ∨ rest = ['\\'] ∨ ∃ more, rest = '"' :: more) := by
  match cs with
  | [] => exact ⟨[], [], rfl, .nil, .inl rfl⟩
  | c :: cs =>
      by_cases hquote : c = '"'
      · exact ⟨[], c :: cs, rfl, .nil, .inr (.inr ⟨cs, by rw [hquote]⟩)⟩
      by_cases hslash : c = '\\'
      · match cs with
        | [] => exact ⟨[], [c], rfl, .nil, .inr (.inl (by rw [hslash]))⟩
        | d :: cs =>
            obtain ⟨body, rest, rfl, hbody, hrest⟩ := exists_quoteless cs
            exact ⟨'\\' :: d :: body, rest, by rw [hslash]; rfl, .escaped d hbody, hrest⟩
      · obtain ⟨body, rest, rfl, hbody, hrest⟩ := exists_quoteless cs
        exact ⟨c :: body, rest, rfl, .plain hslash hquote hbody, hrest⟩

/-- The token can be written in front of these characters. Only a tilde and an atom depend on what is behind
them: a tilde takes an at sign in, and an atom every character that can be part of one. -/
inductive Token.Fits : Token → List Char → Prop
  | opener (bracket : Bracket) (rest : List Char) : Fits (.single (.opener bracket) bracket.opening) rest
  | closer (bracket : Bracket) (rest : List Char) : Fits (.single (.closer bracket) bracket.closing) rest
  | sign {c : Char} (rest : List Char) : c ∈ ['\'', '\x60', '^', '@'] → Fits (.single .shorthand c) rest
  | tilde {rest : List Char} : rest.head? ≠ some '@' → Fits ⟨.shorthand, "~"⟩ rest
  | tildeAt (rest : List Char) : Fits ⟨.shorthand, "~@"⟩ rest
  | string {body : List Char} (rest : List Char) :
      Quoteless body → Fits ⟨.string, String.ofList ('"' :: body ++ ['"'])⟩ rest
  | atom {word rest : List Char} : word ≠ [] → (∀ c ∈ word, isAtomChar c = true) →
      (∀ c ∈ rest.head?, isAtomChar c = false) → Fits ⟨.atom, String.ofList word⟩ rest

/-- A piece of source text. -/
inductive Piece
  | separator (c : Char)
  | comment (body : List Char)
  | token (t : Token)

namespace Piece

/-- The characters that a piece is written with. -/
def chars : Piece → List Char
  | separator c => [c]
  | comment body => ';' :: body
  | token t => t.text.toList

/-- The token that a piece is. -/
def token? : Piece → Option Token
  | token t => some t
  | _ => none

/-- The piece can be written in front of these characters. A comment reaches to the end of its line. -/
def Fits (rest : List Char) : Piece → Prop
  | separator c => isSeparator c = true
  | comment body => '\n' ∉ body ∧ (rest = [] ∨ rest.head? = some '\n')
  | token t => t.Fits rest

end Piece

/-- Each piece can be written in front of the pieces behind it and of the remaining characters. -/
inductive Layout (rest : List Char) : List Piece → Prop
  | nil : Layout rest []
  | cons {piece : Piece} {pieces : List Piece} :
      piece.Fits (pieces.flatMap Piece.chars ++ rest) → Layout rest pieces → Layout rest (piece :: pieces)

/-- What can be left behind the last piece of a text, with the fault that it is: nothing at all, or a string that
nothing closes. -/
inductive LeftOver : Option Error → List Char → Prop
  | nothing : LeftOver none []
  | openString {body : List Char} :
      ¬HasClosingQuote body → LeftOver (some (.read .unclosedString)) ('"' :: body)

/-! ### What the lexer makes of a piece -/

/-- The tokens in front of those of a text. -/
def Lexed.behind (tokens : List Token) (lexed : Lexed) : Lexed := ⟨tokens ++ lexed.tokens, lexed.unclosed⟩

theorem Lexed.behind_append (front tokens : List Token) (lexed : Lexed) :
    lexed.behind (front ++ tokens) = (lexed.behind tokens).behind front :=
  congrArg (Lexed.mk · _) (List.append_assoc front tokens lexed.tokens)

namespace LexMode

/-- What the lexer makes of characters that are all that is left of a text. -/
def lexAll (m : LexMode) (cs : List Char) : Lexed := ⟨(m.scan cs).1 ++ (m.scan cs).2.finish, (m.scan cs).2.inString⟩

theorem lexAll_append (m : LexMode) (cs ds : List Char) :
    m.lexAll (cs ++ ds) = ((m.scan cs).2.lexAll ds).behind (m.scan cs).1 := by
  simp only [lexAll, scan_append, Lexed.behind, List.append_assoc]

theorem lexAll_cons (m : LexMode) (c : Char) (cs : List Char) :
    m.lexAll (c :: cs) = ((m.feed c).2.lexAll cs).behind (m.feed c).1 := by
  simp only [lexAll, scan_cons, Lexed.behind, List.append_assoc]

/-- Characters behind which nothing is left open are lexed by themselves. -/
theorem lexAll_of_scan {cs : List Char} {tokens : List Token} (h : between.scan cs = (tokens, between))
    (rest : List Char) : between.lexAll (cs ++ rest) = (between.lexAll rest).behind tokens := by
  rw [lexAll_append, h]

/-- Where an atom has begun, a character that cannot be part of it, or the end of the text, finishes it. -/
theorem lexAll_atom {reversed rest : List Char} (hrest : ∀ c ∈ rest.head?, isAtomChar c = false) :
    (atom reversed).lexAll rest = (between.lexAll rest).behind [.collected .atom reversed] := by
  cases rest with
  | nil => rfl
  | cons c rest =>
      have hc : isAtomChar c = false := hrest c rfl
      rw [lexAll_cons, lexAll_cons, feed_atRest (m := atom reversed) trivial hc, Lexed.behind_append]
      rfl

/-- Behind a tilde, everything but an at sign counts as if the tilde were not there. -/
theorem lexAll_tilde {rest : List Char} (hrest : rest.head? ≠ some '@') :
    tilde.lexAll rest = (between.lexAll rest).behind [⟨.shorthand, "~"⟩] := by
  cases rest with
  | nil => rfl
  | cons c rest =>
      have hc : c ≠ '@' := fun h => hrest (congrArg some h)
      have hfeed : tilde.feed c = (⟨.shorthand, "~"⟩ :: (between.feed c).1, (between.feed c).2) := if_neg hc
      rw [lexAll_cons, lexAll_cons, hfeed, ← List.singleton_append, Lexed.behind_append]

theorem start_separator {c : Char} (hc : isSeparator c = true) : start c = ([], between) := by
  unfold start
  rw [isAtomChar_of_isSeparator hc, if_neg Bool.false_ne_true]
  split
  all_goals first | rfl | exact absurd hc (by decide)

theorem scan_comment {body : List Char} (hbody : '\n' ∉ body) : comment.scan body = ([], comment) := by
  induction body with
  | nil => rfl
  | cons c body ih =>
      have hc : c ≠ '\n' := fun h => hbody (h ▸ List.mem_cons_self)
      have hfeed : comment.feed c = ([], comment) := by simp [feed, hc]
      rw [scan_cons, hfeed, ih fun h => hbody (List.mem_cons_of_mem _ h)]
      rfl

theorem scan_quoteless {body : List Char} (hbody : Quoteless body) (reversed : List Char) :
    (string reversed).scan body = ([], string (body.reverse ++ reversed)) := by
  induction hbody generalizing reversed with
  | nil => rfl
  | plain hslash hquote _ ih =>
      rw [scan_cons]
      simp [feed, hslash, hquote, ih]
  | escaped c _ ih =>
      rw [scan_cons, scan_cons]
      simp [feed, ih]

/-- A string that nothing closes takes in the rest of the text. -/
theorem lexAll_unclosed {cs : List Char} (h : ¬HasClosingQuote cs) (reversed : List Char) :
    (string reversed).lexAll cs = ⟨[], true⟩ := by
  obtain ⟨body, rest, rfl, hbody, hrest⟩ := exists_quoteless cs
  rw [lexAll_append, scan_quoteless hbody]
  rcases hrest with rfl | rfl | ⟨more, rfl⟩
  · rfl
  · rfl
  · exact absurd ⟨body, more, rfl, hbody⟩ h

end LexMode

/-- A token is lexed by itself in front of everything that it can be written in front of. -/
theorem Token.Fits.lexAll {t : Token} {rest : List Char} (h : t.Fits rest) :
    LexMode.between.lexAll (t.text.toList ++ rest) = (LexMode.between.lexAll rest).behind [t] := by
  cases h with
  | opener bracket => exact LexMode.lexAll_of_scan (by cases bracket <;> decide) rest
  | closer bracket => exact LexMode.lexAll_of_scan (by cases bracket <;> decide) rest
  | sign _ hc =>
      simp only [List.mem_cons, List.not_mem_nil, or_false] at hc
      rcases hc with rfl | rfl | rfl | rfl <;> exact LexMode.lexAll_of_scan (by decide) rest
  | tilde hrest => exact (LexMode.lexAll_cons .between '~' rest).trans (LexMode.lexAll_tilde hrest)
  | tildeAt => exact LexMode.lexAll_of_scan (by decide) rest
  | @string body _ hbody =>
      have hscan : LexMode.between.scan ('"' :: body ++ ['"']) =
          ([⟨.string, String.ofList ('"' :: body ++ ['"'])⟩], .between) := by
        have hfeed : LexMode.between.feed '"' = ([], .string ['"']) := by decide
        rw [List.cons_append, LexMode.scan_cons, hfeed, LexMode.scan_append, LexMode.scan_quoteless hbody]
        simp [LexMode.scan, LexMode.feed, Token.collected]
      rw [String.toList_ofList]
      exact LexMode.lexAll_of_scan hscan rest
  | @atom word _ hne hword hrest =>
      obtain ⟨c, cs, rfl⟩ := List.exists_cons_of_ne_nil hne
      have hfeed : LexMode.between.feed c = ([], .atom [c]) := if_pos (hword c List.mem_cons_self)
      have hscan := @LexMode.scan_atom cs [c] fun d hd => hword d (List.mem_cons_of_mem _ hd)
      rw [String.toList_ofList, LexMode.lexAll_append, LexMode.scan_cons, hfeed, hscan]
      refine (LexMode.lexAll_atom hrest).trans ?_
      simp [Token.collected]

/-- A piece is lexed by itself in front of everything that it can be written in front of. -/
theorem Piece.Fits.lexAll {piece : Piece} {rest : List Char} (h : piece.Fits rest) :
    LexMode.between.lexAll (piece.chars ++ rest) =
      (LexMode.between.lexAll rest).behind piece.token?.toList := by
  cases piece with
  | separator c =>
      have hscan : LexMode.between.scan [c] = ([], .between) := by
        rw [LexMode.scan_cons, LexMode.feed, LexMode.start_separator h]
        rfl
      exact LexMode.lexAll_of_scan hscan rest
  | comment body =>
      obtain ⟨hbody, hrest⟩ := h
      have hscan : LexMode.between.scan (';' :: body) = ([], .comment) := by
        rw [LexMode.scan_cons]
        exact LexMode.scan_comment hbody
      rw [Piece.chars, LexMode.lexAll_append, hscan]
      rcases hrest with rfl | hrest
      · rfl
      · obtain ⟨more, rfl⟩ := List.head?_eq_some_iff.mp hrest
        rfl
  | token t => exact Token.Fits.lexAll h

/-- The pieces of a text are lexed one by one. -/
theorem Layout.lexAll {rest : List Char} {pieces : List Piece} (h : Layout rest pieces) :
    LexMode.between.lexAll (pieces.flatMap Piece.chars ++ rest) =
      (LexMode.between.lexAll rest).behind (pieces.filterMap Piece.token?) := by
  induction h with
  | nil => rfl
  | @cons piece pieces hpiece _ ih =>
      rw [List.flatMap_cons, List.append_assoc, hpiece.lexAll, ih, ← Lexed.behind_append]
      cases piece <;> rfl

/-! ### Pieces everywhere -/

/-- The characters of a class at the beginning of a text, up to the first that is not of the class. -/
theorem exists_span (p : Char → Bool) (cs : List Char) :
    ∃ front rest, cs = front ++ rest ∧ (∀ c ∈ front, p c = true) ∧ ∀ c ∈ rest.head?, p c = false := by
  induction cs with
  | nil => exact ⟨[], [], rfl, nofun, nofun⟩
  | cons c cs ih =>
      by_cases hc : p c = true
      · obtain ⟨front, rest, rfl, hfront, hrest⟩ := ih
        exact ⟨c :: front, rest, rfl, List.forall_mem_cons.mpr ⟨hc, hfront⟩, hrest⟩
      · exact ⟨[], c :: cs, rfl, nofun, fun d hd => by cases hd; exact Bool.eq_false_iff.mpr hc⟩

/-- Whatever does not separate begins a comment or a token, or else a string that nothing closes. -/
theorem exists_piece {c : Char} (hc : isSeparator c = false) (cs : List Char) :
    (∃ (piece : Piece) (more rest : List Char), piece.chars = c :: more ∧ cs = more ++ rest ∧ piece.Fits rest) ∨
      (c = '"' ∧ ¬HasClosingQuote cs) := by
  by_cases hatom : isAtomChar c = true
  · obtain ⟨word, rest, rfl, hword, hrest⟩ := exists_span isAtomChar cs
    refine .inl ⟨.token ⟨.atom, String.ofList (c :: word)⟩, word, rest, by simp [Piece.chars], rfl, ?_⟩
    exact .atom (List.cons_ne_nil c word) (List.forall_mem_cons.mpr ⟨hatom, hword⟩) hrest
  have htoken : ∀ t : Token, t.text = c.toString → t.Fits cs →
      ∃ (piece : Piece) (more rest : List Char),
        piece.chars = c :: more ∧ cs = more ++ rest ∧ piece.Fits rest := by
    intro t htext ht
    exact ⟨.token t, [], cs, by simp [Piece.chars, htext], rfl, ht⟩
  have hmem : c ∈ delimiters := by
    simp only [isSeparator, Bool.or_eq_false_iff] at hc
    simpa [isAtomChar, hc.1] using hatom
  simp only [delimiters, List.mem_cons, List.not_mem_nil, or_false] at hmem
  rcases hmem with rfl | rfl | rfl | rfl | rfl | rfl | rfl | rfl | rfl | rfl | rfl | rfl | rfl | rfl
  · exact .inl (htoken _ rfl (.opener .square cs))
  · exact .inl (htoken _ rfl (.closer .square cs))
  · exact .inl (htoken _ rfl (.opener .curly cs))
  · exact .inl (htoken _ rfl (.closer .curly cs))
  · exact .inl (htoken _ rfl (.opener .round cs))
  · exact .inl (htoken _ rfl (.closer .round cs))
  · exact .inl (htoken _ rfl (.sign cs (by decide)))
  · by_cases hclosed : HasClosingQuote cs
    · obtain ⟨body, rest, rfl, hbody⟩ := hclosed
      exact .inl ⟨.token ⟨.string, String.ofList ('"' :: body ++ ['"'])⟩, body ++ ['"'], rest,
        by simp [Piece.chars], by simp, .string rest hbody⟩
    · exact .inr ⟨rfl, hclosed⟩
  · exact .inl (htoken _ rfl (.sign cs (by decide)))
  · cases hc
  · obtain ⟨body, rest, rfl, hbody, hrest⟩ := exists_span (· != '\n') cs
    refine .inl ⟨.comment body, body, rest, rfl, rfl, fun hmem => by simpa using hbody _ hmem, ?_⟩
    cases rest with
    | nil => exact .inl rfl
    | cons d rest => exact .inr (congrArg some (by simpa using hrest d rfl))
  · by_cases hat : cs.head? = some '@'
    · obtain ⟨rest, rfl⟩ := List.head?_eq_some_iff.mp hat
      exact .inl ⟨.token ⟨.shorthand, "~@"⟩, ['@'], rest, rfl, rfl, .tildeAt rest⟩
    · exact .inl (htoken ⟨.shorthand, "~"⟩ rfl (.tilde hat))
  · exact .inl (htoken _ rfl (.sign cs (by decide)))
  · exact .inl (htoken _ rfl (.sign cs (by decide)))

/-- Every text can be taken apart into pieces, up to a string that nothing closes or to its end. -/
theorem exists_layout (cs : List Char) :
    ∃ pieces rest fault, cs = pieces.flatMap Piece.chars ++ rest ∧ Layout rest pieces ∧ LeftOver fault rest := by
  match cs with
  | [] => exact ⟨[], [], none, rfl, .nil, .nothing⟩
  | c :: cs =>
      have hpiece : (∃ (piece : Piece) (more rest : List Char),
          piece.chars = c :: more ∧ cs = more ++ rest ∧ piece.Fits rest) ∨ (c = '"' ∧ ¬HasClosingQuote cs) := by
        by_cases hc : isSeparator c = true
        · exact .inl ⟨.separator c, [], cs, rfl, rfl, hc⟩
        · exact exists_piece (Bool.eq_false_iff.mpr hc) cs
      rcases hpiece with ⟨piece, more, rest, hchars, hcs, hfits⟩ | ⟨rfl, hopen⟩
      · have hshorter : rest.length < (c :: cs).length := by
          rw [hcs, List.length_cons, List.length_append]
          omega
        obtain ⟨pieces, tail, fault, hrest, hlayout, htail⟩ := exists_layout rest
        exact ⟨piece :: pieces, tail, fault, by simp [hchars, hcs, hrest], .cons (hrest ▸ hfits) hlayout, htail⟩
      · exact ⟨[], '"' :: cs, _, rfl, .nil, .openString hopen⟩
termination_by cs.length

/-- In front of a character that can be part of an atom, a piece ends with one that cannot. -/
theorem Piece.Fits.getLast? {piece : Piece} {rest : List Char} {d : Char} (h : piece.Fits (d :: rest))
    (hd : isAtomChar d = true) : ∃ c, piece.chars.getLast? = some c ∧ isAtomChar c = false := by
  cases piece with
  | separator c => exact ⟨c, rfl, isAtomChar_of_isSeparator h⟩
  | comment body =>
      obtain ⟨-, hrest | hrest⟩ := h
      · cases hrest
      · cases hrest
        exact absurd hd (by decide)
  | token t =>
      cases h with
      | opener bracket | closer bracket => cases bracket <;> exact ⟨_, rfl, by decide⟩
      | sign _ hc =>
          simp only [List.mem_cons, List.not_mem_nil, or_false] at hc
          rcases hc with rfl | rfl | rfl | rfl <;> exact ⟨_, rfl, by decide⟩
      | tilde => exact ⟨'~', rfl, by decide⟩
      | tildeAt => exact ⟨'@', rfl, by decide⟩
      | @string body => exact ⟨'"', by rw [Piece.chars, String.toList_ofList, List.getLast?_concat], by decide⟩
      | atom _ _ hrest => exact absurd hd (by simp [hrest d rfl])

/-- Pieces can be put in front of other pieces if they can be written in front of the characters of these. -/
theorem Layout.append {rest : List Char} {front back : List Piece}
    (hfront : Layout (back.flatMap Piece.chars ++ rest) front) (hback : Layout rest back) :
    Layout rest (front ++ back) := by
  induction hfront with
  | nil => exact hback
  | @cons piece pieces hpiece _ ih =>
      rw [← List.append_assoc, ← List.flatMap_append] at hpiece
      exact .cons hpiece ih

theorem Layout.of_append {rest : List Char} {front back : List Piece} (h : Layout rest (front ++ back)) :
    Layout rest back := by
  induction front with
  | nil => exact h
  | cons piece front ih =>
      rw [List.cons_append] at h
      cases h with
      | cons _ hrest => exact ih hrest

/-- An atom begins where no other character of an atom stands in front of it. -/
theorem Layout.before_atom {rest : List Char} {front back : List Piece} {word : String}
    (h : Layout rest (front ++ .token ⟨.atom, word⟩ :: back)) :
    ∀ c ∈ (front.flatMap Piece.chars).getLast?, isAtomChar c = false := by
  induction front with
  | nil => exact nofun
  | cons piece front ih =>
      rw [List.cons_append] at h
      obtain _ | ⟨hpiece, hrest⟩ := h
      rw [List.flatMap_cons, List.getLast?_append]
      cases hlast : (front.flatMap Piece.chars).getLast? with
      | some d =>
          rw [Option.some_or, ← hlast]
          exact ih hrest
      | none =>
          -- nothing stands between this piece and the atom
          have hnil : front.flatMap Piece.chars = [] := List.getLast?_eq_none_iff.mp hlast
          obtain ⟨d, more, hword, hd⟩ : ∃ d more, word.toList = d :: more ∧ isAtomChar d = true := by
            cases hrest.of_append with
            | cons hatom _ =>
                cases hatom with
                | atom hne hchars _ =>
                    obtain ⟨d, more, rfl⟩ := List.exists_cons_of_ne_nil hne
                    exact ⟨d, more, String.toList_ofList, hchars d List.mem_cons_self⟩
          have hfits : piece.Fits (d :: (more ++ (back.flatMap Piece.chars ++ rest))) := by
            simpa [hnil, Piece.chars, hword] using hpiece
          obtain ⟨c, hc, hother⟩ := hfits.getLast? hd
          intro e he
          rw [hc] at he
          cases he
          exact hother

/-! ### The main statement -/

/-- The tokens of a text are those of its layout, and the fault behind them is what is left over. -/
theorem Layout.lex_eq {source : String} {pieces : List Piece} {rest : List Char} {fault : Option Error}
    (h : Layout rest pieces) (hsource : source.toList = pieces.flatMap Piece.chars ++ rest)
    (hrest : LeftOver fault rest) :
    (lex source).tokens = pieces.filterMap Piece.token? ∧ (lex source).fault? = fault := by
  have hlex : lex source = (LexMode.between.lexAll rest).behind (pieces.filterMap Piece.token?) := by
    rw [SmallLisp.lex_eq, ← h.lexAll, ← hsource]
    rfl
  cases hrest with
  | nothing => exact ⟨by rw [hlex]; exact List.append_nil _, by rw [hlex]; rfl⟩
  | openString hopen =>
      have hfeed : LexMode.between.feed '"' = ([], .string ['"']) := by decide
      rw [hlex, LexMode.lexAll_cons, hfeed, LexMode.lexAll_unclosed hopen]
      exact ⟨List.append_nil _, rfl⟩

/-- Each token of a text can be written somewhere. -/
theorem exists_fits_of_lex {source : String} {t : Token} (h : t ∈ (lex source).tokens) : ∃ rest, t.Fits rest := by
  obtain ⟨pieces, rest, fault, hsource, hlayout, hrest⟩ := exists_layout source.toList
  rw [(hlayout.lex_eq hsource hrest).1] at h
  clear hsource hrest
  induction hlayout with
  | nil => cases h
  | @cons piece pieces hpiece _ ih =>
      cases piece with
      | token u =>
          rcases List.mem_cons.mp (show t ∈ u :: pieces.filterMap Piece.token? from h) with rfl | h
          · exact ⟨_, hpiece⟩
          · exact ih h
      | separator | comment => exact ih h

/-- **The lexer loses nothing.** A text is lexed into certain tokens, with or without a fault behind them, exactly
if it can be taken apart into pieces of which these are the tokens and behind which nothing is left, or else, if
the fault is a string left open, a quote that opens a string and that no quote closes. In such a layout no
character of an atom stands directly in front of an atom. And what does not begin with a separator begins with a
comment, a token or a string that nothing closes, so where no further piece begins only separators can be left. -/
theorem lex_eq_iff_layout (source : String) :
    (∀ tokens fault, (lex source).tokens = tokens ∧ (lex source).fault? = fault ↔
      ∃ pieces rest, source.toList = pieces.flatMap Piece.chars ++ rest ∧ Layout rest pieces ∧
        pieces.filterMap Piece.token? = tokens ∧ LeftOver fault rest) ∧
    (∀ front word back rest, Layout rest (front ++ .token ⟨.atom, word⟩ :: back) →
      ∀ c ∈ (front.flatMap Piece.chars).getLast?, isAtomChar c = false) ∧
    ∀ c cs, isSeparator c = false →
      (∃ (piece : Piece) (more rest : List Char),
        piece.chars = c :: more ∧ cs = more ++ rest ∧ piece.Fits rest) ∨ (c = '"' ∧ ¬HasClosingQuote cs) := by
  refine ⟨fun tokens fault => ⟨?_, ?_⟩, fun _ _ _ _ h => h.before_atom, fun c cs hc => exists_piece hc cs⟩
  · rintro ⟨rfl, rfl⟩
    obtain ⟨pieces, rest, fault, hsource, hlayout, hrest⟩ := exists_layout source.toList
    obtain ⟨htokens, hfault⟩ := hlayout.lex_eq hsource hrest
    exact ⟨pieces, rest, hsource, hlayout, htokens.symm, hfault ▸ hrest⟩
  · rintro ⟨pieces, rest, hsource, hlayout, rfl, hrest⟩
    exact hlayout.lex_eq hsource hrest

/-- An escaped quote, a quote in a comment, a sign of two characters and a quote that opens a string at the very
end are told apart, and a lone tilde is a piece in front of what is no at sign. -/
theorem lex_eq_iff_layout_quotes :
    (∃ pieces rest, "~@a\"\\\"b\";\"\n~c \"".toList = pieces.flatMap Piece.chars ++ rest ∧ Layout rest pieces ∧
      pieces.filterMap Piece.token? =
        [⟨.shorthand, "~@"⟩, ⟨.atom, "a"⟩, ⟨.string, "\"\\\"b\""⟩, ⟨.shorthand, "~"⟩, ⟨.atom, "c"⟩] ∧
      LeftOver (some (.read .unclosedString)) rest) ∧
    ∃ (piece : Piece) (more rest : List Char), piece.chars = '~' :: more ∧ ['c'] = more ++ rest ∧ piece.Fits rest := by
  refine ⟨((lex_eq_iff_layout _).1 _ _).mp ⟨by decide, rfl⟩, ?_⟩
  exact ((lex_eq_iff_layout "").2.2 '~' ['c'] (by decide)).resolve_right fun h => absurd h.1 (by decide)

end SmallLisp
