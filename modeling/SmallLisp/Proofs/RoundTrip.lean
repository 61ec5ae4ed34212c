import SmallLisp.Proofs.Lexing

/-! Reading undoes readable printing. The printed form of a value is made of pieces, one or more tokens each, and
with the tokens of each piece the reader comes from any open forms to the point where the value of the piece has
been put into them. Brackets around pieces and spaces between them keep this, so it holds of every value that is
built from readable parts. -/

namespace SmallLisp

/-! ### What tokens lead to -/

/-- Taking the tokens one after the other inside these open forms leads to this progress; a form that is complete
is followed by no further token. -/
inductive Leads (limits : Limits) : List OpenForm → List Token → Progress → Prop
  | done (opened : List OpenForm) : Leads limits opened [] (.within opened)
  | complete {opened : List OpenForm} {token : Token} {v : Value} :
      Progress.accept limits opened token = .ok (.complete v) → Leads limits opened [token] (.complete v)
  | cons {opened opened' : List OpenForm} {token : Token} {tokens : List Token} {p : Progress} :
      Progress.accept limits opened token = .ok (.within opened') → Leads limits opened' tokens p →
        Leads limits opened (token :: tokens) p

namespace Leads

variable {limits : Limits} {opened opened' : List OpenForm} {tokens more : List Token} {p : Progress}

theorem single {token : Token} (h : Progress.accept limits opened token = .ok p) :
    Leads limits opened [token] p := by
  cases p with
  | complete v => exact .complete h
  | within opened' => exact .cons h (.done opened')

theorem append (h : Leads limits opened tokens (.within opened')) (h' : Leads limits opened' more p) :
    Leads limits opened (tokens ++ more) p := by
  generalize hq : Progress.within opened' = q at h
  induction h with
  | done opened =>
      cases hq
      exact h'
  | complete => cases hq
  | cons haccept _ ih => exact .cons haccept (ih hq)

theorem readForm_eq {v : Value} (h : Leads limits opened tokens (.complete v)) (rest : List Token) :
    readForm limits opened (tokens ++ rest) = .ok (v, rest) := by
  generalize hq : Progress.complete v = q at h
  induction h with
  | done => cases hq
  | complete haccept =>
      cases hq
      rw [List.singleton_append, readForm, haccept]
  | cons haccept _ ih =>
      rw [List.cons_append, readForm, haccept]
      exact ih hq

/-- Where tokens have led to, reading goes on with what is behind them. -/
theorem readForm_within (h : Leads limits opened tokens (.within opened')) (rest : List Token) :
    readForm limits opened (tokens ++ rest) = readForm limits opened' rest := by
  generalize hq : Progress.within opened' = q at h
  induction h with
  | done =>
      cases hq
      rfl
  | complete => cases hq
  | cons haccept _ ih =>
      rw [List.cons_append, readForm, haccept]
      exact ih hq

theorem readForms_eq {v : Value} (h : Leads limits opened tokens (.complete v)) (rest : List Token) :
    readForms limits opened (tokens ++ rest) =
      (v :: (readForms limits [] rest).1, (readForms limits [] rest).2) := by
  generalize hq : Progress.complete v = q at h
  induction h with
  | done => cases hq
  | complete haccept =>
      cases hq
      rw [List.singleton_append, readForms, haccept]
  | cons haccept _ ih =>
      rw [List.cons_append, readForms, haccept]
      exact ih hq

/-- Tokens that each time lead to one more item inside a bracket lead to all these items. -/
theorem items {bracket : Bracket} {pieces : List (List Token × Value)}
    (h : ∀ piece ∈ pieces, ∀ reversed, Leads limits (.sequence bracket reversed :: opened) piece.1
      (Progress.settle (.sequence bracket reversed :: opened) piece.2)) (reversed : List Value) :
    Leads limits (.sequence bracket reversed :: opened) (pieces.flatMap Prod.fst)
      (.within (.sequence bracket ((pieces.map Prod.snd).reverse ++ reversed) :: opened)) := by
  induction pieces generalizing reversed with
  | nil => exact .done _
  | cons piece pieces ih =>
      have hpiece := h piece List.mem_cons_self reversed
      have hrest := ih (fun piece hmem => h piece (List.mem_cons_of_mem _ hmem)) (piece.2 :: reversed)
      simpa using hpiece.append hrest

/-- Between two brackets of a kind, the items are put into the open forms as the value that they make up. -/
theorem bracketed {bracket : Bracket} {opening closing : String} {pieces : List (List Token × Value)} {v : Value}
    (hroom : opened.length < limits.nesting)
    (h : ∀ piece ∈ pieces, ∀ reversed, Leads limits (.sequence bracket reversed :: opened) piece.1
      (Progress.settle (.sequence bracket reversed :: opened) piece.2))
    (hv : Value.ofItems limits bracket (pieces.map Prod.snd) = .ok v) :
    Leads limits opened (⟨.opener bracket, opening⟩ :: (pieces.flatMap Prod.fst ++ [⟨.closer bracket, closing⟩]))
      (Progress.settle opened v) := by
  have hopen : Progress.accept limits opened ⟨.opener bracket, opening⟩ =
      .ok (.within (.sequence bracket [] :: opened)) := if_pos hroom
  have hclose : Progress.accept limits (.sequence bracket (pieces.map Prod.snd).reverse :: opened)
      ⟨.closer bracket, closing⟩ = .ok (Progress.settle opened v) := by
    simp only [Progress.accept, Progress.close, if_true, List.reverse_reverse, hv]
    rfl
  have hitems := items h []
  rw [List.append_nil] at hitems
  exact .cons hopen (hitems.append (.single hclose))

end Leads

/-! ### What is written of a value -/

/-- The text is these tokens, and inside any open forms that leave so much room for nesting they give the value. -/
structure Written (limits : Limits) (room : Nat) (v : Value) (text : String) (tokens : List Token) : Prop where
  spells : Spells text.toList tokens
  leads : ∀ opened : List OpenForm, opened.length + room ≤ limits.nesting →
    Leads limits opened tokens (Progress.settle opened v)

namespace Written

variable {limits : Limits} {room : Nat}

theorem mono {v : Value} {text : String} {tokens : List Token} (h : Written limits room v text tokens)
    {more : Nat} (hle : room ≤ more) : Written limits more v text tokens where
  spells := h.spells
  leads opened hroom := h.leads opened (by omega)

theorem atom {word : String} {v : Value} (hne : word.toList ≠ [])
    (hword : ∀ c ∈ word.toList, isAtomChar c = true) (hv : Value.ofAtom limits word = .ok v) :
    Written limits room v word [⟨.atom, word⟩] where
  spells := .atom hne hword
  leads opened _ := .single (by rw [Progress.accept, hv]; rfl)

theorem stringLiteral (s : String) :
    Written limits room (.text s) (Text.stringLiteral s) [⟨.string, Text.stringLiteral s⟩] where
  spells := .stringLiteral s
  leads opened _ := .single (by rw [Progress.accept, Text.ofStringLiteral_stringLiteral])

/-- A value with what is written of it. -/
abbrev Piece := Value × String × List Token

/-- The pieces with spaces between them are the tokens of the pieces. -/
theorem spells_pieces {pieces : List Piece}
    (h : ∀ piece ∈ pieces, Written limits room piece.1 piece.2.1 piece.2.2) :
    Spells (" ".intercalate (pieces.map (·.2.1))).toList (pieces.flatMap (·.2.2)) := by
  have heach : ∀ spelt ∈ pieces.map fun piece => (piece.2.1.toList, piece.2.2), Spells spelt.1 spelt.2 := by
    intro spelt hmem
    obtain ⟨piece, hpiece, rfl⟩ := List.mem_map.mp hmem
    exact (h piece hpiece).spells
  simpa [List.flatMap_map, Function.comp_def] using Spells.intercalate heach

theorem sequence (bracket : Bracket) {pieces : List Piece} {v : Value}
    (h : ∀ piece ∈ pieces, Written limits room piece.1 piece.2.1 piece.2.2)
    (hv : Value.ofItems limits bracket (pieces.map (·.1)) = .ok v) :
    Written limits (room + 1) v
      (bracketed bracket.opening.toString bracket.closing.toString (pieces.map (·.2.1)))
      (.single (.opener bracket) bracket.opening ::
        (pieces.flatMap (·.2.2) ++ [.single (.closer bracket) bracket.closing])) where
  spells := by
    have hclosing : isAtomChar bracket.closing = false := by cases bracket <;> decide
    have hbody := ((spells_pieces h).append bracket.closing hclosing (.closer bracket)).opener bracket
    simpa [bracketed] using hbody
  leads opened hroom := by
    have hitems : ∀ item ∈ pieces.map fun piece => (piece.2.2, piece.1), ∀ reversed,
        Leads limits (.sequence bracket reversed :: opened) item.1
          (Progress.settle (.sequence bracket reversed :: opened) item.2) := by
      intro item hitem reversed
      obtain ⟨piece, hpiece, rfl⟩ := List.mem_map.mp hitem
      exact (h piece hpiece).leads _ (by simpa [Nat.add_assoc, Nat.add_comm 1] using hroom)
    have hall := @Leads.bracketed limits opened bracket bracket.opening.toString bracket.closing.toString _ v
      (by omega) hitems (by simpa [Function.comp_def] using hv)
    simpa [List.flatMap_map, Token.single] using hall

end Written

/-! ### Atoms -/

theorem digitValue?_of_isDigit {c : Char} (h : c.isDigit) :
    Text.digitValue? c = some (c.toNat - '0'.toNat) := by
  have hrange : 48 ≤ c.toNat ∧ c.toNat ≤ 57 := Char.isDigit_iff_toNat.mp h
  have hfind : (Text.digitZeros.find? fun first => first ≤ c.toNat && c.toNat < first + 10) = some 48 := by
    rw [Text.digitZeros, List.find?_cons_of_pos]
    simp
    omega
  rw [Text.digitValue?, hfind]
  rfl

theorem isAtomChar_of_isDigit {c : Char} (h : c.isDigit) : isAtomChar c = true := by
  have hrange : 48 ≤ c.toNat ∧ c.toNat ≤ 57 := Char.isDigit_iff_toNat.mp h
  have hall : ∀ n < 10, isAtomChar (Char.ofNat (48 + n)) = true := by decide
  have hc := hall (c.toNat - 48) (by omega)
  rwa [Nat.add_sub_cancel' hrange.1, Char.ofNat_toNat] at hc

theorem Numeral.digits?_toDigits (n : Nat) :
    digits? (Nat.toDigits 10 n) = some ((Nat.toDigits 10 n).map fun c => c.toNat - '0'.toNat) := by
  have hdigits : ∀ cs : List Char, (∀ c ∈ cs, c.isDigit) →
      cs.mapM Text.digitValue? = some (cs.map fun c => c.toNat - '0'.toNat) := by
    intro cs hcs
    induction cs with
    | nil => rfl
    | cons c cs ih =>
        have hrest := ih fun d hd => hcs d (List.mem_cons_of_mem _ hd)
        rw [List.mapM_cons, digitValue?_of_isDigit (hcs c List.mem_cons_self), hrest]
        rfl
  rw [digits?, if_neg (by simp)]
  exact hdigits _ fun c hc => Nat.isDigit_of_mem_toDigits (by decide) (by decide) hc

theorem Numeral.magnitude_toDigits (negative : Bool) (n : Nat) :
    (Numeral.mk negative ((Nat.toDigits 10 n).map fun c => c.toNat - '0'.toNat)).magnitude = n := by
  rw [magnitude, List.foldl_map]
  simpa [Nat.ofDigitChars_eq_foldl, Nat.mul_comm] using @Nat.ofDigitChars_ten_toDigits n

theorem Numeral.ofChars?_toDigits (n : Nat) :
    ofChars? (Nat.toDigits 10 n) = some ⟨false, (Nat.toDigits 10 n).map fun c => c.toNat - '0'.toNat⟩ := by
  unfold ofChars?
  split
  · next cs hcs =>
      have hsign : ('-').isDigit = true :=
        Nat.isDigit_of_mem_toDigits (by decide) (by decide) (hcs ▸ List.mem_cons_self)
      cases hsign
  · rw [digits?_toDigits]
    rfl

/-- The decimal notation of an integer is read as the integer. -/
theorem Value.ofAtom_decimalText {limits : Limits} {n : Int} {word : String}
    (hdigits : (Nat.toDigits 10 n.natAbs).length ≤ limits.digits)
    (hword : decimalText limits.digits n = .ok word) :
    ofAtom limits word = .ok (.int n) := by
  unfold decimalText at hword
  split at hword
  · cases hword
    split
    · next hneg =>
        have hchars : ("-" ++ n.natAbs.repr).toList = '-' :: Nat.toDigits 10 n.natAbs := by simp
        rw [ofAtom, hchars, Numeral.ofChars?, Numeral.digits?_toDigits]
        simp only [Option.map_some, Numeral.toInt, List.length_map, if_pos hdigits, if_true,
          Numeral.magnitude_toDigits]
        have hn : -(n.natAbs : Int) = n := by omega
        rw [hn]
        rfl
    · next hneg =>
        rw [ofAtom, Nat.toList_repr, Numeral.ofChars?_toDigits]
        simp only [Numeral.toInt, List.length_map, if_pos hdigits, Bool.false_eq_true, if_false,
          Numeral.magnitude_toDigits]
        have hn : (n.natAbs : Int) = n := by omega
        rw [hn]
        rfl
  · cases hword

theorem decimalText_eq {digits : Nat} {n : Int} (hdigits : (Nat.toDigits 10 n.natAbs).length ≤ digits) :
    decimalText digits n = .ok (if n < 0 then "-" ++ n.natAbs.repr else n.natAbs.repr) := by
  have hpos : 0 < digits := Nat.lt_of_lt_of_le Nat.length_toDigits_pos hdigits
  have hlt : n.natAbs < Nat.pow 10 digits := (Nat.length_toDigits_le_iff (by decide) hpos).mp hdigits
  rw [decimalText, if_pos hlt]

theorem Written.decimalText {limits : Limits} {room : Nat} {n : Int}
    (hdigits : (Nat.toDigits 10 n.natAbs).length ≤ limits.digits) :
    ∃ word, decimalText limits.digits n = .ok word ∧ Written limits room (.int n) word [⟨.atom, word⟩] := by
  have hword := decimalText_eq hdigits
  refine ⟨_, hword, .atom ?_ ?_ (Value.ofAtom_decimalText hdigits hword)⟩
  · split <;> simp
  · have hdigit : ∀ c ∈ Nat.toDigits 10 n.natAbs, isAtomChar c = true := fun c hc =>
      isAtomChar_of_isDigit (Nat.isDigit_of_mem_toDigits (by decide) (by decide) hc)
    split
    · intro c hc
      simp only [String.toList_append, Nat.toList_repr] at hc
      rcases List.mem_append.mp hc with hc | hc
      · have hsign : c = '-' := by simpa using hc
        rw [hsign]
        decide
      · exact hdigit c hc
    · simpa using hdigit

theorem Value.ofWord_keyword (name : List Char) :
    ofWord (String.ofList (':' :: name)) = .text (keywordOf (String.ofList name)) := by
  have hword : ∀ word : String, word.toList.head? ≠ some ':' → String.ofList (':' :: name) ≠ word := by
    intro word hhead heq
    rw [← heq, String.toList_ofList] at hhead
    exact hhead rfl
  unfold ofWord
  split
  · next h => exact absurd h (hword "nil" (by decide))
  · next h => exact absurd h (hword "true" (by decide))
  · next h => exact absurd h (hword "false" (by decide))
  · simp only [String.toList_ofList]

/-- The colon with a name behind it is read as the keyword of that name. -/
theorem Value.ofAtom_keyword (limits : Limits) (name : List Char) :
    ofAtom limits (String.ofList (':' :: name)) = .ok (.text (keywordOf (String.ofList name))) := by
  have hcolon : Text.digitValue? ':' = none := by decide +kernel
  have hnumeral : Numeral.ofChars? (':' :: name) = none := by
    simp [Numeral.ofChars?, Numeral.digits?, List.mapM_cons, hcolon]
  rw [ofAtom, String.toList_ofList, hnumeral, ofWord_keyword]

/-! ### Readable values -/

/-- A text whose printed form can be read back: a string that is no keyword, or a keyword whose name is made of
atom characters and is no keyword in turn. -/
def ReadableText (s : String) : Prop :=
  isKeyword s = true →
    (∀ c ∈ (keywordName s).toList, isAtomChar c = true) ∧ isKeyword (keywordName s) = false

/-- A value that nests less than `room` levels deep and whose printed form can be read back. Its integers have no
more digits than the limit, its symbols are atoms that are read as symbols, and no map binds a key twice. -/
inductive Value.Readable (limits : Limits) : Nat → Value → Prop
  | nil {room : Nat} : Readable limits (room + 1) .nil
  | bool {room : Nat} (b : Bool) : Readable limits (room + 1) (.bool b)
  | int {room : Nat} {n : Int} :
      (Nat.toDigits 10 n.natAbs).length ≤ limits.digits → Readable limits (room + 1) (.int n)
  | symbol {room : Nat} {name : String} :
      name.toList ≠ [] → (∀ c ∈ name.toList, isAtomChar c = true) →
        ofAtom limits name = .ok (.symbol name) → Readable limits (room + 1) (.symbol name)
  | text {room : Nat} {s : String} : ReadableText s → Readable limits (room + 1) (.text s)
  | list {room : Nat} {items : List Value} :
      (∀ v ∈ items, Readable limits room v) → Readable limits (room + 1) (.list items)
  | vector {room : Nat} {items : List Value} :
      (∀ v ∈ items, Readable limits room v) → Readable limits (room + 1) (.vector items)
  | map {room : Nat} {entries : List (String × Value)} :
      (∀ entry ∈ entries, ReadableText entry.1) → (∀ entry ∈ entries, Readable limits room entry.2) →
        (entries.map Prod.fst).Nodup → Readable limits (room + 1) (.map entries)

theorem Value.Readable.room_pos {limits : Limits} {room : Nat} {v : Value} (h : v.Readable limits room) : 0 < room := by
  cases h <;> exact Nat.succ_pos _

namespace Written

variable {limits : Limits} {room : Nat}

/-- A readable text is one token. -/
theorem text {s : String} (h : ReadableText s) :
    ∃ tokens, Written limits room (.text s) (printText .readable s) tokens := by
  unfold printText
  split
  · next hkeyword =>
      obtain ⟨hname, hplain⟩ := h hkeyword
      obtain ⟨name, hs⟩ : ∃ name, s.toList = keywordMark :: name :=
        List.head?_eq_some_iff.mp (eq_of_beq hkeyword)
      have hrest : keywordName s = String.ofList name := by rw [keywordName, hs, List.drop_one, List.tail_cons]
      have hkeywordOf : keywordOf (String.ofList name) = s := by
        rw [keywordOf, ← hrest, if_neg (by simp [hplain]), hrest, String.toList_ofList, ← hs,
          String.ofList_toList]
      have hprinted : ":" ++ keywordName s = String.ofList (':' :: name) :=
        String.toList_inj.mp (by simp [hrest])
      have hread := Value.ofAtom_keyword limits name
      rw [hkeywordOf] at hread
      rw [hprinted]
      refine ⟨_, .atom (by simp) ?_ hread⟩
      intro c hc
      rw [String.toList_ofList] at hc
      rcases List.mem_cons.mp hc with rfl | hc
      · decide
      · exact hname c (by rwa [hrest, String.toList_ofList])
  · exact ⟨_, stringLiteral s⟩

/-- Several values, each with what is written of it. -/
theorem pieces {items : List Value} {room' : Nat}
    (h : ∀ v ∈ items, ∃ text tokens, Value.printWithin limits.digits .readable room' v = .ok text ∧
      Written limits room v text tokens) :
    ∃ pieces : List Piece, items = pieces.map (·.1) ∧
      items.mapM (Value.printWithin limits.digits .readable room') = .ok (pieces.map (·.2.1)) ∧
      ∀ piece ∈ pieces, Written limits room piece.1 piece.2.1 piece.2.2 := by
  induction items with
  | nil => exact ⟨[], rfl, rfl, fun piece hpiece => nomatch hpiece⟩
  | cons v items ih =>
      obtain ⟨text, tokens, hprint, hwritten⟩ := h v List.mem_cons_self
      obtain ⟨pieces, hitems, hprints, hpieces⟩ := ih fun w hw => h w (List.mem_cons_of_mem _ hw)
      refine ⟨(v, text, tokens) :: pieces, ?_, ?_, ?_⟩
      · rw [hitems]
        rfl
      · rw [List.mapM_cons, hprint, hprints]
        rfl
      · intro piece hpiece
        rcases List.mem_cons.mp hpiece with rfl | hpiece
        · exact hwritten
        · exact hpieces piece hpiece

/-- At the outside, the tokens of the pieces are read as their values. -/
theorem readForms_pieces {pieces : List Piece}
    (h : ∀ piece ∈ pieces, Written limits room piece.1 piece.2.1 piece.2.2) (hroom : room ≤ limits.nesting) :
    readForms limits [] (pieces.flatMap (·.2.2)) = (pieces.map (·.1), .outOfTokens []) := by
  induction pieces with
  | nil => rfl
  | cons piece pieces ih =>
      have hpiece := (h piece List.mem_cons_self).leads [] (by simpa using hroom)
      have hrest := ih fun piece hmem => h piece (List.mem_cons_of_mem _ hmem)
      rw [List.flatMap_cons, hpiece.readForms_eq, hrest, List.map_cons]

/-- The entries of a map, each as a key and a value with what is written of them. -/
theorem entryPieces {entries : List (String × Value)} {room' : Nat}
    (hkeys : ∀ entry ∈ entries, ReadableText entry.1)
    (h : ∀ entry ∈ entries, ∃ text tokens,
      Value.printWithin limits.digits .readable room' entry.2 = .ok text ∧
        Written limits room entry.2 text tokens) :
    ∃ (pieces : List Piece) (parts : List (List String)),
      (entries.flatMap fun entry => [Value.text entry.1, entry.2]) = pieces.map (·.1) ∧
      (entries.mapM fun (key, value) => do
        let shown ← Value.printWithin limits.digits .readable room' value
        return [printText .readable key, shown]) = Except.ok parts ∧
      parts.flatten = pieces.map (·.2.1) ∧
      ∀ piece ∈ pieces, Written limits room piece.1 piece.2.1 piece.2.2 := by
  induction entries with
  | nil => exact ⟨[], [], rfl, rfl, rfl, fun piece hpiece => nomatch hpiece⟩
  | cons entry entries ih =>
      obtain ⟨key, v⟩ := entry
      obtain ⟨keyTokens, hkey⟩ : ∃ tokens, Written limits room (.text key) (printText .readable key) tokens :=
        text (hkeys _ List.mem_cons_self)
      obtain ⟨shown, tokens, hprint, hwritten⟩ := h _ List.mem_cons_self
      obtain ⟨pieces, parts, hitems, hprints, hparts, hpieces⟩ :=
        ih (fun entry hentry => hkeys entry (List.mem_cons_of_mem _ hentry))
          fun entry hentry => h entry (List.mem_cons_of_mem _ hentry)
      refine ⟨(.text key, printText .readable key, keyTokens) :: (v, shown, tokens) :: pieces,
        [printText .readable key, shown] :: parts, ?_, ?_, ?_, ?_⟩
      · simp [hitems]
      · rw [List.mapM_cons, hprints]
        simp only [hprint]
        rfl
      · simp [hparts]
      · intro piece hpiece
        simp only [List.mem_cons] at hpiece
        rcases hpiece with rfl | rfl | hpiece
        · exact hkey
        · exact hwritten
        · exact hpieces piece hpiece

end Written

theorem Value.pairUp?_entries (entries : List (String × Value)) :
    Assoc.pairUp? (entries.flatMap fun entry => [.text entry.1, entry.2]) =
      some (entries.map fun entry => (.text entry.1, entry.2)) := by
  rw [Assoc.pairUp?_eq_some_iff, List.flatMap_map]

/-- Keys and values in turn are read as the map that binds them from left to right. -/
theorem Value.ofItems_entries (limits : Limits) (entries : List (String × Value)) :
    ofItems limits .curly (entries.flatMap fun entry => [.text entry.1, entry.2]) =
      .ok (.map (Assoc.ofPairs entries)) := by
  rw [ofItems, ofMapLiteral, pairUp?_entries]
  dsimp only
  rw [List.mapM_map]
  -- the key of an entry, being a text, is taken as it stands
  change (entries.mapM fun entry => (pure entry : Except Error (String × Value))) >>= _ = _
  rw [List.mapM_pure, List.map_id']
  rfl

/-- A readable value is printed, and with the tokens of the printed form it is read back into any open forms. -/
theorem Value.Readable.written {limits : Limits} {room : Nat} {v : Value} (h : v.Readable limits room) :
    ∃ text tokens, printWithin limits.digits .readable room v = .ok text ∧ Written limits room v text tokens := by
  induction h with
  | nil => exact ⟨_, _, rfl, .atom (by decide) (List.all_eq_true.mp (by decide)) (by rfl)⟩
  | bool b =>
      cases b with
      | true => exact ⟨_, _, rfl, .atom (by decide) (List.all_eq_true.mp (by decide)) (by rfl)⟩
      | false => exact ⟨_, _, rfl, .atom (by decide) (List.all_eq_true.mp (by decide)) (by rfl)⟩
  | int hdigits =>
      obtain ⟨word, hprint, hwritten⟩ := Written.decimalText hdigits
      exact ⟨word, _, hprint, hwritten⟩
  | symbol hne hname hatom => exact ⟨_, _, rfl, .atom hne hname hatom⟩
  | text hs =>
      obtain ⟨tokens, hwritten⟩ := Written.text hs
      exact ⟨_, tokens, rfl, hwritten⟩
  | list _ ih =>
      obtain ⟨pieces, hitems, hprint, hpieces⟩ := Written.pieces ih
      refine ⟨_, _, ?_, Written.sequence .round hpieces (by rw [← hitems]; rfl)⟩
      rw [printWithin, hprint]
      rfl
  | vector _ ih =>
      obtain ⟨pieces, hitems, hprint, hpieces⟩ := Written.pieces ih
      refine ⟨_, _, ?_, Written.sequence .square hpieces (by rw [← hitems]; rfl)⟩
      rw [printWithin, hprint]
      rfl
  | map hkeys _ hnodup ih =>
      obtain ⟨pieces, parts, hitems, hprint, hparts, hpieces⟩ := Written.entryPieces hkeys ih
      refine ⟨_, _, ?_, Written.sequence .curly hpieces ?_⟩
      · rw [printWithin, hprint, ← hparts]
        rfl
      · rw [← hitems, ofItems_entries, Assoc.ofPairs_of_nodup hnodup]

/-- What is written of a value is read as the value, if the limit leaves so much room for nesting. -/
theorem Written.readFirst_eq {limits : Limits} {room : Nat} {v : Value} {text : String} {tokens : List Token}
    (h : Written limits room v text tokens) (hroom : room ≤ limits.nesting) : readFirst limits text = .ok (some v) := by
  have hread := (h.leads [] (by simpa using hroom)).readForm_eq []
  rw [List.append_nil] at hread
  have hne : tokens ≠ [] := by
    rintro rfl
    cases hread
  rw [SmallLisp.readFirst_eq, h.spells.lex_eq]
  simp only [hne, if_false, hread]

/-- **Reading undoes readable printing.** A readable value that nests less deep than the limit can be printed, and
the first form of the printed text is that value; the printed forms of such values, with a space between any two,
are read as exactly these values. -/
theorem read_print {limits : Limits} {vs : List Value} (h : ∀ v ∈ vs, v.Readable limits limits.nesting) :
    (∀ v ∈ vs, ∃ text, v.print limits .readable = .ok text ∧ readFirst limits text = .ok (some v)) ∧
      ∃ joined, Value.printAll limits .readable " " vs = .ok joined ∧ readAll limits joined = .ok vs := by
  constructor
  · intro v hv
    obtain ⟨text, tokens, hprint, hwritten⟩ := (h v hv).written
    exact ⟨text, hprint, hwritten.readFirst_eq (Nat.le_refl _)⟩
  · obtain ⟨pieces, hvs, hprint, hpieces⟩ := Written.pieces fun v hv => (h v hv).written
    refine ⟨" ".intercalate (pieces.map (·.2.1)), ?_, ?_⟩
    · have hprint : vs.mapM (Value.print limits .readable) = .ok (pieces.map (·.2.1)) := hprint
      rw [Value.printAll, hprint]
      rfl
    · rw [readAll, readPrefix_eq, (Written.spells_pieces hpieces).lex_eq,
        Written.readForms_pieces hpieces (by simp), ← hvs]
      rfl

/-- Brackets, quotes and backslashes in a key, a keyword without a name, a negative integer and a sign as a symbol
all come back. -/
theorem read_print_signs :
    let v : Value := .map [("\"\\;(\n", .list [.int (-70), .nil]), (keywordOf "", .vector [.symbol "+"])]
    (∃ text, v.print {} .readable = .ok text ∧ readFirst {} text = .ok (some v)) ∧
      ∃ joined, Value.printAll {} .readable " " [v, .bool true] = .ok joined ∧
        readAll {} joined = .ok [v, .bool true] := by
  intro v
  have hv : v.Readable {} 500 := by
    refine .map (fun entry hentry => ?_) (fun entry hentry => ?_) (by decide)
    · simp only [List.mem_cons, List.not_mem_nil, or_false] at hentry
      rcases hentry with rfl | rfl
      · exact fun h => absurd h (by decide)
      · exact fun _ => ⟨List.all_eq_true.mp (by decide), by decide⟩
    · simp only [List.mem_cons, List.not_mem_nil, or_false] at hentry
      rcases hentry with rfl | rfl
      · refine .list fun item hitem => ?_
        simp only [List.mem_cons, List.not_mem_nil, or_false] at hitem
        rcases hitem with rfl | rfl
        · exact .int (by decide)
        · exact .nil
      · refine .vector fun item hitem => ?_
        rw [List.mem_singleton.mp hitem]
        exact .symbol (by decide) (List.all_eq_true.mp (by decide)) rfl
  have hall : ∀ w ∈ [v, .bool true], w.Readable {} 500 := by
    intro w hw
    simp only [List.mem_cons, List.not_mem_nil, or_false] at hw
    rcases hw with rfl | rfl
    · exact hv
    · exact .bool true
  have hread := read_print hall
  exact ⟨hread.1 v List.mem_cons_self, hread.2⟩

end SmallLisp
