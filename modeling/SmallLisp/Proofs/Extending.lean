import SmallLisp.Proofs.Enclosing

/-! Reading a text that goes on. The reader takes the tokens from the front and looks at none behind the one that
completes a form or is at fault, so what it has found there holds of every text that begins in the same way. Only
where the text has come to its end inside open forms does the rest matter: then there is always a rest with which
the reader comes to a form, or to a map literal that is at fault. -/

namespace SmallLisp

/-! ### The tokens of a longer text -/

/-- The tokens that the characters of a text complete are the first tokens of every text that begins with it. -/
theorem lex_append (source tail : String) :
    ∃ more, (lex (source ++ tail)).tokens = (LexMode.between.scan source.toList).1 ++ more := by
  rw [lex_eq, String.toList_append, LexMode.scan_append]
  exact ⟨_, List.append_assoc _ _ _⟩

/-- Behind a newline, all tokens of a text are the first ones of the longer text. -/
theorem lex_append_newline (source tail : String) :
    ∃ more, (lex (source ++ "\n" ++ tail)).tokens = (lex source).tokens ++ more := by
  cases hopen : (lex source).unclosed with
  | false =>
      rw [lex_newline hopen]
      exact ⟨_, rfl⟩
  | true =>
      obtain ⟨more, hmore⟩ := lex_append source ("\n" ++ tail)
      rw [lex_eq] at hopen
      refine ⟨more, ?_⟩
      rw [String.append_assoc, hmore, lex_eq source, LexMode.finish_inString hopen, List.append_nil]

/-- Some characters complete the string that the lexer is in. -/
theorem LexMode.exists_scan_inString {m : LexMode} (hm : m.inString = true) :
    ∃ cs token, m.scan cs = ([token], between) ∧ token.kind = .string := by
  cases m with
  | string reversed => exact ⟨['"'], .collected .string ('"' :: reversed), rfl, rfl⟩
  | escaped reversed => exact ⟨['"', '"'], .collected .string ('"' :: '"' :: reversed), rfl, rfl⟩
  | _ => cases hm

/-- A string that a text leaves open can be closed, and then it is one more token. -/
theorem exists_closed (source : String) :
    ∃ tail tokens, lex (source ++ tail) = ⟨(lex source).tokens ++ tokens, false⟩ ∧
      ∀ token ∈ tokens, token.kind = .string := by
  cases hopen : (lex source).unclosed with
  | false =>
      refine ⟨"", [], ?_, nofun⟩
      rw [String.append_empty, List.append_nil, ← hopen]
  | true =>
      rw [lex_eq] at hopen
      obtain ⟨cs, token, hscan, hkind⟩ := LexMode.exists_scan_inString hopen
      refine ⟨String.ofList cs, [token], ?_, List.forall_mem_singleton.mpr hkind⟩
      rw [lex_eq, lex_eq source, String.toList_append, String.toList_ofList, LexMode.scan_append, hscan,
        LexMode.finish_inString hopen]
      simp [LexMode.finish, LexMode.inString]

/-! ### What is behind a form or a fault -/

/-- What is read of some tokens is read of them in front of others, too. Only where they end inside open forms does
reading go on with the tokens behind them. -/
theorem readForm_append (limits : Limits) (opened : List OpenForm) (front back : List Token) :
    readForm limits opened (front ++ back) =
      match readForm limits opened front with
      | .ok (v, rest) => .ok (v, rest ++ back)
      | .error (.fault e rest) => .error (.fault e (rest ++ back))
      | .error (.outOfTokens opened) => readForm limits opened back := by
  induction front generalizing opened with
  | nil => rfl
  | cons token front ih =>
      rw [List.cons_append, readForm, readForm]
      rcases Progress.accept limits opened token with e | v | opened'
      · rfl
      · rfl
      · exact ih opened'

/-- How reading the first form of a text fails. -/
theorem exists_halt_of_readFirst {limits : Limits} {source : String} {e : Error}
    (h : readFirst limits source = .error e) :
    ∃ halt, readForm limits [] (lex source).tokens = .error halt ∧ halt.error (lex source).fault? = e := by
  rw [readFirst_eq] at h
  split at h
  · next hnone =>
      refine ⟨.outOfTokens [], by rw [hnone]; rfl, ?_⟩
      split at h
      · next hfault =>
          cases h
          rw [hfault]
          rfl
      · cases h
  · split at h
    · cases h
    · next halt hread =>
        cases h
        exact ⟨halt, hread, rfl⟩

theorem exists_readForm_of_readFirst {limits : Limits} {source : String} {v : Value}
    (h : readFirst limits source = .ok (some v)) :
    ∃ rest, readForm limits [] (lex source).tokens = .ok (v, rest) := by
  rw [readFirst_eq] at h
  split at h
  · split at h <;> cases h
  · split at h
    · next rest hread =>
        cases h
        exact ⟨rest, hread⟩
    · cases h

/-- A text without forms has no tokens, and no open string either. -/
theorem readFirst_eq_none {limits : Limits} {source : String} (h : readFirst limits source = .ok none) :
    (lex source).tokens = [] ∧ (lex source).unclosed = false := by
  rw [readFirst_eq] at h
  split at h
  · next hempty =>
      split at h
      · cases h
      · next hfault => exact ⟨hempty, Lexed.fault?_eq_none.mp hfault⟩
  · split at h <;> cases h

/-- A text whose tokens come to a fault is at fault in this way. -/
theorem readFirst_of_fault {limits : Limits} {source : String} {e : Error}
    (h : ∃ rest, readForm limits [] (lex source).tokens = .error (.fault e rest)) :
    readFirst limits source = .error e := by
  obtain ⟨rest, h⟩ := h
  have hne : (lex source).tokens ≠ [] := by
    intro hnil
    rw [hnil] at h
    cases h
  rw [readFirst_eq, if_neg hne, h]
  rfl

/-! ### Faults -/

/-- What only a limit can prevent is no fault of the text. -/
theorem withinLimits_ne_read {α : Type} {x : Except Overrun α} {fault : ReadFault} :
    withinLimits x ≠ .error (.read fault) := by
  cases x <;> nofun

/-- Between two brackets only a map literal can be at fault. -/
theorem Value.ofItems_fault {limits : Limits} {bracket : Bracket} {items : List Value} {fault : ReadFault}
    (h : ofItems limits bracket items = .error (.read fault)) :
    fault = .oddMap ∨ ∃ shown, fault = .badKey shown := by
  cases bracket with
  | round | square => cases h
  | curly =>
      rw [ofItems, ofMapLiteral] at h
      cases hpairs : Assoc.pairUp? items with
      | none =>
          rw [hpairs] at h
          cases h
          exact .inl rfl
      | some pairs =>
          rw [hpairs] at h
          obtain hentries | ⟨entries, -, h⟩ := bind_eq_error h
          · obtain ⟨pair, -, hentry⟩ := exists_mapM_error hentries
            obtain hkey | ⟨key, -, hentry⟩ := bind_eq_error hentry
            · cases hv : pair.1 with
              | text s =>
                  rw [hv] at hkey
                  cases hkey
              | _ =>
                  rw [hv] at hkey
                  obtain hshown | ⟨shown, -, hkey⟩ := bind_eq_error hkey
                  · exact absurd hshown withinLimits_ne_read
                  · cases hkey
                    exact .inr ⟨shown, rfl⟩
            · cases hentry
          · cases h

section

variable {limits : Limits} {opened : List OpenForm}

/-- What is at fault at a token is not that the text has come to its end. -/
theorem Progress.accept_fault {token : Token} {fault : ReadFault}
    (h : accept limits opened token = .error (.read fault)) : fault.isIncomplete = false := by
  have henter : ∀ form, enter limits opened form ≠ .error (.read fault) := by
    intro form hform
    unfold enter at hform
    split at hform <;> cases hform
  unfold accept at h
  split at h
  · exact absurd h (henter _)
  · next bracket _ =>
      unfold close at h
      split at h
      · split at h
        · obtain hitems | ⟨v, -, h⟩ := bind_eq_error h
          · obtain rfl | ⟨shown, rfl⟩ := Value.ofItems_fault hitems <;> rfl
          · cases h
        · cases h
          rfl
      · cases h
        rfl
  · split at h
    · exact absurd h (henter _)
    · cases h
      rfl
  · cases h
  · obtain hatom | ⟨v, -, h⟩ := bind_eq_error h
    · exact absurd hatom withinLimits_ne_read
    · cases h
  · cases h
    rfl

theorem readForm_fault {tokens rest : List Token} {fault : ReadFault}
    (h : readForm limits opened tokens = .error (.fault (.read fault) rest)) : fault.isIncomplete = false := by
  induction tokens generalizing opened with
  | nil => cases h
  | cons token tokens ih =>
      rw [readForm] at h
      split at h
      · next e haccept =>
          cases h
          exact Progress.accept_fault haccept
      · cases h
      · exact ih h

/-- What a text that has come to its end completes is never at fault, though it may pass a limit. -/
theorem LexMode.readForm_finish (m : LexMode) {fault : ReadFault} {rest : List Token} :
    readForm limits opened m.finish ≠ .error (.fault (.read fault) rest) := by
  intro h
  cases m with
  | tilde =>
      have haccept : Progress.accept limits opened ⟨.shorthand, "~"⟩ =
          Progress.enter limits opened (.shorthand "unquote") := rfl
      rw [finish, readForm, haccept, Progress.enter] at h
      split at h
      · next e henter =>
          split at henter <;> cases henter
          cases h
      · cases h
      · cases h
  | atom reversed =>
      rw [finish, readForm] at h
      split at h
      · next e haccept =>
          cases h
          obtain hatom | ⟨v, -, haccept⟩ := bind_eq_error haccept
          · exact withinLimits_ne_read hatom
          · cases haccept
      · cases h
      · cases h
  | _ => cases h

end

/-- That the text has come to its end inside open forms is a fault of this kind only. -/
theorem Halt.outOfTokens_error {opened : List OpenForm} {source : String} {fault : ReadFault}
    (h : (Halt.outOfTokens opened).error (lex source).fault? = .read fault) : fault.isIncomplete = true := by
  rw [Halt.error, Lexed.fault?] at h
  cases hopen : (lex source).unclosed with
  | true =>
      rw [hopen] at h
      cases h
      rfl
  | false =>
      rw [hopen] at h
      cases h
      unfold OpenForm.missing
      split <;> rfl

section

variable {limits : Limits} {source : String} {fault : ReadFault}

/-- A fault other than an early end is found among the tokens that the characters of the text complete. -/
theorem exists_scan_fault (h : readFirst limits source = .error (.read fault)) (hfault : fault.isIncomplete = false) :
    ∃ rest, readForm limits [] (LexMode.between.scan source.toList).1 = .error (.fault (.read fault) rest) := by
  obtain ⟨halt, hread, herror⟩ := exists_halt_of_readFirst h
  cases halt with
  | outOfTokens opened =>
      rw [Halt.outOfTokens_error herror] at hfault
      cases hfault
  | fault e rest =>
      cases herror
      rw [lex_eq, readForm_append] at hread
      split at hread
      · cases hread
      · next e complete hcomplete =>
          cases hread
          exact ⟨complete, hcomplete⟩
      · exact absurd hread (LexMode.readForm_finish _)

/-- A text that only ends too early ends inside open forms. -/
theorem exists_opened (h : readFirst limits source = .error (.read fault)) (hfault : fault.isIncomplete = true) :
    ∃ opened, readForm limits [] (lex source).tokens = .error (.outOfTokens opened) := by
  obtain ⟨halt, hread, herror⟩ := exists_halt_of_readFirst h
  cases halt with
  | outOfTokens opened => exact ⟨opened, hread⟩
  | fault e rest =>
      cases herror
      rw [readForm_fault hread] at hfault
      cases hfault

end

/-! ### What open forms hold -/

/-- The value can be described with so much room for nesting. -/
def Value.Describable (limits : Limits) (room : Nat) (v : Value) : Prop :=
  ∃ shown, v.describeWithin limits room = .ok shown

/-- The values that have been put into an open form. -/
def OpenForm.held : OpenForm → List Value
  | .sequence _ reversed => reversed
  | .noted note => [note]
  | _ => []

/-- Each of the open forms had room for nesting, and what it holds can be described with the room that is left
inside it. -/
inductive OpenForm.Fitting (limits : Limits) : List OpenForm → Prop
  | nil : Fitting limits []
  | cons {form : OpenForm} {outer : List OpenForm} : outer.length < limits.nesting →
      (∀ v ∈ form.held, v.Describable limits (limits.nesting - outer.length)) → Fitting limits outer →
        Fitting limits (form :: outer)

section

open OpenForm

variable {limits : Limits} {opened opened' : List OpenForm} {v : Value}

theorem Value.Describable.mono {room more : Nat} (h : v.Describable limits room) (hroom : room ≤ more) :
    v.Describable limits more := by
  obtain ⟨shown, hshown⟩ := h
  exact ⟨shown, @describeWithin_mono limits limits.nesting (Nat.le_refl _) room more hroom v shown hshown⟩

theorem Value.describable_ofAtom {word : String} (h : ofAtom limits word = .ok v) (room : Nat) :
    v.Describable limits (room + 1) := by
  rw [ofAtom_eq_ok h]
  refine described_ofAnyAtom room fun numeral hnumeral => ?_
  unfold ofAtom at h
  rw [hnumeral] at h
  obtain ⟨n, hn, -⟩ := bind_eq_ok h
  unfold Numeral.toInt at hn
  split at hn
  · assumption
  · cases hn

namespace OpenForm.Fitting

variable {form : OpenForm} {outer : List OpenForm}

theorem room (h : Fitting limits (form :: outer)) :
    limits.nesting - (form :: outer).length + 1 = limits.nesting - outer.length := by
  cases h with
  | cons hroom _ _ =>
      rw [List.length_cons]
      omega

/-- A shorthand makes a list of what it stands in front of, which has the room outside of it. -/
theorem abbreviated {name : String} {items : List Value} (h : Fitting limits (form :: outer))
    (hitems : ∀ v ∈ items, v.Describable limits (limits.nesting - outer.length)) :
    (Value.list (.symbol name :: items)).Describable limits (limits.nesting - outer.length + 1) := by
  rw [← h.room] at hitems ⊢
  exact (Gathers.list _).described (List.forall_mem_cons.mpr ⟨⟨_, rfl⟩, hitems⟩)

/-- Putting a form into open forms keeps them fitting. -/
theorem settle (h : Fitting limits opened) (hv : v.Describable limits (limits.nesting - opened.length + 1))
    (hsettle : Progress.settle opened v = .within opened') : Fitting limits opened' := by
  induction opened generalizing v with
  | nil => cases hsettle
  | cons form outer ih =>
      rw [h.room] at hv
      cases h with
      | cons hroom hheld houter =>
          cases form with
          | sequence bracket reversed =>
              cases hsettle
              exact .cons hroom (List.forall_mem_cons.mpr ⟨hv, hheld⟩) houter
          | shorthand name =>
              exact ih houter (abbreviated (.cons hroom hheld houter) (List.forall_mem_singleton.mpr hv)) hsettle
          | unnoted =>
              cases hsettle
              exact .cons hroom (List.forall_mem_singleton.mpr hv) houter
          | noted note =>
              exact ih houter (abbreviated (.cons hroom hheld houter) (List.forall_mem_cons.mpr ⟨hv, hheld⟩)) hsettle

/-- What the items of an open bracket make up can be described with the room that is left outside of it. -/
theorem ofItems {bracket : Bracket} {reversed : List Value}
    (h : Fitting limits (.sequence bracket reversed :: outer))
    (hv : Value.ofItems limits bracket reversed.reverse = .ok v) :
    v.Describable limits (limits.nesting - outer.length + 1) := by
  cases h with
  | cons _ hheld _ =>
      exact (Value.ofItems_eq_ok_iff.mp hv).described fun item hitem => hheld item (List.mem_reverse.mp hitem)

/-- Taking a token keeps the open forms fitting. -/
theorem accept {token : Token} (h : Fitting limits opened)
    (haccept : Progress.accept limits opened token = .ok (.within opened')) : Fitting limits opened' := by
  have henter : ∀ form : OpenForm, form.held = [] →
      Progress.enter limits opened form = .ok (.within opened') → Fitting limits opened' := by
    intro form hempty henter
    unfold Progress.enter at henter
    split at henter
    · next hroom =>
        cases henter
        exact .cons hroom (hempty ▸ nofun) h
    · cases henter
  unfold Progress.accept at haccept
  split at haccept
  · exact henter _ rfl haccept
  · next bracket _ =>
      unfold Progress.close at haccept
      split at haccept
      · next b reversed outer =>
          split at haccept
          · next hb =>
              subst hb
              obtain ⟨v, hv, hsettle⟩ := bind_eq_ok haccept
              have hv' := h.ofItems hv
              cases h with
              | cons _ _ houter => exact houter.settle hv' (Except.ok.inj hsettle)
          · cases haccept
      · cases haccept
  · split at haccept
    · next form hform =>
        refine henter form ?_ haccept
        obtain ⟨name, -, rfl⟩ | ⟨-, rfl⟩ := ofShorthand?_eq_some hform <;> rfl
    · cases haccept
  · exact h.settle ⟨_, rfl⟩ (Except.ok.inj haccept)
  · obtain ⟨v, hv, hsettle⟩ := bind_eq_ok haccept
    unfold withinLimits at hv
    split at hv
    · next hatom =>
        cases hv
        exact h.settle (Value.describable_ofAtom hatom _) (Except.ok.inj hsettle)
    · cases hv
  · cases haccept

/-- The forms that are open where the tokens end are fitting. -/
theorem readForm {tokens : List Token} (h : Fitting limits opened)
    (hread : SmallLisp.readForm limits opened tokens = .error (.outOfTokens opened')) : Fitting limits opened' := by
  induction tokens generalizing opened with
  | nil =>
      cases hread
      exact h
  | cons token tokens ih =>
      rw [SmallLisp.readForm] at hread
      split at hread
      · cases hread
      · cases hread
      · next haccept => exact ih (h.accept haccept) hread

end OpenForm.Fitting

end

/-! ### Completing open forms -/

namespace OpenForm

/-- The tokens that complete open forms into which one more form has just been put. -/
def closing : List OpenForm → List Token
  | [] => []
  | .sequence bracket _ :: outer => .single (.closer bracket) bracket.closing :: closing outer
  | .unnoted :: outer => ⟨.atom, "nil"⟩ :: closing outer
  | _ :: outer => closing outer

/-- The tokens that complete open forms: a form where one has to follow, and what closes the forms then. -/
def completion : List OpenForm → List Token
  | .sequence bracket reversed :: outer => closing (.sequence bracket reversed :: outer)
  | opened => ⟨.atom, "nil"⟩ :: closing opened

theorem spells_nil : Spells "nil".toList [⟨.atom, "nil"⟩] := .atom (by decide) (List.all_eq_true.mp (by decide))

theorem spells_closing (opened : List OpenForm) : ∀ token ∈ closing opened, Spells token.text.toList [token] := by
  induction opened with
  | nil => exact nofun
  | cons form outer ih =>
      cases form with
      | sequence bracket reversed =>
          refine List.forall_mem_cons.mpr ⟨?_, ih⟩
          have hchars : (Token.single (.closer bracket) bracket.closing).text.toList = [bracket.closing] := by
            cases bracket <;> rfl
          rw [hchars]
          exact .closer bracket
      | unnoted => exact List.forall_mem_cons.mpr ⟨spells_nil, ih⟩
      | _ => exact ih

/-- There is a text that completes open forms. -/
theorem exists_lex_completion (opened : List OpenForm) : ∃ source, lex source = ⟨completion opened, false⟩ := by
  have hspells : ∀ token ∈ completion opened, Spells token.text.toList [token] := by
    unfold completion
    split
    · exact spells_closing _
    · exact List.forall_mem_cons.mpr ⟨spells_nil, spells_closing _⟩
  have hpieces : ∀ piece ∈ (completion opened).map fun token => (token.text.toList, [token]),
      Spells piece.1 piece.2 := by
    intro piece hpiece
    obtain ⟨token, htoken, rfl⟩ := List.mem_map.mp hpiece
    exact hspells token htoken
  refine ⟨" ".intercalate ((completion opened).map Token.text), Spells.lex_eq ?_⟩
  simpa [List.flatMap_map, Function.comp_def] using Spells.intercalate hpieces

end OpenForm

/-- Reading has come to a form, or to a map literal that is at fault. -/
inductive Concluded : Except Halt (Value × List Token) → Prop
  | form (v : Value) (rest : List Token) : Concluded (.ok (v, rest))
  | oddMap (rest : List Token) : Concluded (.error (.fault (.read .oddMap) rest))
  | badKey (shown : String) (rest : List Token) : Concluded (.error (.fault (.read (.badKey shown)) rest))

/-- Goes on reading from where it has come so far. -/
def Progress.readOn (limits : Limits) : Progress → List Token → Except Halt (Value × List Token)
  | .complete v, tokens => .ok (v, tokens)
  | .within opened, tokens => readForm limits opened tokens

section

open OpenForm

variable {limits : Limits} {opened : List OpenForm} {v : Value}

theorem Progress.readForm_cons {p : Progress} {token : Token} (h : accept limits opened token = .ok p)
    (tokens : List Token) : readForm limits opened (token :: tokens) = p.readOn limits tokens := by
  rw [readForm, h]
  cases p <;> rfl

/-- The closing bracket of a sequence concludes reading if what then closes the forms around it does. -/
theorem concluded_closer {bracket : Bracket} {reversed : List Value} {outer : List OpenForm}
    (h : Fitting limits (.sequence bracket reversed :: outer))
    (houter : ∀ w, Value.Describable limits (limits.nesting - outer.length + 1) w →
      Concluded ((Progress.settle outer w).readOn limits (closing outer))) :
    Concluded
      (readForm limits (.sequence bracket reversed :: outer) (closing (.sequence bracket reversed :: outer))) := by
  have hclose : Progress.accept limits (.sequence bracket reversed :: outer)
      (.single (.closer bracket) bracket.closing) =
        (Value.ofItems limits bracket reversed.reverse).map (Progress.settle outer) := by
    simp only [Progress.accept, Token.single, Progress.close, if_true]
    cases Value.ofItems limits bracket reversed.reverse <;> rfl
  cases hitems : Value.ofItems limits bracket reversed.reverse with
  | ok w =>
      rw [hitems] at hclose
      rw [closing, Progress.readForm_cons hclose]
      exact houter w (h.ofItems hitems)
  | error e =>
      -- the items can be described, so it is a fault of the literal and no limit that is in the way
      have hdescribed : ∀ item ∈ reversed.reverse, item.Describable limits limits.nesting := by
        cases h with
        | cons _ hheld _ =>
            exact fun item hitem => (hheld item (List.mem_reverse.mp hitem)).mono (Nat.sub_le _ _)
      obtain ⟨fault, rfl⟩ := Value.ofItems_error hitems hdescribed
      rw [hitems] at hclose
      rw [closing, readForm, hclose]
      obtain rfl | ⟨shown, rfl⟩ := Value.ofItems_fault hitems
      · exact .oddMap _
      · exact .badKey shown _

/-- What closes the open forms behind one more form concludes reading. -/
theorem concluded_closing (h : Fitting limits opened)
    (hv : v.Describable limits (limits.nesting - opened.length + 1)) :
    Concluded ((Progress.settle opened v).readOn limits (closing opened)) := by
  -- what is complete is put into the form around it, which can then be described with the room outside of it
  induction opened generalizing v with
  | nil => exact .form v []
  | cons form outer ih =>
      have hv' := hv
      rw [h.room] at hv'
      have houter : Fitting limits outer := by
        cases h with
        | cons _ _ houter => exact houter
      cases form with
      | sequence bracket reversed => exact concluded_closer (h.settle hv rfl) fun w hw => ih houter hw
      | shorthand name => exact ih houter (h.abbreviated (List.forall_mem_singleton.mpr hv'))
      | unnoted =>
          have hnil : Progress.accept limits (.noted v :: outer) ⟨.atom, "nil"⟩ =
              .ok (Progress.settle outer (.list [.symbol "with-meta", .nil, v])) := rfl
          have hnoted : ∀ w ∈ [Value.nil, v], w.Describable limits (limits.nesting - outer.length) := by
            refine List.forall_mem_cons.mpr ⟨?_, List.forall_mem_singleton.mpr hv'⟩
            rw [← h.room]
            exact ⟨_, rfl⟩
          rw [closing, Progress.settle, Progress.readOn, Progress.readForm_cons hnil]
          exact ih houter (h.abbreviated hnoted)
      | noted note =>
          have hheld : ∀ w ∈ [v, note], w.Describable limits (limits.nesting - outer.length) := by
            cases h with
            | cons _ hheld _ => exact List.forall_mem_cons.mpr ⟨hv', hheld⟩
          exact ih houter (h.abbreviated hheld)

/-- What completes open forms concludes reading. -/
theorem concluded_completion (h : Fitting limits opened) :
    Concluded (readForm limits opened (completion opened)) := by
  unfold completion
  split
  · next bracket reversed outer =>
      refine concluded_closer h fun w hw => concluded_closing ?_ hw
      cases h with
      | cons _ _ houter => exact houter
  · have hnil : Progress.accept limits opened ⟨.atom, "nil"⟩ = .ok (Progress.settle opened .nil) := rfl
    rw [Progress.readForm_cons hnil]
    exact concluded_closing h ⟨_, rfl⟩

/-- Closing a string inside open forms is no fault. -/
theorem readForm_strings {tokens : List Token} (hstrings : ∀ token ∈ tokens, token.kind = .string) :
    (∃ v rest, readForm limits opened tokens = .ok (v, rest)) ∨
      ∃ opened', readForm limits opened tokens = .error (.outOfTokens opened') := by
  induction tokens generalizing opened with
  | nil => exact .inr ⟨opened, rfl⟩
  | cons token tokens ih =>
      obtain ⟨hstring, hstrings⟩ := List.forall_mem_cons.mp hstrings
      have haccept : Progress.accept limits opened token =
          .ok (Progress.settle opened (.text (Text.ofStringLiteral token.text))) := by
        rw [Progress.accept, hstring]
      rw [Progress.readForm_cons haccept]
      cases Progress.settle opened (.text (Text.ofStringLiteral token.text)) with
      | complete v => exact .inl ⟨v, tokens, rfl⟩
      | within opened' => exact ih hstrings

/-- Whatever forms a text leaves open, some rest concludes reading. -/
theorem exists_concluded {source : String}
    (h : readForm limits [] (lex source).tokens = .error (.outOfTokens opened)) :
    ∃ tail, Concluded (readForm limits [] (lex (source ++ tail)).tokens) := by
  obtain ⟨tail, strings, hlex, hstrings⟩ := exists_closed source
  have htokens : readForm limits [] (lex (source ++ tail)).tokens = readForm limits opened strings := by
    rw [hlex, readForm_append, h]
  obtain ⟨v, rest, hread⟩ | ⟨opened', hread⟩ := @readForm_strings limits opened strings hstrings
  · refine ⟨tail, ?_⟩
    rw [htokens, hread]
    exact .form v rest
  · obtain ⟨more, hmore⟩ := exists_lex_completion opened'
    refine ⟨tail ++ "\n" ++ more, ?_⟩
    have hclosed : (lex (source ++ tail)).unclosed = false := by rw [hlex]
    have hfitting : Fitting limits opened' := (Fitting.nil.readForm h).readForm hread
    rw [← String.append_assoc, ← String.append_assoc, lex_newline hclosed, readForm_append, htokens, hread, hmore]
    exact concluded_completion hfitting

end

/-! ### The main statement -/

/-- **What has been read stays read.** A text in front of which a form stands gives this form whatever is written on
the lines behind, and a text without forms leaves it to these lines what is read. A text that is at fault stays at
fault in the same way, whatever is written behind it, unless its fault is only that it ends too early; then some rest
makes a form of it, or closes a map literal that is at fault. -/
theorem readFirst_append (limits : Limits) (source tail : String) :
    (∀ v, readFirst limits source = .ok (some v) → readFirst limits (source ++ "\n" ++ tail) = .ok (some v)) ∧
    (readFirst limits source = .ok none → readFirst limits (source ++ "\n" ++ tail) = readFirst limits tail) ∧
    (∀ fault, readFirst limits source = .error (.read fault) → fault.isIncomplete = false →
      readFirst limits (source ++ tail) = .error (.read fault)) ∧
    (∀ fault, readFirst limits source = .error (.read fault) → fault.isIncomplete = true →
      ∃ rest, (∃ v, readFirst limits (source ++ rest) = .ok (some v)) ∨
        ∃ fault', readFirst limits (source ++ rest) = .error (.read fault') ∧
          (fault' = .oddMap ∨ ∃ shown, fault' = .badKey shown)) := by
  refine ⟨fun v hread => ?_, fun hnone => ?_, fun fault hread hfault => ?_, fun fault hread hfault => ?_⟩
  · obtain ⟨rest, hread⟩ := exists_readForm_of_readFirst hread
    obtain ⟨more, hmore⟩ := lex_append_newline source tail
    refine readFirst_of_readForm ⟨rest ++ more, ?_⟩
    rw [hmore, readForm_append, hread]
  · obtain ⟨hempty, hclosed⟩ := readFirst_eq_none hnone
    have hlex := lex_newline hclosed tail
    rw [hempty, List.nil_append] at hlex
    rw [readFirst_eq, readFirst_eq, hlex]
  · obtain ⟨rest, hread⟩ := exists_scan_fault hread hfault
    obtain ⟨more, hmore⟩ := lex_append source tail
    refine readFirst_of_fault ⟨rest ++ more, ?_⟩
    rw [hmore, readForm_append, hread]
  · obtain ⟨opened, hread⟩ := exists_opened hread hfault
    obtain ⟨rest, hrest⟩ := exists_concluded hread
    refine ⟨rest, ?_⟩
    generalize hconcluded : readForm limits [] (lex (source ++ rest)).tokens = result at hrest
    cases hrest with
    | form v more => exact .inl ⟨v, readFirst_of_readForm ⟨more, hconcluded⟩⟩
    | oddMap more => exact .inr ⟨.oddMap, readFirst_of_fault ⟨more, hconcluded⟩, .inl rfl⟩
    | badKey shown more =>
        exact .inr ⟨.badKey shown, readFirst_of_fault ⟨more, hconcluded⟩, .inr ⟨shown, rfl⟩⟩

/-- A form in front of an open string, a comment, a fault and open forms, each with a text that goes on. -/
theorem readFirst_append_endings :
    readFirst {} ("[x] \"a" ++ "\n" ++ ")") = .ok (some (.vector [.symbol "x"])) ∧
    readFirst {} ("; ;" ++ "\n" ++ ")") = readFirst {} ")" ∧
    readFirst {} (")" ++ "~") = .error (.read (.strayCloser ")")) ∧
    ∃ rest, (∃ v, readFirst {} ("[(" ++ rest) = .ok (some v)) ∨
      ∃ fault, readFirst {} ("[(" ++ rest) = .error (.read fault) ∧
        (fault = .oddMap ∨ ∃ shown, fault = .badKey shown) := by
  refine ⟨?_, ?_, ?_, ?_⟩
  · exact (readFirst_append {} "[x] \"a" ")").1 _ (by rfl)
  · exact (readFirst_append {} "; ;" ")").2.1 (by rfl)
  · exact (readFirst_append {} ")" "~").2.2.1 _ (by rfl) rfl
  · exact (readFirst_append {} "[(" "").2.2.2 (.missingCloser .round) (by rfl) rfl

end SmallLisp
