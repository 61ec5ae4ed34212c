import Mathlib.Algebra.Group.Nat.Defs
import Mathlib.Data.List.Induction
import SmallLisp.Proofs.RoundTrip

/-! The grammar of forms. Which tokens are a form, and what value the form stands for, is said here without a
reader and without limits. The main statement says that the reader takes from a stream exactly the tokens of a
form, if the stream begins with one, and gives its value: every stack of open forms stands for the tokens that have
opened them, and the tokens of a form lead from any open forms to the point where its value is put into them. -/

namespace SmallLisp

/-! ### Forms -/

/-- The integer that a numeral denotes. -/
def Numeral.value (n : Numeral) : Int := if n.negative then -(n.magnitude : Int) else n.magnitude

/-- The value of an atom of any length. -/
def Value.ofAnyAtom (atom : String) : Value :=
  match Numeral.ofChars? atom.toList with
  | some numeral => .int numeral.value
  | none => .ofWord atom

/-- The signs that put the form behind them into a list, with the name in front of it there. -/
def abbreviations : List (String × String) :=
  [("'", "quote"), ("`", "quasiquote"), ("~", "unquote"), ("~@", "splice-unquote"), ("@", "deref")]

/-- The entries bind each key that is given, in the place where it is given first, to the value given last. -/
structure LastWins (pairs entries : List (String × Value)) : Prop where
  keys : entries.map Prod.fst = (pairs.map Prod.fst).eraseDups
  last : ∀ front key v back, pairs = front ++ (key, v) :: back → key ∉ back.map Prod.fst →
    Assoc.find? key entries = some v

/-- What the values between two brackets make up. Between curly ones there is always a text, which may be a
keyword, and a value for it. -/
inductive Gathers : Bracket → List Value → Value → Prop
  | list (items : List Value) : Gathers .round items (.list items)
  | vector (items : List Value) : Gathers .square items (.vector items)
  | map {pairs entries : List (String × Value)} :
      LastWins pairs entries → Gathers .curly (pairs.flatMap fun pair => [.text pair.1, pair.2]) (.map entries)

/-- The tokens are a form that stands for this value. -/
inductive Form : List Token → Value → Prop
  | string (text : String) : Form [⟨.string, text⟩] (.text (Text.ofStringLiteral text))
  | atom (word : String) : Form [⟨.atom, word⟩] (.ofAnyAtom word)
  | bracketed {bracket : Bracket} {pieces : List (List Token × Value)} {v : Value} (opening closing : String) :
      (∀ piece ∈ pieces, Form piece.1 piece.2) → Gathers bracket (pieces.map Prod.snd) v →
        Form (⟨.opener bracket, opening⟩ :: (pieces.flatMap Prod.fst ++ [⟨.closer bracket, closing⟩])) v
  | shorthand {sign name : String} {tokens : List Token} {v : Value} :
      (sign, name) ∈ abbreviations → Form tokens v →
        Form (⟨.shorthand, sign⟩ :: tokens) (.list [.symbol name, v])
  | noted {noteTokens tokens : List Token} {note v : Value} : Form noteTokens note → Form tokens v →
      Form (⟨.shorthand, "^"⟩ :: (noteTokens ++ tokens)) (.list [.symbol "with-meta", v, note])

/-- The tokens have opened these forms, and have come so far in each of them. -/
inductive Begun : List OpenForm → List Token → Prop
  | nil : Begun [] []
  | sequence {outer : List OpenForm} {tokens : List Token} {bracket : Bracket}
      {pieces : List (List Token × Value)} (opening : String) : Begun outer tokens →
        (∀ piece ∈ pieces, Form piece.1 piece.2) →
          Begun (.sequence bracket (pieces.map Prod.snd).reverse :: outer)
            (tokens ++ ⟨.opener bracket, opening⟩ :: pieces.flatMap Prod.fst)
  | shorthand {outer : List OpenForm} {tokens : List Token} {sign name : String} : Begun outer tokens →
      (sign, name) ∈ abbreviations → Begun (.shorthand name :: outer) (tokens ++ [⟨.shorthand, sign⟩])
  | unnoted {outer : List OpenForm} {tokens : List Token} : Begun outer tokens →
      Begun (.unnoted :: outer) (tokens ++ [⟨.shorthand, "^"⟩])
  | noted {outer : List OpenForm} {tokens noteTokens : List Token} {note : Value} : Begun outer tokens →
      Form noteTokens note → Begun (.noted note :: outer) (tokens ++ ⟨.shorthand, "^"⟩ :: noteTokens)

theorem Begun.length_le {opened : List OpenForm} {used : List Token} (h : Begun opened used) :
    opened.length ≤ used.length := by
  induction h with
  | nil => exact Nat.le_refl _
  | sequence | shorthand | unnoted | noted =>
      simp only [List.length_cons, List.length_append]
      omega

/-- Forms made of these tokens pass no limit: no beginning of the tokens leaves more forms open than may nest, and no
integer among them has more digits than an integer may have. -/
structure Limits.Allow (limits : Limits) (tokens : List Token) : Prop where
  nesting : ∀ opened used, Begun opened used → used <+: tokens → opened.length ≤ limits.nesting
  digits : ∀ word numeral, ⟨.atom, word⟩ ∈ tokens → Numeral.ofChars? word.toList = some numeral →
    numeral.digits.length ≤ limits.digits

namespace Limits.Allow

variable {limits : Limits} {tokens used : List Token} {opened : List OpenForm}

theorem of_isPrefix (h : limits.Allow tokens) (hwithin : used <+: tokens) : limits.Allow used where
  nesting opened front hfront hused := h.nesting opened front hfront (hused.trans hwithin)
  digits word numeral hword := h.digits word numeral (hwithin.subset hword)

theorem length_le (h : limits.Allow (used ++ tokens)) (hused : Begun opened used) :
    opened.length ≤ limits.nesting :=
  h.nesting opened used hused (List.prefix_append used tokens)

/-- No more forms can be open than there are tokens. -/
theorem of_length_le (hlength : tokens.length ≤ limits.nesting)
    (hdigits : ∀ word numeral, ⟨.atom, word⟩ ∈ tokens → Numeral.ofChars? word.toList = some numeral →
      numeral.digits.length ≤ limits.digits) : limits.Allow tokens where
  nesting _ _ hused hwithin := Nat.le_trans (Nat.le_trans hused.length_le hwithin.length_le) hlength
  digits := hdigits

/-- Whatever tokens there are, some limits allow them. -/
theorem exists_limits (tokens : List Token) : ∃ limits : Limits, limits.Allow tokens := by
  have hdigits : ∃ digits, ∀ word numeral, ⟨.atom, word⟩ ∈ tokens →
      Numeral.ofChars? word.toList = some numeral → numeral.digits.length ≤ digits := by
    induction tokens with
    | nil => exact ⟨0, nofun⟩
    | cons token tokens ih =>
        obtain ⟨digits, hrest⟩ := ih
        refine ⟨((Numeral.ofChars? token.text.toList).elim 0 (·.digits.length)) + digits, ?_⟩
        intro word numeral hword hnumeral
        rcases List.mem_cons.mp hword with rfl | hword
        · simp [hnumeral]
        · exact Nat.le_trans (hrest word numeral hword hnumeral) (Nat.le_add_left _ _)
  obtain ⟨digits, hdigits⟩ := hdigits
  exact ⟨{ nesting := tokens.length, digits }, of_length_le (Nat.le_refl _) hdigits⟩

end Limits.Allow

/-! ### Maps -/

theorem nodup_eraseDups (keys : List String) : keys.eraseDups.Nodup := by
  induction keys using List.reverseRecOn with
  | nil => exact List.nodup_nil
  | append_singleton keys key ih =>
      rw [List.eraseDups_append]
      by_cases hkey : key ∈ keys
      · simpa [List.removeAll, hkey] using ih
      · simpa [List.removeAll, hkey, List.nodup_append, List.eraseDups_cons] using
          ⟨ih, fun other hother h => hkey (h ▸ hother)⟩

namespace Assoc

variable {α : Type}

theorem keys_insert_eq (key : String) (value : α) (entries : List (String × α)) :
    (insert key value entries).map Prod.fst =
      if key ∈ entries.map Prod.fst then entries.map Prod.fst else entries.map Prod.fst ++ [key] := by
  induction entries with
  | nil => rfl
  | cons entry entries ih =>
      obtain ⟨k, v⟩ := entry
      by_cases hk : k = key
      · simp [insert, hk]
      · by_cases hkey : key ∈ entries.map Prod.fst <;> simp [insert, hk, Ne.symm hk, ih, hkey]

/-- Entries without a double key are known by their keys and by the value of each. -/
theorem ext {entries entries' : List (String × α)} (hkeys : entries.map Prod.fst = entries'.map Prod.fst)
    (hnodup : (entries.map Prod.fst).Nodup)
    (hvalues : ∀ key ∈ entries.map Prod.fst, find? key entries = find? key entries') : entries = entries' := by
  induction entries generalizing entries' with
  | nil => exact (List.map_eq_nil_iff.mp hkeys.symm).symm
  | cons entry entries ih =>
      obtain ⟨k, v⟩ := entry
      obtain ⟨⟨k', v'⟩, entries', rfl⟩ : ∃ entry' rest, entries' = entry' :: rest := by
        cases entries' with
        | nil => cases hkeys
        | cons entry' rest => exact ⟨entry', rest, rfl⟩
      obtain ⟨rfl, htail⟩ : k = k' ∧ entries.map Prod.fst = entries'.map Prod.fst := List.cons.inj hkeys
      obtain ⟨hfresh, hnodup⟩ := List.nodup_cons.mp hnodup
      have hv : v = v' := by simpa [find?] using hvalues k List.mem_cons_self
      have hrest : ∀ key ∈ entries.map Prod.fst, find? key entries = find? key entries' := by
        intro key hkey
        have hne : k ≠ key := fun h => hfresh (h ▸ hkey)
        simpa [find?, hne] using hvalues key (List.mem_cons_of_mem _ hkey)
      rw [hv, ih htail hnodup hrest]

end Assoc

namespace LastWins

theorem concat {pairs entries : List (String × Value)} (h : LastWins pairs entries) (key : String) (v : Value) :
    LastWins (pairs ++ [(key, v)]) (Assoc.insert key v entries) where
  keys := by
    rw [Assoc.keys_insert_eq, h.keys, List.map_append, List.eraseDups_append]
    by_cases hkey : key ∈ pairs.map Prod.fst <;> simp [List.removeAll, hkey, List.eraseDups_cons]
  last front other w back hpairs hback := by
    rw [Assoc.find?_insert]
    rcases List.eq_nil_or_concat back with rfl | ⟨back, pair, rfl⟩
    · obtain ⟨-, hpair⟩ := List.append_inj' hpairs rfl
      cases hpair
      rw [if_pos rfl]
    · have hsplit : pairs ++ [(key, v)] = (front ++ (other, w) :: back) ++ [pair] := by simpa using hpairs
      obtain ⟨rfl, hpair⟩ := List.append_inj' hsplit rfl
      cases hpair
      have hne : key ≠ other := by
        rintro rfl
        exact hback (by simp)
      rw [if_neg hne]
      exact h.last front other w back rfl fun hmem => hback (by simp [hmem])

/-- The map that binds pairs from left to right. -/
theorem ofPairs (pairs : List (String × Value)) : LastWins pairs (Assoc.ofPairs pairs) := by
  induction pairs using List.reverseRecOn with
  | nil => exact ⟨rfl, fun front _ _ _ h => by cases front <;> cases h⟩
  | append_singleton pairs pair ih =>
      have hconcat : Assoc.ofPairs (pairs ++ [pair]) = Assoc.insert pair.1 pair.2 (Assoc.ofPairs pairs) := by
        rw [Assoc.ofPairs, List.foldl_append]
        rfl
      rw [hconcat]
      exact ih.concat pair.1 pair.2

theorem unique {pairs entries entries' : List (String × Value)} (h : LastWins pairs entries)
    (h' : LastWins pairs entries') : entries = entries' := by
  refine Assoc.ext (h.keys.trans h'.keys.symm) (h.keys ▸ nodup_eraseDups _) fun key hkey => ?_
  rw [h.keys, List.mem_eraseDups] at hkey
  obtain ⟨front, v, back, hpairs, hback⟩ : ∃ front v back, pairs = front ++ (key, v) :: back ∧
      key ∉ back.map Prod.fst := by
    clear h h'
    induction pairs with
    | nil => cases hkey
    | cons pair pairs ih =>
        by_cases hlater : key ∈ pairs.map Prod.fst
        · obtain ⟨front, v, back, rfl, hback⟩ := ih hlater
          exact ⟨pair :: front, v, back, rfl, hback⟩
        · obtain rfl | hmem := List.mem_cons.mp hkey
          · exact ⟨[], pair.2, pairs, rfl, hlater⟩
          · exact absurd hmem hlater
  rw [h.last front key v back hpairs hback, h'.last front key v back hpairs hback]

end LastWins

theorem bind_eq_ok {ε α β : Type} {r : Except ε α} {f : α → Except ε β} {b : β} (h : r >>= f = .ok b) :
    ∃ a, r = .ok a ∧ f a = .ok b := by
  cases r with
  | error e => cases h
  | ok a => exact ⟨a, rfl, h⟩

theorem bind_eq_error {ε α β : Type} {r : Except ε α} {f : α → Except ε β} {e : ε} (h : r >>= f = .error e) :
    r = .error e ∨ ∃ a, r = .ok a ∧ f a = .error e := by
  cases r with
  | error e' =>
      cases h
      exact .inl rfl
  | ok a => exact .inr ⟨a, rfl, h⟩

theorem exists_bind_ok {ε α β : Type} {r : Except ε α} {f : α → Except ε β} (hr : ∃ a, r = .ok a)
    (hf : ∀ a, ∃ b, f a = .ok b) : ∃ b, r >>= f = .ok b := by
  obtain ⟨a, rfl⟩ := hr
  exact hf a

/-- A key of a map literal is a text, whatever the limits are. -/
theorem Value.literalKey_eq_ok {limits : Limits} {v : Value} {key : String} (h : v.literalKey limits = .ok key) :
    v = .text key := by
  cases v with
  | text s =>
      cases h
      rfl
  | _ =>
      obtain ⟨shown, _, h⟩ := bind_eq_ok h
      cases h

theorem Value.entries_of_literalKeys {limits : Limits} {pairs : List (Value × Value)}
    {entries : List (String × Value)}
    (h : (pairs.mapM fun (key, value) => return (← key.literalKey limits, value)) = Except.ok entries) :
    (pairs.flatMap fun pair => [pair.1, pair.2]) = entries.flatMap fun entry => [.text entry.1, entry.2] := by
  induction pairs generalizing entries with
  | nil =>
      cases h
      rfl
  | cons pair pairs ih =>
      rw [List.mapM_cons] at h
      obtain ⟨entry, hentry, h⟩ := bind_eq_ok h
      obtain ⟨rest, hrest, h⟩ := bind_eq_ok h
      obtain ⟨key, hkey, hentry⟩ := bind_eq_ok hentry
      cases hentry
      cases h
      rw [List.flatMap_cons, List.flatMap_cons, ih hrest, literalKey_eq_ok hkey]

/-- What stands between two brackets is taken as the value that it makes up, and nothing else is taken. -/
theorem Value.ofItems_eq_ok_iff {limits : Limits} {bracket : Bracket} {items : List Value} {v : Value} :
    ofItems limits bracket items = .ok v ↔ Gathers bracket items v := by
  constructor
  · intro h
    cases bracket with
    | round =>
        cases h
        exact .list items
    | square =>
        cases h
        exact .vector items
    | curly =>
        rw [ofItems, ofMapLiteral] at h
        cases hpairs : Assoc.pairUp? items with
        | none =>
            rw [hpairs] at h
            cases h
        | some pairs =>
            rw [hpairs] at h
            obtain ⟨entries, hentries, h⟩ := bind_eq_ok h
            cases h
            rw [Assoc.pairUp?_eq_some_iff.mp hpairs, entries_of_literalKeys hentries]
            exact .map (.ofPairs entries)
  · intro h
    cases h with
    | list | vector => rfl
    | @map pairs entries hlast => rw [ofItems_entries, hlast.unique (.ofPairs pairs)]

/-! ### Atoms -/

theorem Value.ofAtom_eq_ok {limits : Limits} {word : String} {v : Value} (h : ofAtom limits word = .ok v) :
    v = ofAnyAtom word := by
  unfold ofAtom at h
  unfold ofAnyAtom
  cases hnumeral : Numeral.ofChars? word.toList with
  | none =>
      rw [hnumeral] at h
      cases h
      rfl
  | some numeral =>
      rw [hnumeral] at h
      simp only [Numeral.toInt] at h
      split at h
      · cases h
        rfl
      · cases h

theorem Limits.Allow.ofAtom_eq {limits : Limits} {tokens : List Token} {word : String} (h : limits.Allow tokens)
    (hword : ⟨.atom, word⟩ ∈ tokens) : Value.ofAtom limits word = .ok (.ofAnyAtom word) := by
  unfold Value.ofAtom Value.ofAnyAtom
  cases hnumeral : Numeral.ofChars? word.toList with
  | none => rfl
  | some numeral =>
      simp only [Numeral.toInt, if_pos (h.digits word numeral hword hnumeral)]
      rfl

/-! ### From a form to its value -/

theorem OpenForm.ofShorthand?_abbreviation {sign name : String} (h : (sign, name) ∈ abbreviations) :
    ofShorthand? sign = some (.shorthand name) := by
  simp only [abbreviations, List.mem_cons, Prod.mk.injEq, List.not_mem_nil, or_false] at h
  rcases h with ⟨rfl, rfl⟩ | ⟨rfl, rfl⟩ | ⟨rfl, rfl⟩ | ⟨rfl, rfl⟩ | ⟨rfl, rfl⟩ <;> rfl

/-- What is in front of an item between two brackets has opened one form more. -/
theorem Begun.front_of_mem {opened : List OpenForm} {used : List Token} {bracket : Bracket}
    {pieces : List (List Token × Value)} {piece : List Token × Value} (h : Begun opened used) (opening : String)
    (hpieces : ∀ piece ∈ pieces, Form piece.1 piece.2) (hpiece : piece ∈ pieces) :
    ∃ reversed front, Begun (.sequence bracket reversed :: opened) front ∧
      front ++ piece.1 <+: used ++ ⟨.opener bracket, opening⟩ :: pieces.flatMap Prod.fst := by
  obtain ⟨before, behind, rfl⟩ := List.append_of_mem hpiece
  refine ⟨_, _, .sequence opening h (List.forall_mem_append.mp hpieces).1, ⟨behind.flatMap Prod.fst, ?_⟩⟩
  simp

/-- The tokens of a form lead from any open forms to the point where its value has been put into them. -/
theorem Form.leads {limits : Limits} {tokens used : List Token} {v : Value} {begun : List OpenForm}
    (h : Form tokens v) (hbegun : Begun begun used) (hallow : limits.Allow (used ++ tokens))
    (opened : List OpenForm) (hopened : opened.length ≤ begun.length) :
    Leads limits opened tokens (Progress.settle opened v) := by
  induction h generalizing begun used opened with
  | string text => exact .single rfl
  | atom word =>
      refine .single ?_
      rw [Progress.accept, hallow.ofAtom_eq (List.mem_append_right _ (List.mem_singleton_self _))]
      rfl
  | @bracketed bracket pieces v opening closing hpieces hgathers ih =>
      rw [← List.cons_append, ← List.append_assoc] at hallow
      have hroom := hallow.length_le (.sequence opening hbegun hpieces)
      refine .bracketed (Nat.lt_of_le_of_lt hopened hroom) (fun piece hpiece reversed => ?_)
        (Value.ofItems_eq_ok_iff.mpr hgathers)
      obtain ⟨_, front, hfront, hwithin⟩ := hbegun.front_of_mem opening hpieces hpiece
      exact ih piece hpiece hfront (hallow.of_isPrefix (hwithin.trans (List.prefix_append _ _))) _
        (Nat.succ_le_succ hopened)
  | @shorthand sign name tokens v hsign _ ih =>
      rw [List.append_cons] at hallow
      have hroom := hallow.length_le (.shorthand hbegun hsign)
      have henter : Progress.accept limits opened ⟨.shorthand, sign⟩ =
          .ok (.within (.shorthand name :: opened)) := by
        rw [Progress.accept, OpenForm.ofShorthand?_abbreviation hsign]
        exact if_pos (Nat.lt_of_le_of_lt hopened hroom)
      exact .cons henter (ih (.shorthand hbegun hsign) hallow _ (Nat.succ_le_succ hopened))
  | @noted noteTokens tokens note v hformnote _ ihnote ih =>
      have hnoteallow : limits.Allow ((used ++ [⟨.shorthand, "^"⟩]) ++ noteTokens) :=
        hallow.of_isPrefix ⟨tokens, by simp⟩
      have hformallow : limits.Allow ((used ++ ⟨.shorthand, "^"⟩ :: noteTokens) ++ tokens) := by simpa using hallow
      have hroom := hnoteallow.length_le (.unnoted hbegun)
      have henter : Progress.accept limits opened ⟨.shorthand, "^"⟩ = .ok (.within (.unnoted :: opened)) :=
        if_pos (Nat.lt_of_le_of_lt hopened hroom)
      have hnote := ihnote (.unnoted hbegun) hnoteallow (.unnoted :: opened) (Nat.succ_le_succ hopened)
      exact .cons henter (hnote.append (ih (.noted hbegun hformnote) hformallow _ (Nat.succ_le_succ hopened)))

/-! ### From open forms to the tokens that have opened them -/

/-- The tokens have brought reading so far. -/
def Progress.After : Progress → List Token → Prop
  | .complete v, tokens => Form tokens v
  | .within opened, tokens => Begun opened tokens

theorem OpenForm.ofShorthand?_eq_some {sign : String} {form : OpenForm} (h : ofShorthand? sign = some form) :
    (∃ name, (sign, name) ∈ abbreviations ∧ form = .shorthand name) ∨ (sign = "^" ∧ form = .unnoted) := by
  unfold ofShorthand? at h
  split at h <;> cases h
  all_goals first
    | exact .inr ⟨rfl, rfl⟩
    | exact .inl ⟨_, by decide, rfl⟩

namespace Begun

variable {limits : Limits} {opened : List OpenForm} {used tokens : List Token}

/-- One more form inside open forms. -/
theorem settle {v : Value} (h : Begun opened used) (hform : Form tokens v) :
    (Progress.settle opened v).After (used ++ tokens) := by
  induction h generalizing tokens v with
  | nil => exact hform
  | @sequence outer front bracket pieces opening houter hpieces =>
      have hmore := @Begun.sequence outer front bracket (pieces ++ [(tokens, v)]) opening houter
        (List.forall_mem_append.mpr ⟨hpieces, List.forall_mem_singleton.mpr hform⟩)
      simpa [Progress.settle, Progress.After] using hmore
  | shorthand _ hsign ih => simpa [Progress.settle] using ih (.shorthand hsign hform)
  | unnoted houter =>
      have hnoted := Begun.noted houter hform
      simpa [Progress.settle, Progress.After] using hnoted
  | noted _ hnote ih => simpa [Progress.settle] using ih (.noted hnote hform)

theorem enter {form : OpenForm} {p : Progress} {token : Token} (h : Begun (form :: opened) (used ++ [token]))
    (hp : Progress.enter limits opened form = .ok p) : p.After (used ++ [token]) := by
  unfold Progress.enter at hp
  split at hp
  · cases hp
    exact h
  · cases hp

/-- One more token inside open forms. -/
theorem accept {token : Token} {p : Progress} (h : Begun opened used)
    (hp : Progress.accept limits opened token = .ok p) : p.After (used ++ [token]) := by
  obtain ⟨kind, text⟩ := token
  unfold Progress.accept at hp
  cases kind with
  | opener bracket => exact enter (@Begun.sequence opened used bracket [] text h nofun) hp
  | closer bracket =>
      cases h with
      | @sequence outer front b pieces opening houter hpieces =>
          simp only [Progress.close] at hp
          split at hp
          · next hb =>
              subst hb
              obtain ⟨v, hv, hp⟩ := bind_eq_ok hp
              cases hp
              rw [List.reverse_reverse] at hv
              have hform := Form.bracketed opening text hpieces (Value.ofItems_eq_ok_iff.mp hv)
              simpa using settle houter hform
          · cases hp
      | nil | shorthand | unnoted | noted => cases hp
  | shorthand =>
      simp only at hp
      split at hp
      · next form hform =>
          obtain ⟨name, hsign, rfl⟩ | ⟨rfl, rfl⟩ := OpenForm.ofShorthand?_eq_some hform
          · exact enter (.shorthand h hsign) hp
          · exact enter (.unnoted h) hp
      · cases hp
  | string =>
      cases hp
      exact settle h (.string text)
  | atom =>
      obtain ⟨v, hv, hp⟩ := bind_eq_ok hp
      cases hp
      have hatom : Value.ofAtom limits text = .ok v := by
        cases hatom : Value.ofAtom limits text with
        | ok w =>
            rw [hatom] at hv
            cases hv
            rfl
        | error e =>
            rw [hatom] at hv
            cases hv
      rw [Value.ofAtom_eq_ok hatom]
      exact settle h (.atom text)
  | other kind => cases hp

/-- What is read from some point on completes the outermost form that is open there. -/
theorem readForm {v : Value} {rest : List Token} (h : Begun opened used)
    (hread : SmallLisp.readForm limits opened tokens = .ok (v, rest)) :
    ∃ more, tokens = more ++ rest ∧ Form (used ++ more) v := by
  induction tokens generalizing opened used with
  | nil => cases hread
  | cons token tokens ih =>
      rw [SmallLisp.readForm] at hread
      cases haccept : Progress.accept limits opened token with
      | error e =>
          rw [haccept] at hread
          cases hread
      | ok p =>
          rw [haccept] at hread
          have hp := h.accept haccept
          cases p with
          | complete w =>
              cases hread
              exact ⟨[token], rfl, hp⟩
          | within opened' =>
              obtain ⟨more, rfl, hform⟩ := ih hp hread
              exact ⟨token :: more, rfl, by simpa using hform⟩

end Begun

/-! ### Reading that fails -/

theorem digitValue?_lt {c : Char} {digit : Nat} (h : Text.digitValue? c = some digit) : digit < 10 := by
  obtain ⟨first, hfirst, rfl⟩ := Option.map_eq_some_iff.mp h
  have hrange := List.find?_some hfirst
  simp only [Bool.and_eq_true, decide_eq_true_eq] at hrange
  omega

theorem Numeral.digits?_lt {cs : List Char} {digits : List Nat} (h : digits? cs = some digits) :
    ∀ digit ∈ digits, digit < 10 := by
  have hmapM : ∀ (cs : List Char) (digits : List Nat), cs.mapM Text.digitValue? = some digits →
      ∀ digit ∈ digits, digit < 10 := by
    intro cs
    induction cs with
    | nil =>
        intro digits h
        cases h
        exact nofun
    | cons c cs ih =>
        intro digits h
        rw [List.mapM_cons] at h
        obtain ⟨digit, hdigit, h⟩ := Option.bind_eq_some_iff.mp h
        obtain ⟨rest, hrest, h⟩ := Option.bind_eq_some_iff.mp h
        cases h
        exact List.forall_mem_cons.mpr ⟨digitValue?_lt hdigit, ih rest hrest⟩
  unfold digits? at h
  split at h
  · cases h
  · exact hmapM cs digits h

theorem Numeral.magnitude_lt {cs : List Char} {n : Numeral} (h : ofChars? cs = some n) :
    n.magnitude < 10 ^ n.digits.length := by
  have hdigits : ∀ digit ∈ n.digits, digit < 10 := by
    unfold ofChars? at h
    split at h <;> obtain ⟨digits, hdigits, rfl⟩ := Option.map_eq_some_iff.mp h <;> exact digits?_lt hdigits
  have hfold : ∀ (digits : List Nat) (acc : Nat), (∀ digit ∈ digits, digit < 10) →
      digits.foldl (fun acc digit => acc * 10 + digit) acc < (acc + 1) * 10 ^ digits.length := by
    intro digits
    induction digits with
    | nil => exact fun acc _ => by simp
    | cons digit digits ih =>
        intro acc h
        obtain ⟨hdigit, hrest⟩ := List.forall_mem_cons.mp h
        calc (digit :: digits).foldl (fun acc digit => acc * 10 + digit) acc
            < (acc * 10 + digit + 1) * 10 ^ digits.length := ih _ hrest
          _ ≤ ((acc + 1) * 10) * 10 ^ digits.length := Nat.mul_le_mul_right _ (by omega)
          _ = (acc + 1) * 10 ^ (digit :: digits).length := by rw [List.length_cons, Nat.pow_succ', Nat.mul_assoc]
  simpa [magnitude] using hfold n.digits 0 hdigits

theorem exists_mapM_ok {ε α γ : Type} {f : γ → Except ε α} {cs : List γ} (h : ∀ c ∈ cs, ∃ a, f c = .ok a) :
    ∃ as, cs.mapM f = .ok as := by
  induction cs with
  | nil => exact ⟨[], rfl⟩
  | cons c cs ih =>
      obtain ⟨a, ha⟩ := h c List.mem_cons_self
      obtain ⟨as, has⟩ := ih fun d hd => h d (List.mem_cons_of_mem _ hd)
      refine ⟨a :: as, ?_⟩
      rw [List.mapM_cons, ha, has]
      rfl

theorem ok_of_mapM {ε α γ : Type} {f : γ → Except ε α} {cs : List γ} {as : List α} (h : cs.mapM f = .ok as) :
    ∀ c ∈ cs, ∃ a, f c = .ok a := by
  induction cs generalizing as with
  | nil => exact nofun
  | cons c cs ih =>
      rw [List.mapM_cons] at h
      obtain ⟨a, ha, h⟩ := bind_eq_ok h
      obtain ⟨as, has, -⟩ := bind_eq_ok h
      exact List.forall_mem_cons.mpr ⟨⟨a, ha⟩, ih has⟩

theorem exists_mapM_error {ε α γ : Type} {f : γ → Except ε α} {cs : List γ} {e : ε} (h : cs.mapM f = .error e) :
    ∃ c ∈ cs, f c = .error e := by
  induction cs with
  | nil => cases h
  | cons c cs ih =>
      rw [List.mapM_cons] at h
      obtain hc | ⟨a, -, h⟩ := bind_eq_error h
      · exact ⟨c, List.mem_cons_self, hc⟩
      · obtain hcs | ⟨as, -, h⟩ := bind_eq_error h
        · obtain ⟨d, hd, hfd⟩ := ih hcs
          exact ⟨d, List.mem_cons_of_mem _ hd, hfd⟩
        · cases h

theorem Gathers.described {limits : Limits} {room : Nat} {bracket : Bracket} {items : List Value} {v : Value}
    (h : Gathers bracket items v)
    (hitems : ∀ item ∈ items, ∃ shown, item.describeWithin limits room = .ok shown) :
    ∃ shown, v.describeWithin limits (room + 1) = .ok shown := by
  cases h with
  | list | vector => exact exists_bind_ok (exists_mapM_ok hitems) fun _ => ⟨_, rfl⟩
  | @map pairs entries hlast =>
      have hentries : ∀ entry ∈ entries, ∃ shown, entry.2.describeWithin limits room = .ok shown := by
        intro entry hentry
        rw [hlast.unique (.ofPairs pairs)] at hentry
        exact hitems entry.2 (List.mem_flatMap.mpr ⟨entry, Assoc.mem_ofPairs hentry, by simp⟩)
      refine exists_bind_ok (exists_mapM_ok fun entry hentry => ?_) fun _ => ⟨_, rfl⟩
      exact exists_bind_ok (hentries entry hentry) fun _ => ⟨_, rfl⟩

/-- The value of an atom can be described if it is no integer with too many digits. -/
theorem Value.described_ofAnyAtom {limits : Limits} {word : String} (room : Nat)
    (h : ∀ numeral, Numeral.ofChars? word.toList = some numeral → numeral.digits.length ≤ limits.digits) :
    ∃ shown, (ofAnyAtom word).describeWithin limits (room + 1) = .ok shown := by
  unfold ofAnyAtom
  split
  · next numeral hnumeral =>
      have hlt : numeral.value.natAbs < Nat.pow 10 limits.digits := by
        have hvalue : numeral.value.natAbs = numeral.magnitude := by
          unfold Numeral.value
          split <;> omega
        rw [hvalue]
        exact Nat.lt_of_lt_of_le (Numeral.magnitude_lt hnumeral) (Nat.pow_le_pow_right (by decide) (h numeral hnumeral))
      exact ⟨_, if_pos hlt⟩
  · unfold ofWord
    repeat' split
    all_goals exact ⟨_, rfl⟩

/-- The value of a form can be described in the room that the forms around it leave, and one level more. -/
theorem Form.described {limits : Limits} {tokens used : List Token} {v : Value} {begun : List OpenForm}
    (h : Form tokens v) (hbegun : Begun begun used) (hallow : limits.Allow (used ++ tokens)) {room : Nat}
    (hroom : limits.nesting < begun.length + room) : ∃ shown, v.describeWithin limits room = .ok shown := by
  induction h generalizing begun used room with
  | string text =>
      have hbound := hallow.length_le hbegun
      obtain ⟨room, rfl⟩ : ∃ room', room = room' + 1 := ⟨room - 1, by omega⟩
      exact ⟨_, rfl⟩
  | atom word =>
      have hbound := hallow.length_le hbegun
      obtain ⟨room, rfl⟩ : ∃ room', room = room' + 1 := ⟨room - 1, by omega⟩
      exact Value.described_ofAnyAtom room fun numeral =>
        hallow.digits word numeral (List.mem_append_right _ (List.mem_singleton_self _))
  | @bracketed bracket pieces v opening closing hpieces hgathers ih =>
      have hbound := hallow.length_le hbegun
      rw [← List.cons_append, ← List.append_assoc] at hallow
      obtain ⟨room, rfl⟩ : ∃ room', room = room' + 1 := ⟨room - 1, by omega⟩
      refine hgathers.described fun item hitem => ?_
      obtain ⟨piece, hpiece, rfl⟩ := List.mem_map.mp hitem
      obtain ⟨_, front, hfront, hwithin⟩ := hbegun.front_of_mem opening hpieces hpiece
      refine ih piece hpiece hfront (hallow.of_isPrefix (hwithin.trans (List.prefix_append _ _))) ?_
      rw [List.length_cons]
      omega
  | @shorthand sign name tokens v hsign _ ih =>
      rw [List.append_cons] at hallow
      have hbound := hallow.length_le (.shorthand hbegun hsign)
      rw [List.length_cons] at hbound
      obtain ⟨room, rfl⟩ : ∃ room', room = room' + 1 + 1 := ⟨room - 2, by omega⟩
      have hv := @ih _ _ (.shorthand hbegun hsign) hallow (room + 1) (by rw [List.length_cons]; omega)
      refine (Gathers.list _).described (List.forall_mem_cons.mpr ⟨⟨_, rfl⟩, ?_⟩)
      exact List.forall_mem_singleton.mpr hv
  | @noted noteTokens tokens note v hformnote _ ihnote ih =>
      have hnoteallow : limits.Allow ((used ++ [⟨.shorthand, "^"⟩]) ++ noteTokens) :=
        hallow.of_isPrefix ⟨tokens, by simp⟩
      have hformallow : limits.Allow ((used ++ ⟨.shorthand, "^"⟩ :: noteTokens) ++ tokens) := by simpa using hallow
      have hbound := hnoteallow.length_le (.unnoted hbegun)
      rw [List.length_cons] at hbound
      obtain ⟨room, rfl⟩ : ∃ room', room = room' + 1 + 1 := ⟨room - 2, by omega⟩
      have hnote := @ihnote _ _ (.unnoted hbegun) hnoteallow (room + 1) (by rw [List.length_cons]; omega)
      have hv := @ih _ _ (.noted hbegun hformnote) hformallow (room + 1) (by rw [List.length_cons]; omega)
      refine (Gathers.list _).described (List.forall_mem_cons.mpr ⟨⟨_, rfl⟩, ?_⟩)
      exact List.forall_mem_cons.mpr ⟨hv, List.forall_mem_singleton.mpr hnote⟩

theorem Value.literalKey_error {limits : Limits} {v : Value} {e : Error} (h : v.literalKey limits = .error e)
    (hv : ∃ shown, v.describe limits = .ok shown) : ∃ fault, e = .read fault := by
  obtain ⟨shown, hshown⟩ := hv
  cases v with
  | text s => cases h
  | _ =>
      simp only [literalKey, hshown, withinLimits] at h
      cases h
      exact ⟨_, rfl⟩

/-- Between two brackets only the text can be at fault, if its values can be described. -/
theorem Value.ofItems_error {limits : Limits} {bracket : Bracket} {items : List Value} {e : Error}
    (h : ofItems limits bracket items = .error e)
    (hitems : ∀ item ∈ items, ∃ shown, item.describe limits = .ok shown) : ∃ fault, e = .read fault := by
  cases bracket with
  | round | square => cases h
  | curly =>
      rw [ofItems, ofMapLiteral] at h
      cases hpairs : Assoc.pairUp? items with
      | none =>
          rw [hpairs] at h
          cases h
          exact ⟨_, rfl⟩
      | some pairs =>
          rw [hpairs] at h
          obtain hentries | ⟨entries, -, h⟩ := bind_eq_error h
          · obtain ⟨pair, hpair, hentry⟩ := exists_mapM_error hentries
            obtain hkey | ⟨key, -, hentry⟩ := bind_eq_error hentry
            · exact literalKey_error hkey (hitems _ (Assoc.mem_pairUp? hpairs pair hpair).1)
            · cases hentry
          · cases h

namespace Begun

variable {limits : Limits} {opened : List OpenForm} {used tokens : List Token}

theorem enter_eq {form : OpenForm} (h : Begun (form :: opened) used) (hallow : limits.Allow used) :
    Progress.enter limits opened form = .ok (.within (form :: opened)) :=
  if_pos (hallow.nesting _ _ h (List.prefix_refl used))

/-- As long as the limits allow the tokens, only the text can be at fault. -/
theorem accept_error {token : Token} {e : Error} (h : Begun opened used) (hallow : limits.Allow (used ++ [token]))
    (he : Progress.accept limits opened token = .error e) : ∃ fault, e = .read fault := by
  obtain ⟨kind, text⟩ := token
  unfold Progress.accept at he
  cases kind with
  | opener bracket =>
      have hopen : Begun (.sequence bracket [] :: opened) (used ++ [⟨.opener bracket, text⟩]) :=
        @Begun.sequence opened used bracket [] text h nofun
      simp only [hopen.enter_eq hallow] at he
      cases he
  | closer bracket =>
      cases h with
      | @sequence outer front b pieces opening houter hpieces =>
          simp only [Progress.close, List.reverse_reverse] at he
          split at he
          · obtain hitems | ⟨v, -, he⟩ := bind_eq_error he
            · refine Value.ofItems_error hitems fun item hitem => ?_
              obtain ⟨piece, hpiece, rfl⟩ := List.mem_map.mp hitem
              obtain ⟨_, before, hbefore, hwithin⟩ := houter.front_of_mem opening hpieces hpiece
              refine (hpieces piece hpiece).described hbefore
                (hallow.of_isPrefix (hwithin.trans (List.prefix_append _ _))) ?_
              rw [List.length_cons]
              omega
            · cases he
          · cases he
            exact ⟨_, rfl⟩
      | nil | shorthand | unnoted | noted =>
          cases he
          exact ⟨_, rfl⟩
  | shorthand =>
      simp only at he
      split at he
      · next form hform =>
          obtain ⟨name, hsign, rfl⟩ | ⟨rfl, rfl⟩ := OpenForm.ofShorthand?_eq_some hform
          · rw [enter_eq (.shorthand h hsign) hallow] at he
            cases he
          · rw [enter_eq (.unnoted h) hallow] at he
            cases he
      · cases he
        exact ⟨_, rfl⟩
  | string => cases he
  | atom =>
      simp only [hallow.ofAtom_eq (List.mem_append_right _ (List.mem_singleton_self _))] at he
      cases he
  | other kind =>
      cases he
      exact ⟨_, rfl⟩

/-- Reading comes to a halt because of the text and not because of a limit. -/
theorem readForm_fault {e : Error} {rest : List Token} (h : Begun opened used)
    (hallow : limits.Allow (used ++ tokens))
    (hread : SmallLisp.readForm limits opened tokens = .error (.fault e rest)) : ∃ fault, e = .read fault := by
  induction tokens generalizing opened used with
  | nil => cases hread
  | cons token tokens ih =>
      rw [List.append_cons] at hallow
      rw [SmallLisp.readForm] at hread
      cases haccept : Progress.accept limits opened token with
      | error e' =>
          rw [haccept] at hread
          cases hread
          exact h.accept_error (hallow.of_isPrefix (List.prefix_append _ _)) haccept
      | ok p =>
          rw [haccept] at hread
          have hp := h.accept haccept
          cases p with
          | complete v => cases hread
          | within opened' => exact ih hp hallow hread

end Begun

/-! ### The main statement -/

namespace TokenStream

variable {limits : Limits} {s : TokenStream}

theorem form_sound {s' : TokenStream} {v : Value} (h : s.form limits = (.ok v, s')) :
    ∃ used rest, s.unread = used ++ rest ∧ Form used v ∧ s' = s.restart rest := by
  rw [form, resume] at h
  cases hread : readForm limits [] s.unread with
  | ok result =>
      obtain ⟨w, rest⟩ := result
      rw [hread] at h
      cases h
      obtain ⟨used, hused, hform⟩ := Begun.nil.readForm hread
      exact ⟨used, rest, hused, hform, rfl⟩
  | error halt =>
      rw [hread] at h
      cases halt <;> cases h

theorem form_complete {used rest : List Token} {v : Value} (hs : s.unread = used ++ rest) (hform : Form used v)
    (hallow : limits.Allow used) : s.form limits = (.ok v, s.restart rest) := by
  have hleads := hform.leads .nil hallow [] (Nat.le_refl _)
  rw [form, resume, hs, hleads.readForm_eq]

theorem form_error {s' : TokenStream} {e : Error} (hallow : limits.Allow s.unread)
    (h : s.form limits = (.error e, s')) : s.fault = some e ∨ ∃ fault, e = .read fault := by
  rw [form, resume] at h
  cases hread : readForm limits [] s.unread with
  | ok result =>
      rw [hread] at h
      cases h
  | error halt =>
      rw [hread] at h
      cases halt with
      | fault e' rest =>
          cases h
          exact .inr (Begun.nil.readForm_fault hallow hread)
      | outOfTokens opened =>
          cases hfault : s.fault with
          | some e' =>
              rw [hfault] at h
              cases h
              exact .inl rfl
          | none =>
              rw [hfault] at h
              cases h
              exact .inr ⟨_, rfl⟩

end TokenStream

/-- No two beginnings of some tokens are forms. -/
theorem Form.unique {tokens used used' rest rest' : List Token} {v v' : Value} (h : tokens = used ++ rest)
    (h' : tokens = used' ++ rest') (hform : Form used v) (hform' : Form used' v') : v = v' ∧ rest = rest' := by
  obtain ⟨limits, hallow⟩ := Limits.Allow.exists_limits tokens
  have hread := TokenStream.form_complete (s := .ofTokens tokens) h hform
    (hallow.of_isPrefix (h ▸ List.prefix_append _ _))
  rw [TokenStream.form_complete (s := .ofTokens tokens) h' hform'
    (hallow.of_isPrefix (h' ▸ List.prefix_append _ _))] at hread
  obtain ⟨hv, hrest⟩ := Prod.mk.inj hread
  have hunread := congrArg TokenStream.unread hrest
  rw [TokenStream.unread_restart, TokenStream.unread_restart] at hunread
  exact ⟨(Except.ok.inj hv).symm, hunread.symm⟩

/-- **The reader accepts exactly its grammar.** Whatever the limits are, a value that is read from a stream stands
for a form, and the tokens of the form are what reading has taken. If the stream begins with a form, then under
limits that allow its tokens the value of the form is read, and what is behind the form is left. No stream begins
with more than one form. And if it begins with none, reading fails: with the fault that is behind the tokens, or
because of them, unless a limit is in the way. -/
theorem TokenStream.form_grammar (limits : Limits) (s : TokenStream) :
    (∀ v s', s.form limits = (.ok v, s') →
      ∃ used rest, s.unread = used ++ rest ∧ Form used v ∧ s' = s.restart rest) ∧
    (∀ used rest v, s.unread = used ++ rest → Form used v → limits.Allow used →
      s.form limits = (.ok v, s.restart rest)) ∧
    (∀ used rest v used' rest' v', s.unread = used ++ rest → s.unread = used' ++ rest' →
      Form used v → Form used' v' → v = v' ∧ rest = rest') ∧
    ((∀ used rest v, s.unread = used ++ rest → ¬Form used v) →
      ∃ e s', s.form limits = (.error e, s') ∧
        (limits.Allow s.unread → s.fault = some e ∨ ∃ fault, e = .read fault)) := by
  refine ⟨fun v s' h => form_sound h, fun used rest v hs hform hallow => form_complete hs hform hallow,
    fun used rest v used' rest' v' hs hs' hform hform' => hform.unique hs hs' hform', fun hnone => ?_⟩
  cases hform : s.form limits with
  | mk result s' =>
      cases result with
      | ok v =>
          obtain ⟨used, rest, hs, hv, -⟩ := form_sound hform
          exact absurd hv (hnone used rest v hs)
      | error e => exact ⟨e, s', rfl, fun hallow => form_error hallow hform⟩

/-- A repeated key keeps its first place and its last value, a note comes behind the form that it belongs to, and
what is behind the form is left; a bracket that nothing has opened is at fault. -/
theorem TokenStream.form_grammar_notedMap :
    (∃ used rest, (ofSource "^\x7b:a 1 \"b\" 2 :a 3\x7d 'x y").unread = used ++ rest ∧
      Form used (.list [.symbol "with-meta", .list [.symbol "quote", .symbol "x"],
        .map [(keywordOf "a", .int 3), ("b", .int 2)]]) ∧ rest = [⟨.atom, "y"⟩]) ∧
    (ofSource "'x").form {} = (.ok (.list [.symbol "quote", .symbol "x"]), ended) ∧
    ∃ e s', (ofSource ") x").form {} = (.error e, s') ∧ (none = some e ∨ ∃ fault, e = .read fault) := by
  refine ⟨?_, ?_, ?_⟩
  · obtain ⟨used, rest, hs, hform, hrest⟩ :=
      (form_grammar {} (ofSource "^\x7b:a 1 \"b\" 2 :a 3\x7d 'x y")).1 _ ⟨[], [⟨.atom, "y"⟩], none⟩ rfl
    have hunread := congrArg TokenStream.unread hrest
    rw [unread_restart] at hunread
    exact ⟨used, rest, hs, hform, hunread.symm⟩
  · have hform : Form [⟨.shorthand, "'"⟩, ⟨.atom, "x"⟩] (.list [.symbol "quote", .symbol "x"]) :=
      .shorthand (by decide) (.atom "x")
    have hallow : Limits.Allow {} [⟨.shorthand, "'"⟩, ⟨.atom, "x"⟩] := by
      refine .of_length_le (by decide) fun word numeral hword hnumeral => ?_
      simp only [List.mem_cons, Token.mk.injEq, List.not_mem_nil, or_false] at hword
      obtain ⟨h, -⟩ | ⟨-, rfl⟩ := hword
      · cases h
      · cases hnumeral
    exact (form_grammar {} (ofSource "'x")).2.1 _ [] _ rfl hform hallow
  · have hallow : Limits.Allow {} (ofSource ") x").unread := by
      refine .of_length_le (by decide) fun word numeral hword hnumeral => ?_
      have hunread : (ofSource ") x").unread = [⟨.closer .round, ")"⟩, ⟨.atom, "x"⟩] := rfl
      rw [hunread] at hword
      simp only [List.mem_cons, Token.mk.injEq, List.not_mem_nil, or_false] at hword
      obtain ⟨h, -⟩ | ⟨-, rfl⟩ := hword
      · cases h
      · cases hnumeral
    have hnone : ∀ used rest v, (ofSource ") x").unread = used ++ rest → ¬Form used v := by
      intro used rest v hs hform
      have hread := form_complete hs hform (hallow.of_isPrefix (hs ▸ List.prefix_append used rest))
      cases hread
    obtain ⟨e, s', hread, herror⟩ := (form_grammar {} (ofSource ") x")).2.2.2 hnone
    exact ⟨e, s', hread, herror hallow⟩

end SmallLisp
