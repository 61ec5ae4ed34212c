import SmallLisp.Proofs.Extending
import SmallLisp.Proofs.Layout
import SmallLisp.Proofs.Shape

/-! Printing what was read, and reading it again. A form that is read is made of parts that can be read back, but for
its texts: a string that starts with the mark of keywords is taken for a keyword and printed without its quotes, and a
keyword of a keyword's name loses one of its marks. The first such text in front of which no map stands gives some
other text in its place, and whatever follows, no reader comes back to it. -/

namespace SmallLisp

/-! ### Values that are read -/

namespace Value

/-- A value such as is read from text. Its symbols are atoms that are read as symbols, its integers have no more
digits than the limit, and no map binds a key twice. Its texts may be any. -/
inductive Legible (limits : Limits) : Value → Prop
  | nil : Legible limits .nil
  | bool (b : Bool) : Legible limits (.bool b)
  | int {n : Int} : (Nat.toDigits 10 n.natAbs).length ≤ limits.digits → Legible limits (.int n)
  | symbol {name : String} : name.toList ≠ [] → (∀ c ∈ name.toList, isAtomChar c = true) →
      ofAtom limits name = .ok (.symbol name) → Legible limits (.symbol name)
  | text (s : String) : Legible limits (.text s)
  | list {items : List Value} : (∀ v ∈ items, Legible limits v) → Legible limits (.list items)
  | vector {items : List Value} : (∀ v ∈ items, Legible limits v) → Legible limits (.vector items)
  | map {entries : List (String × Value)} : (entries.map Prod.fst).Nodup →
      (∀ entry ∈ entries, Legible limits entry.2) → Legible limits (.map entries)

/-- Every text in a value that is read, a key or not, has a property. -/
inductive Texts (P : String → Prop) : Value → Prop
  | nil : Texts P .nil
  | bool (b : Bool) : Texts P (.bool b)
  | int (n : Int) : Texts P (.int n)
  | symbol (name : String) : Texts P (.symbol name)
  | text {s : String} : P s → Texts P (.text s)
  | list {items : List Value} : (∀ v ∈ items, Texts P v) → Texts P (.list items)
  | vector {items : List Value} : (∀ v ∈ items, Texts P v) → Texts P (.vector items)
  | map {entries : List (String × Value)} : (∀ entry ∈ entries, P entry.1) →
      (∀ entry ∈ entries, Texts P entry.2) → Texts P (.map entries)

variable {limits : Limits} {room : Nat} {v : Value}

theorem Legible.readable (h : v.Legible limits) (htexts : v.Texts ReadableText) (hnests : v.NestsWithin room) :
    v.Readable limits room := by
  induction h generalizing room with
  | nil | bool | int hdigits | symbol hne hname hatom | text =>
      obtain _ | room := room
      · exact hnests.elim
      cases htexts
      constructor <;> assumption
  | list _ ih =>
      obtain _ | room := room
      · exact hnests.elim
      cases htexts with
      | list htexts => exact .list fun v hv => ih v hv (htexts v hv) (hnests v hv)
  | vector _ ih =>
      obtain _ | room := room
      · exact hnests.elim
      cases htexts with
      | vector htexts => exact .vector fun v hv => ih v hv (htexts v hv) (hnests v hv)
  | map hnodup _ ih =>
      obtain _ | room := room
      · exact hnests.elim
      cases htexts with
      | map hkeys htexts =>
          exact .map hkeys (fun entry hentry => ih entry hentry (htexts entry hentry) (hnests entry hentry)) hnodup

end Value

theorem Numeral.digits_ne_nil {cs : List Char} {n : Numeral} (h : ofChars? cs = some n) : n.digits ≠ [] := by
  have hmapM : ∀ {cs digits}, digits? cs = some digits → digits ≠ [] := by
    intro cs digits h
    cases cs with
    | nil => cases h
    | cons c cs =>
        rw [digits?, if_neg (by simp), List.mapM_cons] at h
        obtain ⟨digit, -, h⟩ := Option.bind_eq_some_iff.mp h
        obtain ⟨digits, -, h⟩ := Option.bind_eq_some_iff.mp h
        cases h
        exact List.cons_ne_nil _ _
  unfold ofChars? at h
  split at h <;> obtain ⟨digits, hdigits, rfl⟩ := Option.map_eq_some_iff.mp h <;> exact hmapM hdigits

namespace Value

variable {limits : Limits} {room : Nat} {v : Value}

/-- An integer has no more digits than were written of it. -/
theorem Legible.ofAtom {word : String} (hne : word.toList ≠ []) (hword : ∀ c ∈ word.toList, isAtomChar c = true)
    (h : Value.ofAtom limits word = .ok v) : v.Legible limits := by
  have hatom := h
  unfold Value.ofAtom at h
  split at h
  · next numeral hnumeral =>
      obtain ⟨n, hn, h⟩ := bind_eq_ok h
      cases h
      unfold Numeral.toInt at hn
      split at hn
      · next hdigits =>
          have hpos : 0 < numeral.digits.length := List.length_pos_iff.mpr (Numeral.digits_ne_nil hnumeral)
          have hlt := Numeral.magnitude_lt hnumeral
          have habs : n.natAbs = numeral.magnitude := by
            cases hn
            split <;> omega
          refine .int (Nat.le_trans ?_ hdigits)
          rw [habs]
          exact (Nat.length_toDigits_le_iff (by decide) hpos).mpr hlt
      · cases hn
  · cases h
    revert hatom
    unfold ofWord
    split
    · exact fun _ => .nil
    · exact fun _ => .bool _
    · exact fun _ => .bool _
    · split
      · exact fun _ => .text _
      · exact .symbol hne hword

end Value

/-- The characters of an atom in source text. -/
theorem atom_of_lex {source word : String} (h : ⟨.atom, word⟩ ∈ (lex source).tokens) :
    word.toList ≠ [] ∧ ∀ c ∈ word.toList, isAtomChar c = true := by
  obtain ⟨rest, hfits⟩ := exists_fits_of_lex h
  cases hfits with
  | atom hne hword _ => simpa using ⟨hne, hword⟩

/-- Each atom that reading has taken stands for a value within the limits. -/
theorem ofAtom_of_readForm {limits : Limits} {opened : List OpenForm} {used rest : List Token} {v : Value}
    (h : readForm limits opened (used ++ rest) = .ok (v, rest)) {word : String} (hword : ⟨.atom, word⟩ ∈ used) :
    ∃ w, Value.ofAtom limits word = .ok w := by
  induction used generalizing opened with
  | nil => cases hword
  | cons token used ih =>
      rw [List.cons_append, readForm] at h
      cases haccept : Progress.accept limits opened token with
      | error e =>
          rw [haccept] at h
          cases h
      | ok p =>
          rw [haccept] at h
          rcases List.mem_cons.mp hword with rfl | hword
          · obtain ⟨w, hw, -⟩ := bind_eq_ok haccept
            cases hatom : Value.ofAtom limits word with
            | ok w => exact ⟨w, rfl⟩
            | error limit =>
                rw [hatom] at hw
                cases hw
          · cases p with
            | within opened' => exact ih h hword
            | complete w =>
                have hrest : used ++ rest = rest := congrArg Prod.snd (Except.ok.inj h)
                have hnil : used = [] := by simpa using hrest
                rw [hnil] at hword
                cases hword

/-- The value of a form is legible if its atoms are atoms and stand for values within the limits. -/
theorem Form.legible {limits : Limits} {tokens : List Token} {v : Value} (h : Form tokens v)
    (hatoms : ∀ word, ⟨.atom, word⟩ ∈ tokens → word.toList ≠ [] ∧ (∀ c ∈ word.toList, isAtomChar c = true) ∧
      ∃ w, Value.ofAtom limits word = .ok w) : v.Legible limits := by
  have hname : ∀ sign name, (sign, name) ∈ ("^", "with-meta") :: abbreviations →
      (Value.symbol name).Legible limits := by
    intro sign name h
    simp only [abbreviations, List.mem_cons, Prod.mk.injEq, List.not_mem_nil, or_false] at h
    rcases h with ⟨-, rfl⟩ | ⟨-, rfl⟩ | ⟨-, rfl⟩ | ⟨-, rfl⟩ | ⟨-, rfl⟩ | ⟨-, rfl⟩
    all_goals exact .symbol (by decide) (List.all_eq_true.mp (by decide)) rfl
  induction h with
  | string text => exact .text _
  | atom word =>
      obtain ⟨hne, hword, w, hw⟩ := hatoms word (List.mem_singleton_self _)
      rw [← Value.ofAtom_eq_ok hw]
      exact .ofAtom hne hword hw
  | @bracketed bracket pieces v opening closing _ hgathers ih =>
      have hitems : ∀ item ∈ pieces.map Prod.snd, item.Legible limits := by
        intro item hitem
        obtain ⟨piece, hpiece, rfl⟩ := List.mem_map.mp hitem
        refine ih piece hpiece fun word hword => hatoms word (List.mem_cons_of_mem _ ?_)
        exact List.mem_append_left _ (List.mem_flatMap.mpr ⟨piece, hpiece, hword⟩)
      generalize pieces.map Prod.snd = items at hgathers hitems
      cases hgathers with
      | list => exact .list hitems
      | vector => exact .vector hitems
      | @map pairs entries hlast =>
          obtain rfl := hlast.unique (.ofPairs pairs)
          refine .map (Assoc.nodup_keys_ofPairs pairs) fun entry hentry => hitems _ ?_
          exact List.mem_flatMap.mpr ⟨entry, Assoc.mem_ofPairs hentry, by simp⟩
  | @shorthand sign name tokens v hsign _ ih =>
      have hv := ih fun word hword => hatoms word (List.mem_cons_of_mem _ hword)
      refine .list (List.forall_mem_cons.mpr ⟨hname sign name (List.mem_cons_of_mem _ hsign), ?_⟩)
      exact List.forall_mem_singleton.mpr hv
  | noted _ _ ihnote ih =>
      have hnote := ihnote fun word hword => hatoms word (List.mem_cons_of_mem _ (List.mem_append_left _ hword))
      have hv := ih fun word hword => hatoms word (List.mem_cons_of_mem _ (List.mem_append_right _ hword))
      refine .list (List.forall_mem_cons.mpr ⟨hname "^" "with-meta" List.mem_cons_self, ?_⟩)
      exact List.forall_mem_cons.mpr ⟨hv, List.forall_mem_singleton.mpr hnote⟩

/-- The first form of a text is legible. -/
theorem legible_of_readFirst {limits : Limits} {source : String} {v : Value}
    (h : readFirst limits source = .ok (some v)) : v.Legible limits := by
  obtain ⟨rest, hread⟩ := exists_readForm_of_readFirst h
  obtain ⟨used, hused, hform⟩ := Begun.nil.readForm hread
  refine hform.legible fun word hword => ?_
  have hmem : ⟨.atom, word⟩ ∈ (lex source).tokens := hused ▸ List.mem_append_left _ hword
  rw [hused] at hread
  obtain ⟨hne, hchars⟩ := atom_of_lex hmem
  exact ⟨hne, hchars, ofAtom_of_readForm hread hword⟩

/-! ### What can be printed -/

namespace Value

variable {limits : Limits} {style : PrintStyle} {room : Nat} {v : Value}

/-- What is printed nests less deep than there is room. -/
theorem nestsWithin_of_print {digits : Nat} {text : String} (h : printWithin digits style room v = .ok text) :
    v.NestsWithin room := by
  induction room generalizing v text with
  | zero => cases h
  | succ room ih =>
      cases v with
      | list items | vector items =>
          obtain ⟨parts, hparts, -⟩ := bind_eq_ok h
          intro item hitem
          obtain ⟨shown, hshown⟩ := ok_of_mapM hparts item hitem
          exact ih hshown
      | map entries =>
          obtain ⟨parts, hparts, -⟩ := bind_eq_ok h
          intro entry hentry
          obtain ⟨part, hpart⟩ := ok_of_mapM hparts entry hentry
          obtain ⟨shown, hshown, -⟩ := bind_eq_ok hpart
          exact ih hshown
      | _ => trivial

theorem Legible.exists_print (h : v.Legible limits) (hnests : v.NestsWithin room) :
    ∃ text, printWithin limits.digits style room v = .ok text := by
  induction room generalizing v with
  | zero => exact hnests.elim
  | succ room ih =>
      cases h with
      | int hdigits => exact ⟨_, decimalText_eq hdigits⟩
      | list h | vector h =>
          exact exists_bind_ok (exists_mapM_ok fun v hv => ih (h v hv) (hnests v hv)) fun _ => ⟨_, rfl⟩
      | map _ h =>
          refine exists_bind_ok (exists_mapM_ok fun entry hentry => ?_) fun _ => ⟨_, rfl⟩
          exact exists_bind_ok (ih (h entry hentry) (hnests entry hentry)) fun _ => ⟨_, rfl⟩
      | _ => exact ⟨_, rfl⟩

end Value

/-! ### Places in lists and vectors -/

/-- The value at a place, which is told by the numbers of the elements to go into, from the outside. -/
def Value.at? : List Nat → Value → Option Value
  | [], v => some v
  | i :: path, v => (v.elements?.bind (·[i]?)).bind (at? path)

theorem Value.at?_append (path inner : List Nat) (v : Value) :
    v.at? (path ++ inner) = (v.at? path).bind (at? inner) := by
  induction path generalizing v with
  | nil => rfl
  | cons i path ih =>
      rw [List.cons_append, at?, at?, Option.bind_assoc (v.elements?.bind _), funext ih]

namespace OpenForm

/-- The open forms are lists and vectors, and the next form inside them gets this place in the outermost. -/
inductive Next : List OpenForm → List Nat → Prop
  | nil : Next [] []
  | sequence {bracket : Bracket} {reversed : List Value} {outer : List OpenForm} {path : List Nat} :
      bracket ≠ .curly → Next outer path → Next (.sequence bracket reversed :: outer) (path ++ [reversed.length])

/-- Whatever completes the open forms, this value has this place. -/
inductive Fixes (w : Value) : List OpenForm → List Nat → Prop
  | item {bracket : Bracket} (later earlier : List Value) {v : Value} {outer : List OpenForm} {path inner : List Nat} :
      bracket ≠ .curly → Next outer path → v.at? inner = some w →
        Fixes w (.sequence bracket (later ++ v :: earlier) :: outer) (path ++ earlier.length :: inner)
  | inside (form : OpenForm) {outer : List OpenForm} {path : List Nat} :
      Fixes w outer path → Fixes w (form :: outer) path

end OpenForm

namespace Progress

open OpenForm

/-- However reading goes on from here, this value has this place. -/
def Fixes (w : Value) : Progress → List Nat → Prop
  | .complete v, path => v.at? path = some w
  | .within opened, path => OpenForm.Fixes w opened path

variable {limits : Limits} {opened : List OpenForm} {v w : Value} {path inner : List Nat}

/-- A form gets its place once and for all. -/
theorem fixes_settle_next (h : Next opened path) (hv : v.at? inner = some w) :
    (settle opened v).Fixes w (path ++ inner) := by
  cases h with
  | nil => exact hv
  | @sequence bracket reversed outer path hbracket houter =>
      rw [List.append_assoc]
      exact .item [] reversed hbracket houter hv

theorem fixes_settle (h : OpenForm.Fixes w opened path) (v : Value) : (settle opened v).Fixes w path := by
  induction h generalizing v with
  | item later earlier hbracket houter hu => exact .item (v :: later) earlier hbracket houter hu
  | inside form houter ih =>
      cases form with
      | sequence | unnoted => exact .inside _ houter
      | shorthand | noted => exact ih _

/-- Where an element stands in a list or vector, there it is found. -/
theorem at?_ofItems {bracket : Bracket} (hbracket : bracket ≠ .curly) {later earlier : List Value} {u : Value}
    (hu : u.at? inner = some w) (hv : Value.ofItems limits bracket (later ++ u :: earlier).reverse = .ok v) :
    v.at? (earlier.length :: inner) = some w := by
  have hget : (later ++ u :: earlier).reverse[earlier.length]? = some u := by simp
  cases bracket with
  | curly => exact absurd rfl hbracket
  | round | square =>
      cases hv
      simpa only [Value.at?, Value.elements?, Option.bind_some, hget] using hu

theorem fixes_close {bracket : Bracket} {token : String} {p : Progress} (h : OpenForm.Fixes w opened path)
    (hclose : close limits bracket token opened = .ok p) : p.Fixes w path := by
  cases h with
  | item later earlier hb houter hu =>
      simp only [close] at hclose
      split at hclose
      · next hsame =>
          obtain ⟨v, hv, hclose⟩ := bind_eq_ok hclose
          cases hclose
          exact fixes_settle_next houter (at?_ofItems hb hu (hsame ▸ hv))
      · cases hclose
  | @inside form outer path houter =>
      cases form with
      | sequence b reversed =>
          simp only [close] at hclose
          split at hclose
          · obtain ⟨v, -, hclose⟩ := bind_eq_ok hclose
            cases hclose
            exact fixes_settle houter v
          · cases hclose
      | _ => cases hclose

theorem fixes_accept {token : Token} {p : Progress} (h : OpenForm.Fixes w opened path)
    (haccept : accept limits opened token = .ok p) : p.Fixes w path := by
  have henter : ∀ form, enter limits opened form = .ok p → p.Fixes w path := by
    intro form henter
    unfold enter at henter
    split at henter
    · cases henter
      exact .inside form h
    · cases henter
  unfold accept at haccept
  split at haccept
  · exact henter _ haccept
  · exact fixes_close h haccept
  · split at haccept
    · exact henter _ haccept
    · cases haccept
  · cases haccept
    exact fixes_settle h _
  · obtain ⟨v, -, haccept⟩ := bind_eq_ok haccept
    cases haccept
    exact fixes_settle h v
  · cases haccept

/-- What is read in the end has the value in its place. -/
theorem at?_of_readOn {p : Progress} {tokens rest : List Token} (h : p.Fixes w path)
    (hread : p.readOn limits tokens = .ok (v, rest)) : v.at? path = some w := by
  induction tokens generalizing p with
  | nil =>
      cases p with
      | complete u =>
          cases hread
          exact h
      | within opened => cases hread
  | cons token tokens ih =>
      cases p with
      | complete u =>
          cases hread
          exact h
      | within opened =>
          rw [readOn] at hread
          cases haccept : accept limits opened token with
          | error e =>
              rw [readForm, haccept] at hread
              cases hread
          | ok p =>
              rw [readForm_cons haccept] at hread
              exact ih (fixes_accept h haccept) hread

end Progress

/-! ### Texts that do not come back -/

/-- All texts in the maps of the value can be read back. Those outside of its maps may be any. -/
inductive Value.MapsReadable : Value → Prop
  | readable {v : Value} : v.Texts ReadableText → MapsReadable v
  | text (s : String) : MapsReadable (.text s)
  | list {items : List Value} : (∀ v ∈ items, MapsReadable v) → MapsReadable (.list items)
  | vector {items : List Value} : (∀ v ∈ items, MapsReadable v) → MapsReadable (.vector items)

/-- With this text, wherever it stands among lists and vectors, the value is not read. -/
def Value.Lost (limits : Limits) (room : Nat) (v : Value) (text : String) : Prop :=
  ∀ opened path cs w rest, OpenForm.Next opened path → opened.length + room ≤ limits.nesting →
    (∀ c ∈ cs.head?, isAtomChar c = false) →
      readForm limits opened (LexMode.between.lexAll (text.toList ++ cs)).tokens = .ok (w, rest) → w.at? path ≠ some v

theorem Spells.lexAll {cs rest : List Char} {tokens : List Token} (h : Spells cs tokens)
    (hrest : ∀ c ∈ rest.head?, isAtomChar c = false) :
    LexMode.between.lexAll (cs ++ rest) = (LexMode.between.lexAll rest).behind tokens := by
  obtain ⟨complete, m, hscan, hm, rfl⟩ := h
  rw [LexMode.lexAll_append, hscan, Lexed.behind_append]
  cases m with
  | between => rfl
  | atom reversed => exact congrArg (Lexed.behind complete) (LexMode.lexAll_atom hrest)
  | _ => exact hm.elim

/-- Behind the mark, what is read of a name up to the first character that is of no atom is the whole keyword only if
the keyword can be read back. -/
theorem readableText_of_keywordOf {s : String} {front rest cs : List Char} (hs : isKeyword s = true)
    (hfront : ∀ c ∈ front, isAtomChar c = true) (hcs : ∀ c ∈ cs.head?, isAtomChar c = false)
    (hsplit : (keywordName s).toList ++ cs = front ++ rest) (hsame : keywordOf (String.ofList front) = s) :
    ReadableText s := by
  obtain ⟨name, hchars⟩ : ∃ name, s.toList = keywordMark :: name := List.head?_eq_some_iff.mp (eq_of_beq hs)
  have hname : keywordName s = String.ofList name := by rw [keywordName, hchars, List.drop_one, List.tail_cons]
  rw [hname, String.toList_ofList] at hsplit
  have hprefix : front.length ≤ name.length := by
    rcases List.append_eq_append_iff.mp hsplit with ⟨more, rfl, rfl⟩ | ⟨more, rfl, rfl⟩
    · cases more with
      | nil => simp
      | cons c more =>
          have hc := hcs c rfl
          rw [hfront c (by simp)] at hc
          cases hc
    · simp
  rw [← hsame, keywordOf] at hchars
  split at hchars
  · rw [String.toList_ofList] at hchars
    rw [hchars, List.length_cons] at hprefix
    omega
  · next hplain =>
      rw [String.toList_ofList, String.toList_ofList] at hchars
      obtain rfl : front = name := List.tail_eq_of_cons_eq hchars
      intro _
      rw [hname, String.toList_ofList]
      exact ⟨hfront, Bool.eq_false_iff.mpr hplain⟩

theorem Value.lost_text {limits : Limits} {room : Nat} {s : String} (h : ¬ReadableText s) :
    (Value.text s).Lost limits room (printText .readable s) := by
  intro opened path cs w rest hnext _ hcs hread hw
  have hs : isKeyword s = true := by
    by_contra hs
    exact h fun hkeyword => absurd hkeyword hs
  obtain ⟨front, behind, hsplit, hfront, hbehind⟩ := exists_span isAtomChar ((keywordName s).toList ++ cs)
  have hprinted : (printText .readable s).toList ++ cs = (String.ofList (':' :: front)).toList ++ behind := by
    rw [printText, if_pos hs, String.toList_append, List.append_assoc, hsplit, @String.toList_ofList (':' :: front)]
    rfl
  have hfits : Token.Fits ⟨.atom, String.ofList (':' :: front)⟩ behind :=
    .atom (List.cons_ne_nil _ _) (List.forall_mem_cons.mpr ⟨by decide, hfront⟩) hbehind
  have haccept : Progress.accept limits opened ⟨.atom, String.ofList (':' :: front)⟩ =
      .ok (Progress.settle opened (.text (keywordOf (String.ofList front)))) := by
    rw [Progress.accept, Value.ofAtom_keyword]
    rfl
  rw [hprinted, hfits.lexAll] at hread
  have hread := (Progress.readForm_cons haccept _).symm.trans hread
  have hplace : (Value.text (keywordOf (String.ofList front))).at? [] =
      some (.text (keywordOf (String.ofList front))) := rfl
  have hfixed := Progress.at?_of_readOn (Progress.fixes_settle_next hnext hplace) hread
  rw [List.append_nil, hw, Option.some.injEq] at hfixed
  exact h (readableText_of_keywordOf hs hfront hcs hsplit (Value.text.inj hfixed).symm)

/-- Among the elements of a list or vector, the first that is lost is lost in its place. -/
theorem Value.exists_lost_item {limits : Limits} {room : Nat} {bracket : Bracket} {outer : List OpenForm}
    {path : List Nat} {items : List Value} {parts : List String} {w : Value} {rest : List Token} {tail : List Char}
    (hbracket : bracket ≠ .curly) (hnext : OpenForm.Next outer path) (hroom : outer.length + 1 + room ≤ limits.nesting)
    (hitems : ∀ v ∈ items, v.Legible limits)
    (hlost : ∀ v ∈ items, ¬v.Texts ReadableText →
      ∀ text, printWithin limits.digits .readable room v = .ok text → v.Lost limits room text)
    (hprints : items.mapM (printWithin limits.digits .readable room) = .ok parts)
    (hbad : ¬∀ v ∈ items, v.Texts ReadableText) (htail : ∀ c ∈ tail.head?, isAtomChar c = false)
    (reversed : List Value)
    (hread : readForm limits (.sequence bracket reversed :: outer)
      (LexMode.between.lexAll ((" ".intercalate parts).toList ++ tail)).tokens = .ok (w, rest)) :
    ∃ i v, items[i]? = some v ∧ w.at? (path ++ [reversed.length + i]) ≠ some v := by
  induction items generalizing parts reversed with
  | nil => exact absurd nofun hbad
  | cons v items ih =>
      rw [List.mapM_cons] at hprints
      obtain ⟨text, htext, hprints⟩ := bind_eq_ok hprints
      obtain ⟨texts, htexts, hprints⟩ := bind_eq_ok hprints
      cases hprints
      -- behind the element is a space and then the next one, or whatever is behind the last
      obtain ⟨more, hmore, hchars, hnextItem⟩ : ∃ more : List Char, (∀ c ∈ more.head?, isAtomChar c = false) ∧
          (" ".intercalate (text :: texts)).toList ++ tail = text.toList ++ more ∧
            (items ≠ [] → LexMode.between.lexAll more =
              LexMode.between.lexAll ((" ".intercalate texts).toList ++ tail)) := by
        cases items with
        | nil =>
            cases htexts
            exact ⟨tail, htail, by simp, fun h => absurd rfl h⟩
        | cons next items =>
            rw [List.mapM_cons] at htexts
            obtain ⟨nextText, -, htexts⟩ := bind_eq_ok htexts
            obtain ⟨others, -, htexts⟩ := bind_eq_ok htexts
            cases htexts
            refine ⟨' ' :: ((" ".intercalate (nextText :: others)).toList ++ tail), ?_, by simp, fun _ => rfl⟩
            exact fun c hc => Option.some.inj hc ▸ by decide
      rw [hchars] at hread
      by_cases hgood : v.Texts ReadableText
      · have hne : items ≠ [] := by
          rintro rfl
          exact hbad (List.forall_mem_singleton.mpr hgood)
        have hrest : ¬∀ v ∈ items, v.Texts ReadableText := fun h => hbad (List.forall_mem_cons.mpr ⟨hgood, h⟩)
        have hreadable : v.Readable limits room :=
          (hitems v List.mem_cons_self).readable hgood (nestsWithin_of_print htext)
        obtain ⟨text', tokens, htext', hwritten⟩ := hreadable.written
        obtain rfl : text' = text := Except.ok.inj (htext'.symm.trans htext)
        have hleads := hwritten.leads (.sequence bracket reversed :: outer) (by simpa using hroom)
        rw [hwritten.spells.lexAll hmore, hnextItem hne] at hread
        have hread := (hleads.readForm_within _).symm.trans hread
        obtain ⟨i, x, hx, hlostItem⟩ := ih (fun v hv => hitems v (List.mem_cons_of_mem _ hv))
          (fun v hv => hlost v (List.mem_cons_of_mem _ hv)) htexts hrest (v :: reversed) hread
        refine ⟨i + 1, x, hx, ?_⟩
        rwa [List.length_cons, Nat.add_assoc, Nat.add_comm 1] at hlostItem
      · refine ⟨0, v, rfl, ?_⟩
        exact hlost v List.mem_cons_self hgood text htext (.sequence bracket reversed :: outer) _ more w rest
          (.sequence hbracket hnext) hroom hmore hread

/-- A list or vector is lost if an element is. -/
theorem Value.lost_sequence {limits : Limits} {room : Nat} (bracket : Bracket) {v : Value} {items : List Value}
    {parts : List String} (hbracket : bracket ≠ .curly) (hv : v.elements? = some items)
    (hitems : ∀ v ∈ items, v.Legible limits)
    (hlost : ∀ v ∈ items, ¬v.Texts ReadableText →
      ∀ text, printWithin limits.digits .readable room v = .ok text → v.Lost limits room text)
    (hprints : items.mapM (printWithin limits.digits .readable room) = .ok parts)
    (hbad : ¬∀ v ∈ items, v.Texts ReadableText) :
    v.Lost limits (room + 1) (bracketed bracket.opening.toString bracket.closing.toString parts) := by
  intro opened path cs w rest hnext hroom hcs hread hw
  have hchars : (bracketed bracket.opening.toString bracket.closing.toString parts).toList ++ cs =
      (Token.single (.opener bracket) bracket.opening).text.toList ++
        ((" ".intercalate parts).toList ++ bracket.closing :: cs) := by
    simp [bracketed, Token.single]
  have hopen : Progress.accept limits opened (.single (.opener bracket) bracket.opening) =
      .ok (.within (.sequence bracket [] :: opened)) := if_pos (by omega)
  have hclosing : isAtomChar bracket.closing = false := by cases bracket <;> decide
  rw [hchars, (Token.Fits.opener bracket _).lexAll] at hread
  have hread := (Progress.readForm_cons hopen _).symm.trans hread
  obtain ⟨i, item, hitem, hne⟩ := exists_lost_item hbracket hnext (by omega) hitems hlost hprints hbad
    (fun c hc => by cases hc; exact hclosing) [] hread
  refine hne ?_
  rw [at?_append, hw, List.length_nil, Nat.zero_add, Option.bind_some, at?, hv, Option.bind_some, hitem]
  rfl

/-- A value with a text that does not come back is lost, if its maps hold no such text. -/
theorem Value.lost_of_print {limits : Limits} {room : Nat} {v : Value} {text : String} (h : v.Legible limits)
    (hmaps : v.MapsReadable) (hbad : ¬v.Texts ReadableText)
    (hprint : printWithin limits.digits .readable room v = .ok text) : v.Lost limits room text := by
  induction room generalizing v text with
  | zero => cases hprint
  | succ room ih =>
      cases hmaps with
      | readable hgood => exact absurd hgood hbad
      | text s =>
          cases hprint
          exact lost_text fun hs => hbad (.text hs)
      | @list items hmaps =>
          cases h with
          | list hitems =>
              obtain ⟨parts, hparts, hprint⟩ := bind_eq_ok hprint
              cases hprint
              refine lost_sequence .round nofun rfl hitems ?_ hparts fun hall => hbad (.list hall)
              exact fun v hv hbad text htext => ih (hitems v hv) (hmaps v hv) hbad htext
      | @vector items hmaps =>
          cases h with
          | vector hitems =>
              obtain ⟨parts, hparts, hprint⟩ := bind_eq_ok hprint
              cases hprint
              refine lost_sequence .square nofun rfl hitems ?_ hparts fun hall => hbad (.vector hall)
              exact fun v hv hbad text htext => ih (hitems v hv) (hmaps v hv) hbad htext

/-! ### The main statement -/

/-- **What is read and printed is read again.** A form that was read can be printed if it nests less deep than the
limit. If each of its texts is one that can be read back, then the printed form is read as the same value. A text that
cannot be read back, neither in the form nor as the form, spoils this: as long as it is not inside a map, the printed
form is read as something else, or not at all. -/
theorem readFirst_print {limits : Limits} {source : String} {v : Value}
    (h : readFirst limits source = .ok (some v)) :
    ((∃ text, v.print limits .readable = .ok text) ↔ v.NestsWithin limits.nesting) ∧
    ∀ text, v.print limits .readable = .ok text →
      (v.Texts ReadableText → readFirst limits text = .ok (some v)) ∧
      (v.MapsReadable → readFirst limits text = .ok (some v) → v.Texts ReadableText) := by
  have hlegible := legible_of_readFirst h
  refine ⟨⟨fun ⟨text, htext⟩ => Value.nestsWithin_of_print htext, hlegible.exists_print⟩, fun text hprint => ?_⟩
  constructor
  · intro htexts
    have hreadable := hlegible.readable htexts (Value.nestsWithin_of_print hprint)
    obtain ⟨text', tokens, htext', hwritten⟩ := hreadable.written
    obtain rfl : text' = text := Except.ok.inj (htext'.symm.trans hprint)
    exact hwritten.readFirst_eq (Nat.le_refl _)
  · intro hmaps hread
    by_contra hbad
    obtain ⟨rest, hread⟩ := exists_readForm_of_readFirst hread
    have hlex : (LexMode.between.lexAll (text.toList ++ [])).tokens = (lex text).tokens := by
      rw [List.append_nil, lex_eq]
      rfl
    rw [← hlex] at hread
    exact Value.lost_of_print hlegible hmaps hbad hprint [] [] [] v rest .nil (by simp) nofun hread rfl

/-- A list in which all texts can be read back is read back, and one with a string that is taken for a keyword is
not. -/
theorem readFirst_print_lists :
    readFirst {} "(:b \"c\" [])" = .ok (some (.list [.text (keywordOf "b"), .text "c", .vector []])) ∧
      readFirst {} "(:a b)" ≠ .ok (some (.list [.text "ʞa b"])) := by
  constructor
  · have hread : readFirst {} " (:b, \"c\"[])" = .ok (some (.list [.text (keywordOf "b"), .text "c", .vector []])) :=
      rfl
    refine ((readFirst_print hread).2 _ rfl).1 (.list ?_)
    refine List.forall_mem_cons.mpr ⟨.text fun _ => ⟨List.all_eq_true.mp (by decide), by decide⟩, ?_⟩
    refine List.forall_mem_cons.mpr ⟨.text fun h => absurd h (by decide), ?_⟩
    exact List.forall_mem_singleton.mpr (.vector nofun)
  · intro hagain
    have hread : readFirst {} "(\"ʞa b\")" = .ok (some (.list [.text "ʞa b"])) := rfl
    have hmaps : (Value.list [.text "ʞa b"]).MapsReadable := .list (List.forall_mem_singleton.mpr (.text _))
    cases ((readFirst_print hread).2 "(:a b)" rfl).2 hmaps hagain with
    | list htexts =>
        cases htexts _ (List.mem_singleton_self _) with
        | text htext => exact absurd ((htext (by decide)).1 ' ' (by decide)) (by decide)

/-- A string that starts with the mark comes back as a keyword of the part up to the first blank, and the keyword of a
name with two marks comes back with one of them less. -/
theorem readFirst_print_markedString :
    (readFirst {} "\"ʞa b\"" = .ok (some (.text "ʞa b")) ∧ (Value.text "ʞa b").print {} .readable = .ok ":a b" ∧
      readFirst {} ":a b" = .ok (some (.text "ʞa")) ∧ Value.text "ʞa" ≠ .text "ʞa b") ∧
    readFirst {} ":ʞʞa" = .ok (some (.text "ʞʞa")) ∧ (Value.text "ʞʞa").print {} .readable = .ok ":ʞa" ∧
      readFirst {} ":ʞa" = .ok (some (.text "ʞa")) ∧ Value.text "ʞa" ≠ .text "ʞʞa" := by
  refine ⟨⟨rfl, rfl, rfl, ?_⟩, rfl, rfl, rfl, ?_⟩ <;> simp

end SmallLisp
