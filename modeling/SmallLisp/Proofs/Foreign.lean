import SmallLisp.Proofs.Extending
import SmallLisp.Proofs.Shape
import SmallLisp.Proofs.TailCalls

/-! Errors from outside the language. A function of the library fails with an error of the language, or because
something nests too deep, or else in one of four ways: it has an integer to print that has too many digits, it reads
such an integer, the path of a file is no path, or a file is no text. A function that calls others passes on what these
fail with, and for an evaluation of any length there are no further ways. -/

namespace SmallLisp

open EvalM SmallLisp.Computation

/-- The error comes from outside the language, and is none of nesting too deep. -/
def Error.isForeign : Error → Bool
  | .mapInName | .nulInPath | .undecodable _ | .overrun (.digitsRead ..) | .overrun (.digitsWritten _) => true
  | _ => false

/-! ### Printing -/

/-- The value is or contains an integer with more digits than this, where printing comes to it. -/
inductive Value.HoldsLong (digits : Nat) : Value → Prop
  | int {n : Int} : 10 ^ digits ≤ n.natAbs → HoldsLong digits (.int n)
  | element {v item : Value} {items : List Value} : v.elements? = some items → item ∈ items → HoldsLong digits item →
      HoldsLong digits v
  | entry {entries : List (String × Value)} {entry : String × Value} : entry ∈ entries → HoldsLong digits entry.2 →
      HoldsLong digits (.map entries)

namespace Value

variable {digits room : Nat} {style : PrintStyle} {limits : Limits} {v : Value}

theorem error_of_print {limit : Overrun} (h : printWithin digits style room v = .error limit) :
    limit = .nesting ∧ ¬v.NestsWithin room ∨ limit = .digitsWritten digits ∧ v.HoldsLong digits := by
  induction room generalizing v limit with
  | zero =>
      cases h
      exact .inl ⟨rfl, id⟩
  | succ room ih =>
      -- a part that fails makes the whole fail in the same way
      have hpart : ∀ part : Value, (part.HoldsLong digits → v.HoldsLong digits) →
          (v.NestsWithin (room + 1) → part.NestsWithin room) →
            printWithin digits style room part = .error limit →
              limit = .nesting ∧ ¬v.NestsWithin (room + 1) ∨ limit = .digitsWritten digits ∧ v.HoldsLong digits :=
        fun part hlong hnests hpart =>
          (ih hpart).imp (fun h => ⟨h.1, fun hv => h.2 (hnests hv)⟩) fun h => ⟨h.1, hlong h.2⟩
      cases v with
      | int n =>
          simp only [printWithin, decimalText] at h
          split at h
          · cases h
          · next hlong =>
              cases h
              exact .inr ⟨rfl, .int (Nat.le_of_not_lt hlong)⟩
      | list items | vector items =>
          obtain hitems | ⟨parts, -, h⟩ := bind_eq_error h
          · obtain ⟨item, hitem, hprint⟩ := exists_mapM_error hitems
            exact hpart item (.element rfl hitem) (· item hitem) hprint
          · cases h
      | map entries =>
          obtain hentries | ⟨parts, -, h⟩ := bind_eq_error h
          · obtain ⟨entry, hentry, hprint⟩ := exists_mapM_error hentries
            obtain hprint | ⟨shown, -, hprint⟩ := bind_eq_error hprint
            · exact hpart entry.2 (.entry hentry) (· entry hentry) hprint
            · cases hprint
          · cases h
      | _ => cases h

theorem HoldsLong.print_ne_ok (h : v.HoldsLong digits) (text : String) :
    printWithin digits style room v ≠ .ok text := by
  induction room generalizing v text with
  | zero => nofun
  | succ room ih =>
      intro hprint
      cases h with
      | @int n hlong =>
          have hlong : ¬n.natAbs < Nat.pow 10 digits := Nat.not_lt.mpr hlong
          rw [printWithin, decimalText, if_neg hlong] at hprint
          cases hprint
      | @element v item items hv hitem hlong =>
          have hparts : ∃ parts, items.mapM (printWithin digits style room) = .ok parts := by
            cases v with
            | list | vector =>
                cases hv
                obtain ⟨parts, hparts, -⟩ := bind_eq_ok hprint
                exact ⟨parts, hparts⟩
            | _ => cases hv
          obtain ⟨parts, hparts⟩ := hparts
          obtain ⟨shown, hshown⟩ := ok_of_mapM hparts item hitem
          exact ih hlong shown hshown
      | @entry entries entry hentry hlong =>
          obtain ⟨parts, hparts, -⟩ := bind_eq_ok hprint
          obtain ⟨part, hpart⟩ := ok_of_mapM hparts entry hentry
          obtain ⟨shown, hshown, -⟩ := bind_eq_ok hpart
          exact ih hlong shown hshown

theorem error_of_printAll {separator : String} {vs : List Value} {limit : Overrun}
    (h : printAll limits style separator vs = .error limit) :
    limit = .nesting ∧ (¬∀ v ∈ vs, v.NestsWithin limits.nesting) ∨
      limit = .digitsWritten limits.digits ∧ ∃ v ∈ vs, v.HoldsLong limits.digits := by
  obtain hparts | ⟨parts, -, h⟩ := bind_eq_error h
  · obtain ⟨v, hv, hprint⟩ := exists_mapM_error hparts
    exact (error_of_print hprint).imp (fun h => ⟨h.1, fun hall => h.2 (hall v hv)⟩) fun h => ⟨h.1, v, hv, h.2⟩
  · cases h

/-- Among values that nest less deep than the limit, an integer with too many digits is what keeps them from being
printed. -/
theorem HoldsLong.printAll_eq (h : v.HoldsLong limits.digits) {separator : String} {vs : List Value} (hv : v ∈ vs)
    (hnests : ∀ w ∈ vs, w.NestsWithin limits.nesting) :
    printAll limits style separator vs = .error (.digitsWritten limits.digits) := by
  cases hprint : printAll limits style separator vs with
  | ok text =>
      obtain ⟨parts, hparts, -⟩ := bind_eq_ok hprint
      obtain ⟨shown, hshown⟩ := ok_of_mapM hparts v hv
      exact absurd hshown (h.print_ne_ok shown)
  | error limit =>
      obtain ⟨-, hdeep⟩ | ⟨rfl, -⟩ := error_of_printAll hprint
      · exact absurd hnests hdeep
      · rfl

theorem error_of_describe {limit : Overrun} (h : describeWithin limits room v = .error limit) :
    limit = .nesting ∨ limit = .digitsWritten limits.digits := by
  induction room generalizing v limit with
  | zero =>
      cases h
      exact .inl rfl
  | succ room ih =>
      cases v with
      | int n =>
          simp only [describeWithin, decimalText] at h
          split at h <;> cases h
          exact .inr rfl
      | list items | vector items =>
          obtain hitems | ⟨parts, -, h⟩ := bind_eq_error h
          · obtain ⟨item, -, hitem⟩ := exists_mapM_error hitems
            exact ih hitem
          · cases h
      | map entries =>
          obtain hentries | ⟨parts, -, h⟩ := bind_eq_error h
          · obtain ⟨entry, -, hentry⟩ := exists_mapM_error hentries
            obtain hentry | ⟨shown, -, hentry⟩ := bind_eq_error hentry
            · exact ih hentry
            · cases hentry
          · cases h
      | closure stamp params body frame =>
          obtain htext | ⟨text, -, h⟩ := bind_eq_error h
          · obtain hbody | ⟨shown, -, htext⟩ := bind_eq_error htext
            · exact (error_of_print hbody).imp And.left And.left
            · cases htext
          · cases h
      | _ => cases h

end Value

/-! ### Reading -/

section

variable {limits : Limits} {opened : List OpenForm}

/-- A token is not taken because of the text, or of too many forms inside one another, or it is an integer with too
many digits. -/
theorem OpenForm.Fitting.accept_error {token : Token} {e : Error} (h : Fitting limits opened)
    (he : Progress.accept limits opened token = .error e) :
    (∃ fault, e = .read fault) ∨ e = .overrun .nesting ∨
      ∃ word numeral, token = ⟨.atom, word⟩ ∧ Numeral.ofChars? word.toList = some numeral ∧
        limits.digits < numeral.digits.length ∧ e = .overrun (.digitsRead limits.digits numeral.digits.length) := by
  have henter : ∀ form, Progress.enter limits opened form = .error e → e = .overrun .nesting := by
    intro form henter
    unfold Progress.enter at henter
    split at henter <;> cases henter
    rfl
  obtain ⟨kind, text⟩ := token
  unfold Progress.accept at he
  cases kind with
  | opener bracket => exact .inr (.inl (henter _ he))
  | closer bracket =>
      simp only [Progress.close] at he
      split at he
      · next b reversed outer =>
          split at he
          · obtain hitems | ⟨v, -, he⟩ := bind_eq_error he
            · refine .inl (Value.ofItems_error hitems fun item hitem => ?_)
              cases h with
              | cons _ hheld _ => exact (hheld item (List.mem_reverse.mp hitem)).mono (Nat.sub_le _ _)
            · cases he
          · cases he
            exact .inl ⟨_, rfl⟩
      · cases he
        exact .inl ⟨_, rfl⟩
  | shorthand =>
      simp only at he
      split at he
      · exact .inr (.inl (henter _ he))
      · cases he
        exact .inl ⟨_, rfl⟩
  | string => cases he
  | atom =>
      obtain hatom | ⟨v, -, he⟩ := bind_eq_error he
      · unfold Value.ofAtom at hatom
        cases hnumeral : Numeral.ofChars? text.toList with
        | none =>
            simp only [hnumeral] at hatom
            cases hatom
        | some numeral =>
            simp only [hnumeral, Numeral.toInt] at hatom
            split at hatom
            · cases hatom
            · next hlong =>
                cases hatom
                exact .inr (.inr ⟨text, numeral, rfl, hnumeral, Nat.lt_of_not_le hlong, rfl⟩)
      · cases he
  | other kind =>
      cases he
      exact .inl ⟨_, rfl⟩

/-- The tokens are well formed up to an integer, which has more digits than the limit. -/
def ComesToLong (limits : Limits) (opened : List OpenForm) (tokens : List Token) (count : Nat) : Prop :=
  ∃ used word rest opened' numeral, tokens = used ++ ⟨.atom, word⟩ :: rest ∧
    Leads limits opened used (.within opened') ∧ Numeral.ofChars? word.toList = some numeral ∧
      numeral.digits.length = count ∧ limits.digits < count

theorem OpenForm.Fitting.readForm_error {tokens rest : List Token} {e : Error} (h : Fitting limits opened)
    (he : SmallLisp.readForm limits opened tokens = .error (.fault e rest)) :
    (∃ fault, e = .read fault) ∨ e = .overrun .nesting ∨
      ∃ count, ComesToLong limits opened tokens count ∧ e = .overrun (.digitsRead limits.digits count) := by
  induction tokens generalizing opened with
  | nil => cases he
  | cons token tokens ih =>
      rw [SmallLisp.readForm] at he
      cases haccept : Progress.accept limits opened token with
      | error e' =>
          rw [haccept] at he
          cases he
          refine (h.accept_error haccept).imp_right (Or.imp_right ?_)
          rintro ⟨word, numeral, rfl, hnumeral, hlong, rfl⟩
          exact ⟨_, ⟨[], word, _, opened, numeral, rfl, .done opened, hnumeral, rfl, hlong⟩, rfl⟩
      | ok p =>
          rw [haccept] at he
          cases p with
          | complete v => cases he
          | within opened' =>
              refine (ih (h.accept haccept) he).imp_right (Or.imp_right ?_)
              rintro ⟨count, ⟨used, word, rest', opened'', numeral, rfl, hleads, hlong⟩, rfl⟩
              exact ⟨count, ⟨token :: used, word, rest', opened'', numeral, rfl, .cons haccept hleads, hlong⟩, rfl⟩

theorem ComesToLong.readForm {tokens : List Token} {count : Nat} (h : ComesToLong limits opened tokens count) :
    ∃ rest, SmallLisp.readForm limits opened tokens =
      .error (.fault (.overrun (.digitsRead limits.digits count)) rest) := by
  obtain ⟨used, word, rest, opened', numeral, rfl, hleads, hnumeral, rfl, hlong⟩ := h
  have hatom : Value.ofAtom limits word = .error (.digitsRead limits.digits numeral.digits.length) := by
    simp only [Value.ofAtom, hnumeral, Numeral.toInt, if_neg (Nat.not_le.mpr hlong)]
    rfl
  refine ⟨rest, ?_⟩
  rw [hleads.readForm_within, SmallLisp.readForm, Progress.accept, hatom]
  rfl

end

/-- The first form of a text is not there because of the text, or of forms that nest too deep, or of an integer in it
that has too many digits. -/
theorem error_of_readFirst {limits : Limits} {source : String} {e : Error} (h : readFirst limits source = .error e) :
    (∃ fault, e = .read fault) ∨ e = .overrun .nesting ∨
      ∃ count, ComesToLong limits [] (lex source).tokens count ∧ e = .overrun (.digitsRead limits.digits count) := by
  have hfault : ∀ e, (lex source).fault? = some e → ∃ fault, e = .read fault := by
    intro e he
    unfold Lexed.fault? at he
    split at he <;> cases he
    exact ⟨_, rfl⟩
  rw [readFirst_eq] at h
  split at h
  · split at h
    · next e' he =>
        cases h
        exact .inl (hfault _ he)
    · cases h
  · split at h
    · cases h
    · next halt hread =>
        cases h
        cases halt with
        | fault e rest => exact OpenForm.Fitting.nil.readForm_error hread
        | outOfTokens opened =>
            cases he : (lex source).fault? with
            | none => exact .inl ⟨_, rfl⟩
            | some e => exact .inl (hfault e he)

theorem ComesToLong.readFirst {limits : Limits} {source : String} {count : Nat}
    (h : ComesToLong limits [] (lex source).tokens count) :
    SmallLisp.readFirst limits source = .error (.overrun (.digitsRead limits.digits count)) := by
  obtain ⟨rest, hread⟩ := h.readForm
  have hne : (lex source).tokens ≠ [] := by
    intro hempty
    rw [hempty] at hread
    cases hread
  rw [readFirst_eq, if_neg hne, hread]
  rfl

/-! ### Primitive functions -/

theorem Error.isOwn_of_isForeign {e : Error} (he : e.isForeign = true) : e.isOwn = false := by
  cases e with
  | mapInName | nulInPath | undecodable | overrun => rfl
  | _ => cases he

theorem error_of_withinLimits {α : Type} {r : Except Overrun α} {e : Error} (h : withinLimits r = .error e) :
    ∃ limit, r = .error limit ∧ e = .overrun limit := by
  cases r with
  | ok a => cases h
  | error limit =>
      cases h
      exact ⟨limit, rfl, rfl⟩

/-- The functions that print their arguments, or give what would be printed. -/
def Builtin.printers : List Builtin := [.primitive .prStr, .primitive .str, .prn, .println]

/-- What makes a function fail with an error from outside the language: an integer to print, or one to read, that has
too many digits, a path that is none, or a file that is no text. -/
inductive Builtin.Breaks (ctx : Context) : Builtin → List Value → Error → Prop
  | written {b : Builtin} {args : List Value} {v : Value} : b ∈ printers → v ∈ args → v.HoldsLong ctx.limits.digits →
      Breaks ctx b args (.overrun (.digitsWritten ctx.limits.digits))
  | read {source : String} {count : Nat} : isKeyword source = false →
      ComesToLong ctx.limits [] (lex source).tokens count →
        Breaks ctx (.primitive .readString) [.text source] (.overrun (.digitsRead ctx.limits.digits count))
  | path {path : String} : isKeyword path = false → '\x00' ∈ path.toList →
      Breaks ctx (.primitive .slurp) [.text path] .nulInPath
  | file {path : String} {bytes : List UInt8} {fault : Text.Utf8Fault} : isKeyword path = false →
      '\x00' ∉ path.toList → ctx.files path = .ok bytes → Text.ofBytes bytes = .error fault →
        Breaks ctx (.primitive .slurp) [.text path] (.undecodable fault)

section

variable {ctx : Context} {args : List Value} {e : Error} (he : e.isForeign = true)
include he

theorem error_of_printed {style : PrintStyle} {separator : String} {b : Builtin} (hb : b ∈ Builtin.printers)
    (h : withinLimits (Value.printAll ctx.limits style separator args) = .error e) : b.Breaks ctx args e := by
  obtain ⟨limit, hprint, rfl⟩ := error_of_withinLimits h
  obtain ⟨rfl, -⟩ | ⟨rfl, v, hv, hlong⟩ := Value.error_of_printAll hprint
  · cases he
  · exact .written hb hv hlong

theorem error_of_firstForm {source : String} (hsource : isKeyword source = false)
    (h : firstForm ctx source = .error e) : (Builtin.primitive .readString).Breaks ctx [.text source] e := by
  obtain hread | ⟨form?, -, h⟩ := bind_eq_error h
  · obtain ⟨fault, rfl⟩ | rfl | ⟨count, hlong, rfl⟩ := error_of_readFirst hread
    · cases he
    · cases he
    · exact .read hsource hlong
  · cases form? <;> cases h

theorem error_of_fileText {path : String} (hpath : isKeyword path = false) (h : fileText ctx path = .error e) :
    (Builtin.primitive .slurp).Breaks ctx [.text path] e := by
  unfold fileText at h
  split at h
  · next hnul =>
      cases h
      exact .path hpath (List.contains_iff_mem.mp hnul)
  · next hnul =>
      split at h
      · cases h
        cases he
      · next bytes hbytes =>
          split at h
          · next fault hfault =>
              cases h
              exact .file hpath (fun hmem => hnul (List.contains_iff_mem.mpr hmem)) hbytes hfault
          · cases h

/-- A primitive function fails with an error from outside the language only for one of these reasons. -/
theorem Primitive.error_of_run {p : Primitive} (h : p.run ctx args = .error e) :
    (Builtin.primitive p).Breaks ctx args e := by
  have hown := Error.isOwn_of_isForeign he
  have hlanguage : ∀ {e' : Error}, e'.isOwn = true → (.error e' : Except Error Value) ≠ .error e :=
    fun he' => Avoids.own hown he'
  unfold run at h
  split at h
  · exact absurd h ((Arith.avoids_run hown _ _).bind fun n => .ok _)
  · refine absurd h ((avoids_integers hown _ _).bind fun ns => ?_)
    split <;> exact .ok _
  · cases h
  · obtain h | ⟨b, -, h⟩ := bind_eq_error h
    · obtain ⟨limit, hequal, rfl⟩ := error_of_withinLimits h
      exact absurd hequal (Value.avoids_equalWithin (fun hlimit => by rw [hlimit] at he; cases he) _ _ _)
    · cases h
  · cases h
  · cases h
  · exact absurd h (Value.avoids_ofKeysAndValues hown _)
  · split at h
    · cases h
    · exact absurd h (hlanguage rfl)
  · split at h
    · cases h
    · exact absurd h (hlanguage rfl)
  · split at h
    · cases h
    · exact absurd h (hlanguage rfl)
  · obtain h | ⟨text, -, h⟩ := bind_eq_error h
    · exact error_of_printed he (by decide) h
    · cases h
  · obtain h | ⟨text, -, h⟩ := bind_eq_error h
    · exact error_of_printed he (by decide) h
    · cases h
  · split at h
    · split at h
      · exact absurd h (hlanguage rfl)
      · next hsource => exact error_of_firstForm he (Bool.eq_false_iff.mpr hsource) h
    · exact absurd h (hlanguage rfl)
  · split at h
    · split at h
      · exact absurd h (hlanguage rfl)
      · next hpath =>
          obtain h | ⟨text, -, h⟩ := bind_eq_error h
          · exact error_of_fileText he (Bool.eq_false_iff.mpr hpath) h
          · cases h
    · exact absurd h (hlanguage rfl)
  · exact absurd h (hlanguage rfl)
  · exact absurd h (hlanguage rfl)

end

/-! ### Calls -/

section

variable {nested : Nested} {ctx : Context} {m m' : Machine} {e : Error}

/-- The first element at which going through a list fails. -/
theorem exists_of_mapM_error {α γ : Type} {f : γ → EvalM α} {cs : List γ}
    (h : cs.mapM f ctx m = some (.error e, m')) :
    ∃ done c rest as m₁, cs = done ++ c :: rest ∧ done.mapM f ctx m = some (.ok as, m₁) ∧
      f c ctx m₁ = some (.error e, m') := by
  induction cs generalizing m with
  | nil => cases h
  | cons c cs ih =>
      rw [List.mapM_cons] at h
      rcases bind_eq_some h with ⟨a, m₁, ha, hrest⟩ | ⟨e', m₁, hc, houtcome⟩
      · rcases bind_eq_some hrest with ⟨as, m₂, -, hpure⟩ | ⟨e', m₂, hcs, houtcome⟩
        · cases hpure
        · cases houtcome
          obtain ⟨done, d, rest, as, m₃, rfl, hdone, hd⟩ := ih hcs
          refine ⟨c :: done, d, rest, a :: as, m₃, rfl, ?_, hd⟩
          rw [List.mapM_cons, bind_of_ok ha, bind_of_ok hdone]
          rfl
      · cases houtcome
        exact ⟨[], c, cs, [], m, rfl, rfl, hc⟩

/-- A function fails with an error from outside the language for a reason of its own, or because of a function that it
calls. -/
theorem Builtin.error_of_step (he : e.isForeign = true) {b : Builtin} {args : List Value} {caller : Nat}
    (h : b.step nested caller args ctx m = some (.error e, m')) :
    (b.Breaks ctx args e ∧ m' = m) ∨
      ∃ t m₁, Callback nested ctx (.builtin b) args caller m t m₁ ∧ nested t ctx m₁ = some (.error e, m') := by
  have hthrow : ∀ {e' : Error}, e'.isForeign = false →
      (throw e' : EvalM Step) ctx m ≠ some (.error e, m') := by
    intro e' he' hthrown
    cases hthrown
    rw [he] at he'
    cases he'
  have hprints : ∀ {style : PrintStyle} {b : Builtin}, b ∈ printers →
      ((do printLine (← printed style " " args); return .value .nil) : EvalM Step) ctx m = some (.error e, m') →
        b.Breaks ctx args e ∧ m' = m := by
    intro style b hb h
    rcases bind_eq_some h with ⟨line, m₁, -, h⟩ | ⟨e', m₁, hline, houtcome⟩
    · cases h
    · cases houtcome
      rw [printed_apply] at hline
      obtain ⟨hprint, rfl⟩ := Prod.mk.inj (Option.some.inj hline)
      exact ⟨error_of_printed he hb hprint, rfl⟩
  unfold Builtin.step at h
  split at h
  · rw [bind_of_ok (read_apply ctx m)] at h
    rcases bind_eq_some h with ⟨v, m₁, -, h⟩ | ⟨e', m₁, hrun, houtcome⟩
    · cases h
    · cases houtcome
      rw [ofExcept_apply] at hrun
      obtain ⟨herror, rfl⟩ := Prod.mk.inj (Option.some.inj hrun)
      exact .inl ⟨Primitive.error_of_run he herror, rfl⟩
  · exact .inl (hprints (by decide) h)
  · exact .inl (hprints (by decide) h)
  · next fn arg more =>
      cases hitems : ((arg :: more).getLast (List.cons_ne_nil arg more)).elements? with
      | none =>
          simp only [hitems] at h
          exact absurd h (hthrow rfl)
      | some items =>
          simp only [hitems] at h
          rcases bind_eq_some h with ⟨v, m₁, -, h⟩ | ⟨e', m₁, hcall, houtcome⟩
          · cases h
          · cases houtcome
            exact .inr ⟨_, _, .apply hitems, hcall⟩
  · next fn xs =>
      cases hitems : xs.elements? with
      | none =>
          simp only [hitems] at h
          exact absurd h (hthrow rfl)
      | some items =>
          simp only [hitems] at h
          rcases bind_eq_some h with ⟨vs, m₁, -, h⟩ | ⟨e', m₁, hcalls, houtcome⟩
          · cases h
          · cases houtcome
            obtain ⟨done, x, rest, vs, m₂, rfl, hdone, hcall⟩ := exists_of_mapM_error hcalls
            exact .inr ⟨_, _, .map hitems hdone, hcall⟩
  · cases h
  · exact absurd h (hthrow rfl)

theorem Builtin.step_primitive {p : Primitive} {args : List Value} {caller : Nat} (h : p.run ctx args = .error e) :
    (Builtin.primitive p).step nested caller args ctx m = some (.error e, m) := by
  have hrun : (ofExcept (p.run ctx args) : EvalM Value) ctx m = some (.error e, m) := by rw [ofExcept_apply, h]
  exact (bind_of_ok (read_apply ctx m)).trans (bind_of_error hrun)

/-- Whatever makes a function fail does so, if no argument nests too deep. -/
theorem Builtin.Breaks.step {b : Builtin} {args : List Value} {caller : Nat} (h : b.Breaks ctx args e)
    (hnests : ∀ v ∈ args, v.NestsWithin ctx.limits.nesting) :
    b.step nested caller args ctx m = some (.error e, m) := by
  cases h with
  | written hb hv hlong =>
      have hprint : ∀ (style : PrintStyle) (separator : String),
          withinLimits (Value.printAll ctx.limits style separator args) =
            .error (.overrun (.digitsWritten ctx.limits.digits)) :=
        fun style separator => by rw [hlong.printAll_eq hv hnests, withinLimits]
      simp only [printers, List.mem_cons, List.not_mem_nil, or_false] at hb
      rcases hb with rfl | rfl | rfl | rfl
      · exact step_primitive (by rw [Primitive.run, hprint]; rfl)
      · exact step_primitive (by rw [Primitive.run, hprint]; rfl)
      · exact bind_of_error (by rw [printed_apply, hprint])
      · exact bind_of_error (by rw [printed_apply, hprint])
  | read hsource hlong =>
      refine step_primitive ?_
      rw [Primitive.run, hsource, if_neg Bool.false_ne_true, firstForm, hlong.readFirst]
      rfl
  | path hpath hnul =>
      refine step_primitive ?_
      rw [Primitive.run, hpath, if_neg Bool.false_ne_true, fileText, if_pos (List.contains_iff_mem.mpr hnul)]
      rfl
  | file hpath hnul hbytes hfault =>
      refine step_primitive ?_
      rw [Primitive.run, hpath, if_neg Bool.false_ne_true, fileText,
        if_neg fun h => hnul (List.contains_iff_mem.mp h), hbytes]
      dsimp only
      rw [hfault]
      rfl

end

/-! ### Evaluations of any length -/

/-- What an error from outside the language says of the evaluation that ends with it. Of an error of the language, or
of nesting too deep, it says nothing. -/
inductive Error.Justified (ctx : Context) : Error → Prop
  | inside {e : Error} : e.isForeign = false → Justified ctx e
  | written : Justified ctx (.overrun (.digitsWritten ctx.limits.digits))
  | read {count : Nat} : ctx.limits.digits < count → Justified ctx (.overrun (.digitsRead ctx.limits.digits count))
  | path : Justified ctx .nulInPath
  | file {path : String} {bytes : List UInt8} {fault : Text.Utf8Fault} : ctx.files path = .ok bytes →
      Text.ofBytes bytes = .error fault → Justified ctx (.undecodable fault)

theorem Builtin.Breaks.justified {ctx : Context} {b : Builtin} {args : List Value} {e : Error}
    (h : b.Breaks ctx args e) : e.Justified ctx := by
  cases h with
  | written => exact .written
  | read _ hlong =>
      obtain ⟨_, _, _, _, _, -, -, -, -, hcount⟩ := hlong
      exact .read hcount
  | path => exact .path
  | file _ _ hbytes hfault => exact .file hbytes hfault

/-- Every error that the computation ends with is justified. -/
def Accounted (ctx : Context) {α : Type} (x : EvalM α) : Prop :=
  ∀ m e m', x ctx m = some (.error e, m') → e.Justified ctx

namespace Accounted

variable {ctx : Context} {α β γ : Type}

theorem pure (a : α) : Accounted ctx (pure a : EvalM α) := nofun

theorem throw {e : Error} (he : e.Justified ctx) : Accounted ctx (throw e : EvalM α) := by
  intro m e' m' h
  cases h
  exact he

theorem ofExcept {r : Except Error α} (h : ∀ e, r = .error e → e.Justified ctx) :
    Accounted ctx (ofExcept r : EvalM α) := by
  intro m e m' herror
  rw [ofExcept_apply] at herror
  exact h e (Prod.mk.inj (Option.some.inj herror)).1

theorem bind {x : EvalM α} {f : α → EvalM β} (hx : Accounted ctx x) (hf : ∀ a, Accounted ctx (f a)) :
    Accounted ctx (x >>= f) := by
  intro m e m' h
  rcases bind_eq_some h with ⟨a, m₁, -, hb⟩ | ⟨e', m₁, he, houtcome⟩
  · exact hf a m₁ e m' hb
  · cases houtcome
    exact hx m e m' he

theorem mapM {f : γ → EvalM α} (hf : ∀ c, Accounted ctx (f c)) (cs : List γ) : Accounted ctx (cs.mapM f) := by
  intro m e m' h
  obtain ⟨_, c, _, _, m₁, -, -, hc⟩ := exists_of_mapM_error h
  exact hf c m₁ e m' hc

theorem lookup (frame : Nat) (name : String) : Accounted ctx (lookup frame name) := by
  intro m e m' h
  rw [lookup_apply] at h
  cases hv : m.frames.get? frame name <;> rw [hv] at h <;> cases h
  exact .inside rfl

theorem printed (style : PrintStyle) (separator : String) (vs : List Value) :
    Accounted ctx (printed style separator vs) := by
  intro m e m' h
  rw [printed_apply] at h
  obtain ⟨limit, hprint, rfl⟩ := error_of_withinLimits (Prod.mk.inj (Option.some.inj h)).1
  obtain ⟨rfl, -⟩ | ⟨rfl, -⟩ := Value.error_of_printAll hprint
  · exact .inside rfl
  · exact .written

theorem described (v : Value) : Accounted ctx (described v) := by
  intro m e m' h
  rw [described_apply] at h
  obtain ⟨limit, hdescribe, rfl⟩ := error_of_withinLimits (Prod.mk.inj (Option.some.inj h)).1
  obtain rfl | rfl := Value.error_of_describe hdescribe
  · exact .inside rfl
  · exact .written

variable {nested : Nested} (hnested : ∀ task, Accounted ctx (nested task))
include hnested

theorem bindLocals (frame : Nat) (pairs : List (Value × Value)) :
    Accounted ctx (bindLocals nested frame pairs) := by
  induction pairs with
  | nil => exact pure ()
  | cons pair pairs ih =>
      obtain ⟨name, form⟩ := pair
      cases name with
      | symbol name => exact (hnested _).bind fun v => Accounted.bind (x := bindName frame name v) nofun fun _ => ih
      | _ => exact (described _).bind fun shown => throw (.inside rfl)

theorem runSequence (frame : Nat) (form : Value) (forms : List Value) :
    Accounted ctx (runSequence nested frame form forms) := by
  induction forms generalizing form with
  | nil => exact pure _
  | cons next forms ih => exact (hnested _).bind fun _ => ih next

theorem specialForm (frame : Nat) (form : SpecialForm) (parts : List Value) :
    Accounted ctx (form.step nested frame parts) := by
  unfold SpecialForm.step
  split
  · next name body =>
      cases name with
      | symbol name =>
          exact (hnested _).bind fun v => Accounted.bind (x := bindName frame name v) nofun fun _ => pure _
      | _ => exact (described _).bind fun shown => throw (.inside rfl)
  · split
    · exact throw (.inside rfl)
    · split
      · exact throw (.inside rfl)
      · exact Accounted.bind (x := extendFrame frame []) nofun fun inner =>
          (bindLocals hnested inner _).bind fun _ => pure _
  · exact runSequence hnested frame _ _
  · exact (hnested _).bind fun v => pure _
  · exact (hnested _).bind fun v => pure _
  · refine Accounted.bind ?_ fun closure => pure _
    unfold makeClosure
    split
    · exact Accounted.bind (x := freshStamp) nofun fun stamp => pure _
    · exact throw (.inside rfl)
  · exact throw (.inside rfl)

theorem builtin (caller : Nat) (b : Builtin) (args : List Value) : Accounted ctx (b.step nested caller args) := by
  intro m e m' h
  cases he : e.isForeign with
  | false => exact .inside he
  | true =>
      obtain ⟨hbreaks, -⟩ | ⟨t, m₁, -, ht⟩ := Builtin.error_of_step he h
      · exact hbreaks.justified
      · exact hnested t m₁ e m' ht

theorem applyStep (fn : Value) (args : List Value) (caller : Nat) :
    Accounted ctx (applyStep nested fn args caller) := by
  unfold SmallLisp.applyStep
  split
  · next params body captured =>
      refine (ofExcept fun e he => .inside ?_).bind fun pairs =>
        Accounted.bind (x := extendFrame captured pairs) nofun fun frame => pure _
      unfold Params.assign at he
      dsimp only at he
      split at he <;> split at he <;> cases he <;> rfl
  · exact builtin hnested caller _ args
  · exact (printed _ _ _).bind fun shown => throw (.inside rfl)

theorem evalParts (frame : Nat) (form : Value) : Accounted ctx (evalParts nested frame form) := by
  unfold SmallLisp.evalParts
  split
  · exact lookup frame _
  · exact (mapM (fun item => hnested _) _).bind fun vs => pure _
  · exact (mapM (fun item => hnested _) _).bind fun vs => pure _
  · exact (mapM (fun entry => (hnested _).bind fun v => pure _) _).bind fun vs => pure _
  · exact pure _

theorem step (task : Task) : Accounted ctx (step nested task) := by
  unfold SmallLisp.step
  split
  · exact applyStep hnested _ _ _
  · split
    · exact specialForm hnested _ _ _
    · exact (hnested _).bind fun fn => (mapM (fun form => hnested _) _).bind fun args => applyStep hnested _ _ _
  · exact (evalParts hnested _ _).bind fun v => pure _

omit hnested in
theorem run (steps room : Nat) (task : Task) : Accounted ctx (run steps room task) := by
  induction steps generalizing room task with
  | zero => nofun
  | succ steps ih =>
      have hnested : ∀ task, Accounted ctx (nestedRun steps room task) := by
        cases room with
        | zero => exact fun task => throw (.inside rfl)
        | succ room => exact ih room
      rw [run_succ]
      refine (step hnested task).bind fun outcome => ?_
      cases outcome with
      | value v => exact pure v
      | next form frame => exact ih room _

end Accounted

/-! ### The main statement -/

/-- A function of the library other than `eval` goes on to nothing, so a call of it ends as its step does. -/
theorem endsWithin_builtin_iff {room : Nat} {b : Builtin} (hb : b ≠ .eval) {args : List Value} {caller : Nat}
    {ctx : Context} {m m' : Machine} {e : Error} :
    EndsWithin room (.call (.builtin b) args caller) ctx m (.error e, m') ↔
      ∃ steps, b.step (nestedRun steps room) caller args ctx m = some (.error e, m') := by
  constructor
  · rintro ⟨steps, h⟩
    obtain _ | steps := steps
    · cases h
    rw [run_succ] at h
    rcases bind_eq_some h with ⟨outcome, m₁, hstep, h⟩ | ⟨e', m₁, hstep, houtcome⟩
    · cases outcome with
      | value v => cases h
      | next form frame =>
          cases (charted_step _ ctx _ m).passes form frame m₁ hstep with
          | call henters =>
              cases henters with
              | eval => exact absurd rfl hb
    · cases houtcome
      exact ⟨steps, hstep⟩
  · rintro ⟨steps, h⟩
    refine ⟨steps + 1, ?_⟩
    rw [run_succ]
    exact bind_of_error h

/-- **What functions fail with.** However an evaluation ends, calls of functions by functions included: if it is with
an error from outside the language, then an integer has too many digits to be written or read, a path is none, or a
file is no text. A call of a function of the library ends so only for a reason of its own, which `Builtin.Breaks`
names, with the machine as it was, or because of a function that it calls. It does end so for each of these reasons,
as long as no argument nests too deep to be printed, and whenever a function that it calls does. -/
theorem Builtin.call_foreign (ctx : Context) (room : Nat) :
    (∀ task m e m', EndsWithin room task ctx m (.error e, m') → e.Justified ctx) ∧
    ∀ b ∈ library, ∀ (args : List Value) (caller : Nat) (m : Machine) (e : Error), e.isForeign = true →
      (∀ m', EndsWithin room (.call (.builtin b) args caller) ctx m (.error e, m') →
        (b.Breaks ctx args e ∧ m' = m) ∨
          ∃ steps t m₁, Callback (nestedRun steps room) ctx (.builtin b) args caller m t m₁ ∧
            nestedRun steps room t ctx m₁ = some (.error e, m')) ∧
      (b.Breaks ctx args e → (∀ v ∈ args, v.NestsWithin ctx.limits.nesting) →
        EndsWithin room (.call (.builtin b) args caller) ctx m (.error e, m)) ∧
      ∀ steps t m₁ m', Callback (nestedRun steps room) ctx (.builtin b) args caller m t m₁ →
        nestedRun steps room t ctx m₁ = some (.error e, m') →
          EndsWithin room (.call (.builtin b) args caller) ctx m (.error e, m') := by
  refine ⟨fun task m e m' ⟨steps, h⟩ => Accounted.run steps room task m e m' h,
    fun b hb args caller m e he => ⟨fun m' h => ?_, fun hbreaks hnests => ?_, fun steps t m₁ m' hcallback ht => ?_⟩⟩
  all_goals have hb : b ≠ .eval := fun h => absurd (h ▸ hb) (by decide)
  · obtain ⟨steps, h⟩ := (endsWithin_builtin_iff hb).mp h
    exact (error_of_step he h).imp_right fun ⟨t, m₁, hcallback, ht⟩ => ⟨steps, t, m₁, hcallback, ht⟩
  · exact (endsWithin_builtin_iff hb).mpr ⟨0, hbreaks.step hnests⟩
  · exact (endsWithin_builtin_iff hb).mpr ⟨steps, hcallback.applyStep ht⟩

/-- A function that is given to `apply` fails, and `apply` with it; an integer with a digit more than the limit is not
printed. -/
theorem Builtin.call_foreign_applied :
    let ctx : Context := ⟨{ digits := 2 }, fun _ => .error .notFound⟩
    let m : Machine := ⟨.single, "", 0⟩
    let slurp : Value := .builtin (.primitive .slurp)
    EndsWithin 1 (.call (.builtin .apply) [slurp, .list [.text "a\x00b"]] 0) ctx m (.error .nulInPath, m) ∧
      EndsWithin 1 (.call (.builtin .prn) [.int 100] 0) ctx m (.error (.overrun (.digitsWritten 2)), m) := by
  intro ctx m slurp
  obtain ⟨-, hcalls⟩ := call_foreign ctx 1
  constructor
  · obtain ⟨-, -, hcallback⟩ :=
      hcalls .apply (by decide) [slurp, .list [.text "a\x00b"]] 0 m .nulInPath rfl
    exact hcallback 1 (.call slurp [.text "a\x00b"] 0) m m (.apply rfl) rfl
  · obtain ⟨-, hbreaks, -⟩ := hcalls .prn (by decide) [.int 100] 0 m (.overrun (.digitsWritten 2)) rfl
    refine hbreaks (.written (by decide) (List.mem_singleton_self _) (.int (by decide))) fun v hv => ?_
    rw [List.mem_singleton.mp hv]
    trivial

/-- A path that is none, and a file that is no text, make calls fail with errors from outside the language. -/
theorem Builtin.slurp_foreign :
    let files (path : String) : Except FileFault (List UInt8) := if path = "f" then .ok [255] else .error .notFound
    let m : Machine := ⟨.single, "", 0⟩
    let slurp (path : String) : Task := .call (.builtin (.primitive .slurp)) [.text path] 0
    EndsWithin 0 (slurp "a\x00b") ⟨{}, files⟩ m (.error .nulInPath, m) ∧ Error.nulInPath.isForeign = true ∧
      ∃ fault, EndsWithin 0 (slurp "f") ⟨{}, files⟩ m (.error (.undecodable fault), m) ∧
        (Error.undecodable fault).isForeign = true := by
  exact ⟨⟨1, rfl⟩, rfl, _, ⟨1, rfl⟩, rfl⟩

end SmallLisp
