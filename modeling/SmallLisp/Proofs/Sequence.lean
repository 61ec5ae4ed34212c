import SmallLisp.Proofs.Extending
import SmallLisp.Proofs.Initial
import SmallLisp.Proofs.Reach

/-! Texts with several forms. The forms are read from the stream one at a time, and each of them is evaluated in the
session that the forms in front of it have left. Reading does not depend on evaluating, so it would make no difference
if all forms were read beforehand: what is behind a form has no effect before the form is evaluated, and none at all
if the form raises an error. -/

namespace SmallLisp

/-! ### Reading one form after the other -/

/-- To read forms is to read one, and then those behind it. -/
theorem readForms_eq (limits : Limits) (opened : List OpenForm) (tokens : List Token) :
    readForms limits opened tokens =
      match readForm limits opened tokens with
      | .ok (v, rest) => (v :: (readForms limits [] rest).1, (readForms limits [] rest).2)
      | .error halt => ([], halt) := by
  induction tokens generalizing opened with
  | nil => rfl
  | cons token tokens ih =>
      rw [readForms, readForm]
      rcases Progress.accept limits opened token with e | v | opened'
      · rfl
      · rfl
      · exact ih opened'

/-- Reading that comes to a halt at a token leaves what is behind this token. -/
theorem suffix_of_readForms_fault {limits : Limits} {opened : List OpenForm} {tokens rest : List Token} {e : Error}
    (h : (readForms limits opened tokens).2 = .fault e rest) : ∃ token, token :: rest <:+ tokens := by
  induction tokens generalizing opened with
  | nil => cases h
  | cons token tokens ih =>
      have hbehind : ∀ {opened}, (readForms limits opened tokens).2 = .fault e rest →
          ∃ token', token' :: rest <:+ token :: tokens := by
        intro opened h
        obtain ⟨token', hsuffix⟩ := ih h
        exact ⟨token', hsuffix.trans (List.suffix_cons token tokens)⟩
      rw [readForms] at h
      split at h
      · cases h
        exact ⟨token, List.suffix_refl _⟩
      · exact hbehind h
      · exact hbehind h

theorem suffix_of_readForm_fault {limits : Limits} {opened : List OpenForm} {tokens rest : List Token} {e : Error}
    (h : readForm limits opened tokens = .error (.fault e rest)) : ∃ token, token :: rest <:+ tokens :=
  suffix_of_readForms_fault (by rw [readForms_eq, h])

/-- The forms that are open where the tokens end are those that the tokens have opened. -/
theorem Begun.readForm_outOfTokens {limits : Limits} {opened opened' : List OpenForm} {used tokens : List Token}
    (h : Begun opened used) (hread : SmallLisp.readForm limits opened tokens = .error (.outOfTokens opened')) :
    Begun opened' (used ++ tokens) := by
  induction tokens generalizing opened used with
  | nil =>
      cases hread
      rwa [List.append_nil]
  | cons token tokens ih =>
      rw [SmallLisp.readForm] at hread
      split at hread
      · cases hread
      · cases hread
      · next haccept =>
          rw [List.append_cons]
          exact ih (h.accept haccept) hread

namespace TokenStream

/-- Reading one form after the other gives these forms and leaves this stream. -/
inductive Reads (limits : Limits) : TokenStream → List Value → TokenStream → Prop
  | nil {s : TokenStream} : Reads limits s [] s
  | cons {s s₁ s' : TokenStream} {form : Value} {forms : List Value} :
      s.nextForm? limits = (.ok (some form), s₁) → Reads limits s₁ forms s' → Reads limits s (form :: forms) s'

/-- What comes behind the last form: nothing, or a fault. -/
def ending : Option Error → Except Error (Option Value)
  | some e => .error e
  | none => .ok none

section

variable {limits : Limits} {s s' : TokenStream}

/-- The next form, by the tokens that are left. -/
theorem nextForm?_eq (limits : Limits) (s : TokenStream) :
    s.nextForm? limits =
      match readForm limits [] s.unread with
      | .ok (v, rest) => (.ok (some v), s.restart rest)
      | .error (.fault e rest) => (.error e, s.restart rest)
      | .error (.outOfTokens []) => (ending s.fault, ended)
      | .error (.outOfTokens opened) => (.error (s.fault.getD (.read (OpenForm.missing opened))), ended) := by
  rw [nextForm?]
  cases hunread : s.unread with
  | nil =>
      rw [peek_nil hunread]
      cases s.fault <;> rfl
  | cons token tokens =>
      rw [peek_cons hunread]
      simp only [form, resume, unread_hold, fault_hold, hunread]
      cases hread : readForm limits [] (token :: tokens) with
      | ok result =>
          obtain ⟨v, rest⟩ := result
          have hrest : rest.length < s.unread.length := hunread ▸ readForm_length_lt hread
          exact congrArg (Prod.mk _) (hold_restart hrest)
      | error halt =>
          cases halt with
          | fault e rest =>
              obtain ⟨token', hsuffix⟩ := suffix_of_readForm_fault hread
              exact congrArg (Prod.mk _) (hold_restart (hunread ▸ hsuffix.length_le))
          | outOfTokens opened =>
              cases opened with
              -- the first token opens a form or is one
              | nil => cases Begun.nil.readForm_outOfTokens hread
              | cons form outer => rfl

/-- The forms of a stream, by its next form. -/
theorem forms_eq (limits : Limits) (s : TokenStream) :
    s.forms limits =
      match s.nextForm? limits with
      | (.ok (some v), s) => (v :: (s.forms limits).1, (s.forms limits).2)
      | (.ok none, s) => ([], none, s)
      | (.error e, s) => ([], some e, s) := by
  rw [nextForm?_eq, forms, readForms_eq]
  cases hread : readForm limits [] s.unread with
  | ok result =>
      obtain ⟨v, rest⟩ := result
      dsimp only
      rw [forms, unread_restart]
      cases hforms : readForms limits [] rest with
      | mk forms halt =>
          cases halt with
          | fault e behind =>
              obtain ⟨token, hsuffix⟩ := suffix_of_readForms_fault (congrArg Prod.snd hforms)
              dsimp only
              rw [restart_restart (Nat.le_of_lt hsuffix.length_le)]
          | outOfTokens opened => cases opened <;> rfl
  | error halt =>
      rcases halt with _ | _ | _
      · rfl
      · cases hfault : s.fault <;> rfl
      · rfl

/-- What is read one after the other are the first of all forms. -/
theorem Reads.forms_eq {forms : List Value} (h : Reads limits s forms s') :
    s.forms limits = (forms ++ (s'.forms limits).1, (s'.forms limits).2) := by
  induction h with
  | nil => rfl
  | cons hnext _ ih =>
      rw [TokenStream.forms_eq, hnext]
      dsimp only
      rw [ih]
      rfl

/-- All forms of a stream can be read one after the other, and then comes what is behind them. -/
theorem exists_reads (limits : Limits) (s : TokenStream) :
    ∃ s', Reads limits s (s.forms limits).1 s' ∧ (s'.nextForm? limits).1 = ending (s.forms limits).2.1 := by
  -- a form has at least one token, so fewer and fewer tokens are left
  induction hlength : s.unread.length using Nat.strongRecOn generalizing s with
  | ind n ih =>
      subst hlength
      rw [forms_eq]
      rcases hnext : s.nextForm? limits with ⟨e | _ | v, s₁⟩
      · exact ⟨s, .nil, congrArg Prod.fst hnext⟩
      · exact ⟨s, .nil, congrArg Prod.fst hnext⟩
      · obtain ⟨s', hreads, hending⟩ := ih _ (nextForm?_length_lt hnext) s₁ rfl
        exact ⟨s', .cons hnext hreads, hending⟩

/-- Forms can be read up to each of them. -/
theorem Reads.front {forms more : List Value} (h : Reads limits s (forms ++ more) s') :
    ∃ s₁, Reads limits s forms s₁ := by
  induction forms generalizing s with
  | nil => exact ⟨s, .nil⟩
  | cons form forms ih =>
      cases h with
      | cons hnext hreads =>
          obtain ⟨s₁, hfront⟩ := ih hreads
          exact ⟨s₁, .cons hnext hfront⟩

end

end TokenStream

section

open TokenStream

variable {limits : Limits} {source : String} {forms : List Value} {stream : TokenStream}

/-- What is read of a text beforehand is what can be read of it one form after the other. -/
theorem readPrefix_eq_iff {fault : Option Error} :
    readPrefix limits source = (forms, fault) ↔
      ∃ stream, Reads limits (ofSource source) forms stream ∧ (stream.nextForm? limits).1 = ending fault := by
  constructor
  · intro h
    obtain ⟨stream, hreads, hending⟩ := exists_reads limits (ofSource source)
    obtain ⟨rfl, rfl⟩ := Prod.mk.inj h
    exact ⟨stream, hreads, hending⟩
  · rintro ⟨stream, hreads, hending⟩
    have hstream : stream.forms limits = ([], fault, (stream.nextForm? limits).2) := by
      have hnext : stream.nextForm? limits = (ending fault, (stream.nextForm? limits).2) := Prod.ext hending rfl
      rw [TokenStream.forms_eq, hnext]
      cases fault <;> rfl
    rw [readPrefix, hreads.forms_eq, hstream, List.append_nil]

/-- The forms that are read one after the other are the first ones of the text. -/
theorem exists_readPrefix (h : Reads limits (ofSource source) forms stream) :
    ∃ more, (readPrefix limits source).1 = forms ++ more := by
  have hforms := congrArg Prod.fst h.forms_eq
  exact ⟨_, hforms⟩

theorem exists_readForms_append (limits : Limits) (opened : List OpenForm) (front back : List Token) :
    ∃ more, (readForms limits opened (front ++ back)).1 = (readForms limits opened front).1 ++ more := by
  induction front generalizing opened with
  | nil => exact ⟨_, rfl⟩
  | cons token front ih =>
      rw [List.cons_append, readForms, readForms]
      rcases Progress.accept limits opened token with e | v | opened'
      · exact ⟨[], rfl⟩
      · obtain ⟨more, hmore⟩ := ih []
        exact ⟨more, congrArg (v :: ·) hmore⟩
      · exact ih opened'

theorem readPrefix_fst (limits : Limits) (source : String) :
    (readPrefix limits source).1 = (readForms limits [] (lex source).tokens).1 := by
  rw [readPrefix_eq]
  rcases readForms limits [] (lex source).tokens with ⟨forms, _ | _ | _⟩ <;> rfl

/-- The forms of a text are read in front of every text on the lines behind it. -/
theorem exists_readPrefix_append (limits : Limits) (source tail : String) :
    ∃ more, (readPrefix limits (source ++ "\n" ++ tail)).1 = (readPrefix limits source).1 ++ more := by
  obtain ⟨tokens, htokens⟩ := lex_append_newline source tail
  rw [readPrefix_fst, readPrefix_fst, htokens]
  exact exists_readForms_append limits [] _ _

/-- Behind a text without fault, the forms of the next lines are read, and then comes what is behind these. -/
theorem readPrefix_append (h : readAll limits source = .ok forms) (tail : String) :
    readPrefix limits (source ++ "\n" ++ tail) =
      (forms ++ (readPrefix limits tail).1, (readPrefix limits tail).2) := by
  obtain ⟨hforms, hclosed⟩ := readAll_eq_ok_iff.mp h
  have hfault : (lex (source ++ "\n" ++ tail)).fault? = (lex tail).fault? := by
    rw [Lexed.fault?, Lexed.fault?, lex_newline hclosed]
  rw [readPrefix_eq, readPrefix_eq, hfault, lex_newline hclosed]
  dsimp only
  rw [readForms_append hforms]
  rcases readForms limits [] (lex tail).tokens with ⟨forms', _ | _ | _⟩ <;> rfl

end

/-! ### What the values come to -/

/-- What values come to: `nil` if there are none, a single one as it is, and several in their order. -/
inductive Results.Of : List Value → Results → Prop
  | none : Of [] (.one .nil)
  | one (v : Value) : Of [v] (.one v)
  | several {vs : List Value} : 2 ≤ vs.length → Of vs (.several vs)

theorem Results.of_iff {vs : List Value} {results : Results} : Of vs results ↔ results = .ofList vs := by
  constructor
  · intro h
    cases h with
    | none | one => rfl
    | several hlength =>
        rcases vs with _ | ⟨v, _ | ⟨w, vs⟩⟩
        · cases hlength
        · exact absurd hlength (Nat.not_succ_le_self 1)
        · rfl
  · rintro rfl
    rcases vs with _ | ⟨v, _ | ⟨w, vs⟩⟩
    · exact .none
    · exact .one v
    · exact .several (Nat.le_add_left 2 vs.length)

/-! ### Evaluating one form after the other -/

namespace Session

open SmallLisp.Computation

/-- Evaluating the forms one after the other in the root frame gives these values. Each form is evaluated in the
session that the forms in front of it have left. -/
inductive Evaluates (ctx : Context) : Session → List Value → List Value → Session → Prop
  | nil {s : Session} : Evaluates ctx s [] [] s
  | cons {s s' : Session} {form v : Value} {forms vs : List Value} {m : Machine} :
      evaluate form rootFrame ctx s.machine = some (.ok v, m) →
      Evaluates ctx ⟨m, s.submitted.push form⟩ forms vs s' → Evaluates ctx s (form :: forms) (v :: vs) s'

/-- Evaluating the forms one after the other raises this error at the last of them. -/
inductive Raises (ctx : Context) : Session → List Value → Error → Session → Prop
  | last {s : Session} {form : Value} {e : Error} {m : Machine} :
      evaluate form rootFrame ctx s.machine = some (.error e, m) →
      Raises ctx s [form] e ⟨m, s.submitted.push form⟩
  | cons {s s' : Session} {form v : Value} {forms : List Value} {e : Error} {m : Machine} :
      evaluate form rootFrame ctx s.machine = some (.ok v, m) →
      Raises ctx ⟨m, s.submitted.push form⟩ forms e s' → Raises ctx s (form :: forms) e s'

section

variable {ctx : Context} {s s' : Session} {source : String} {forms values : List Value} {e : Error}

theorem submit_apply (form : Value) (ctx : Context) (s : Session) :
    submit form ctx s =
      (evaluate form rootFrame ctx s.machine).map fun (r, m) => (r, ⟨m, s.submitted.push form⟩) := by
  show onMachine (evaluate form rootFrame) ctx ⟨s.machine, s.submitted.push form⟩ = _
  cases h : evaluate form rootFrame ctx s.machine with
  | none =>
      rw [onMachine, EvalM.runFrom]
      dsimp only
      rw [h]
      rfl
  | some outcome => exact onMachine_of_eq_some (s := ⟨s.machine, s.submitted.push form⟩) h

theorem submit_eq_some {form : Value} {r : Except Error Value} :
    submit form ctx s = some (r, s') ↔
      ∃ m, evaluate form rootFrame ctx s.machine = some (r, m) ∧ s' = ⟨m, s.submitted.push form⟩ := by
  rw [submit_apply, Option.map_eq_some_iff]
  constructor
  · rintro ⟨⟨_, m⟩, hform, houtcome⟩
    cases houtcome
    exact ⟨m, hform, rfl⟩
  · rintro ⟨m, hform, rfl⟩
    exact ⟨(r, m), hform, rfl⟩

theorem Evaluates.mapM_submit (h : Evaluates ctx s forms values s') :
    forms.mapM submit ctx s = some (.ok values, s') := by
  induction h with
  | nil => rfl
  | cons hform _ ih =>
      rw [List.mapM_cons, bind_of_ok (submit_eq_some.mpr ⟨_, hform, rfl⟩), bind_of_ok ih]
      rfl

/-- What is behind the form that raises the error is not evaluated. -/
theorem Raises.mapM_submit (h : Raises ctx s forms e s') (back : List Value) :
    (forms ++ back).mapM submit ctx s = some (.error e, s') := by
  induction h with
  | last hform => rw [List.singleton_append, List.mapM_cons, bind_of_error (submit_eq_some.mpr ⟨_, hform, rfl⟩)]
  | cons hform _ ih =>
      rw [List.cons_append, List.mapM_cons, bind_of_ok (submit_eq_some.mpr ⟨_, hform, rfl⟩), bind_of_error ih]

/-- Submitting forms gives values exactly if all forms are evaluated. -/
theorem mapM_submit_eq_ok :
    forms.mapM submit ctx s = some (.ok values, s') ↔ Evaluates ctx s forms values s' := by
  refine ⟨fun h => ?_, Evaluates.mapM_submit⟩
  induction forms generalizing s values with
  | nil =>
      cases h
      exact .nil
  | cons form forms ih =>
      rw [List.mapM_cons] at h
      obtain ⟨v, t, hsubmit, h⟩ | ⟨e, t, _, hr⟩ := bind_eq_some h
      · obtain ⟨m, hform, rfl⟩ := submit_eq_some.mp hsubmit
        obtain ⟨vs, t, hforms, h⟩ | ⟨e, t, _, hr⟩ := bind_eq_some h
        · cases h
          exact .cons hform (ih hforms)
        · cases hr
      · cases hr

/-- It gives an error exactly if one of them raises it. -/
theorem mapM_submit_eq_error {e : Error} :
    forms.mapM submit ctx s = some (.error e, s') ↔
      ∃ front back, forms = front ++ back ∧ Raises ctx s front e s' := by
  constructor
  · intro h
    induction forms generalizing s with
    | nil => cases h
    | cons form forms ih =>
        rw [List.mapM_cons] at h
        obtain ⟨v, t, hsubmit, h⟩ | ⟨e, t, hsubmit, hr⟩ := bind_eq_some h
        · obtain ⟨m, hform, rfl⟩ := submit_eq_some.mp hsubmit
          obtain ⟨vs, t, _, h⟩ | ⟨e, t, hforms, hr⟩ := bind_eq_some h
          · cases h
          · cases hr
            obtain ⟨front, back, rfl, hraises⟩ := ih hforms
            exact ⟨form :: front, back, rfl, .cons hform hraises⟩
        · cases hr
          obtain ⟨m, hform, rfl⟩ := submit_eq_some.mp hsubmit
          exact ⟨[form], forms, rfl, .last hform⟩
  · rintro ⟨front, back, rfl, hraises⟩
    exact hraises.mapM_submit back

/-- Submitting forms comes to an end with the last one, or at an error. -/
theorem mapM_submit_eq_some {r : Except Error (List Value)} :
    forms.mapM submit ctx s = some (r, s') ↔
      (∃ values, r = .ok values ∧ Evaluates ctx s forms values s') ∨
        ∃ front back e, forms = front ++ back ∧ r = .error e ∧ Raises ctx s front e s' := by
  cases r with
  | ok values => simp [mapM_submit_eq_ok]
  | error e => simp [mapM_submit_eq_error]

/-- It makes no difference that a form is read only when those in front of it have been evaluated: all forms are
submitted, and then the fault behind them is raised. -/
theorem runForms_apply (stream : TokenStream) (ctx : Context) (s : Session) :
    runForms stream ctx s =
      ((stream.forms ctx.limits).1.mapM submit >>= fun values =>
        (stream.forms ctx.limits).2.1.elim (pure values) throw) ctx s := by
  -- every form that is read leaves fewer tokens
  induction hlength : stream.unread.length using Nat.strongRecOn generalizing stream s with
  | ind n ih =>
      subst hlength
      rw [runForms_eq, bind_of_ok (read_apply ctx s), TokenStream.forms_eq]
      rcases hnext : stream.nextForm? ctx.limits with ⟨e | _ | form, rest⟩
      · rfl
      · rfl
      · dsimp only
        rw [List.mapM_cons, bind_assoc, bind_apply, bind_apply]
        rcases submit form ctx s with _ | ⟨e | v, t⟩
        · rfl
        · rfl
        · dsimp only
          rw [bind_assoc, bind_apply, bind_apply, ih _ (TokenStream.nextForm?_length_lt hnext) rest t rfl, bind_apply]
          rcases (rest.forms ctx.limits).1.mapM submit ctx t with _ | ⟨e | vs, t⟩
          · rfl
          · rfl
          · cases (rest.forms ctx.limits).2.1 <;> rfl

/-- The forms of a text are submitted, and then the fault behind them is raised. -/
theorem runAll_apply {fault : Option Error} (hread : readPrefix ctx.limits source = (forms, fault)) :
    runAll source ctx s = (forms.mapM submit >>= fun values => fault.elim (pure values) throw) ctx s := by
  obtain ⟨rfl, rfl⟩ := Prod.mk.inj hread
  exact runForms_apply (.ofSource source) ctx s

theorem Evaluates.runAll {fault : Option Error} (h : Evaluates ctx s forms values s')
    (hread : readPrefix ctx.limits source = (forms, fault)) :
    runAll source ctx s = some (fault.elim (.ok values) .error, s') := by
  rw [runAll_apply hread, bind_of_ok h.mapM_submit]
  cases fault <;> rfl

theorem Raises.runAll {more : List Value} (h : Raises ctx s forms e s')
    (hread : (readPrefix ctx.limits source).1 = forms ++ more) :
    runAll source ctx s = some (.error e, s') := by
  have hprefix : readPrefix ctx.limits source = (forms ++ more, (readPrefix ctx.limits source).2) := by rw [← hread]
  rw [runAll_apply hprefix, bind_of_error (h.mapM_submit more)]

/-- Evaluating a text comes to the end of its forms, or to an error on the way. -/
theorem evaluates_or_raises_of_runAll {fault : Option Error} {r : Except Error (List Value)}
    (h : Session.runAll source ctx s = some (r, s')) (hread : readPrefix ctx.limits source = (forms, fault)) :
    (∃ values, Evaluates ctx s forms values s' ∧ r = fault.elim (.ok values) .error) ∨
      ∃ front back e, forms = front ++ back ∧ Raises ctx s front e s' ∧ r = .error e := by
  rw [runAll_apply hread] at h
  obtain ⟨values, t, hforms, h⟩ | ⟨e, t, hforms, hr⟩ := bind_eq_some h
  · refine .inl ⟨values, ?_⟩
    cases fault with
    | none =>
        cases h
        exact ⟨mapM_submit_eq_ok.mp hforms, rfl⟩
    | some e =>
        cases h
        exact ⟨mapM_submit_eq_ok.mp hforms, rfl⟩
  · cases hr
    obtain ⟨front, back, hfront, hraises⟩ := mapM_submit_eq_error.mp hforms
    exact .inr ⟨front, back, e, hfront, hraises, rfl⟩

/-- Evaluating a text gives what the values of its forms come to. -/
theorem eval_eq_some {r : Except Error Results} :
    eval source ctx s = some (r, s') ↔
      (∃ values results, runAll source ctx s = some (.ok values, s') ∧ Results.Of values results ∧ r = .ok results) ∨
        ∃ e, runAll source ctx s = some (.error e, s') ∧ r = .error e := by
  simp only [Results.of_iff]
  constructor
  · intro h
    obtain ⟨values, t, hrun, h⟩ | ⟨e, t, hrun, h⟩ := bind_eq_some h
    · cases h
      exact .inl ⟨values, _, hrun, rfl, rfl⟩
    · cases h
      exact .inr ⟨e, hrun, rfl⟩
  · rintro (⟨values, _, hrun, rfl, rfl⟩ | ⟨e, hrun, rfl⟩)
    · exact bind_of_ok hrun
    · exact bind_of_error hrun

/-- Behind a text without fault, the forms of the next lines are evaluated next. -/
theorem runAll_append (hread : readAll ctx.limits source = .ok forms) (tail : String) :
    Session.runAll (source ++ "\n" ++ tail) ctx s = (do
      let values ← Session.runAll source
      let more ← Session.runAll tail
      return values ++ more) ctx s := by
  obtain ⟨more, fault, htail⟩ : ∃ more fault, readPrefix ctx.limits tail = (more, fault) := ⟨_, _, rfl⟩
  have hsource : readPrefix ctx.limits source = (forms, none) := readPrefix_of_readAll hread (Nat.le_refl _)
  have hwhole : readPrefix ctx.limits (source ++ "\n" ++ tail) = (forms ++ more, fault) := by
    rw [readPrefix_append hread, htail]
  have hfront : Session.runAll source ctx s = forms.mapM submit ctx s := by
    rw [runAll_apply hsource]
    exact congrFun (congrFun (bind_pure _) ctx) s
  rw [runAll_apply hwhole, List.mapM_append, bind_assoc, bind_apply, bind_apply, hfront]
  rcases forms.mapM submit ctx s with _ | ⟨e | values, t⟩
  · rfl
  · rfl
  · dsimp only
    rw [bind_assoc, bind_apply, bind_apply, runAll_apply htail, bind_apply]
    rcases more.mapM submit ctx t with _ | ⟨e | values', t⟩
    · rfl
    · rfl
    · cases fault <;> rfl

end

/-! ### The main statement -/

/-- **The forms of a text are evaluated in order.** Either all forms that are read one after the other are evaluated,
and then their values are given or the fault behind them is raised, or the error of the last form that is evaluated is
raised, whatever is behind this form; then further text makes no difference. The values come to `nil` if there are
none, to the value of a single form, or else to all of them in their order. Evaluating a text without fault together
with the lines behind it is to evaluate first the text and then those lines. -/
theorem runAll_inOrder (ctx : Context) (source : String) (s : Session) :
    (∀ r s', runAll source ctx s = some (r, s') ↔
      (∃ forms stream values, TokenStream.Reads ctx.limits (.ofSource source) forms stream ∧
        Evaluates ctx s forms values s' ∧
        ((stream.nextForm? ctx.limits).1 = .ok none ∧ r = .ok values ∨
          ∃ e, (stream.nextForm? ctx.limits).1 = .error e ∧ r = .error e)) ∨
      ∃ forms stream e, TokenStream.Reads ctx.limits (.ofSource source) forms stream ∧
        Raises ctx s forms e s' ∧ r = .error e) ∧
    (∀ r s', eval source ctx s = some (r, s') ↔
      (∃ values results, runAll source ctx s = some (.ok values, s') ∧ Results.Of values results ∧ r = .ok results) ∨
        ∃ e, runAll source ctx s = some (.error e, s') ∧ r = .error e) ∧
    (∀ forms stream e s', TokenStream.Reads ctx.limits (.ofSource source) forms stream → Raises ctx s forms e s' →
      ∀ tail, runAll (source ++ "\n" ++ tail) ctx s = some (.error e, s')) ∧
    (∀ forms, readAll ctx.limits source = .ok forms → ∀ tail,
      runAll (source ++ "\n" ++ tail) ctx s = (do
        let values ← runAll source
        let more ← runAll tail
        return values ++ more) ctx s) := by
  refine ⟨fun r s' => ⟨fun h => ?_, ?_⟩, fun r s' => eval_eq_some, fun forms stream e s' hreads hraises tail => ?_,
    fun forms hread tail => runAll_append hread tail⟩
  · obtain ⟨forms, fault, hread⟩ : ∃ forms fault, readPrefix ctx.limits source = (forms, fault) := ⟨_, _, rfl⟩
    obtain ⟨stream, hreads, hending⟩ := readPrefix_eq_iff.mp hread
    obtain ⟨values, hevaluates, rfl⟩ | ⟨front, back, e, rfl, hraises, rfl⟩ := evaluates_or_raises_of_runAll h hread
    · refine .inl ⟨forms, stream, values, hreads, hevaluates, ?_⟩
      cases fault with
      | none => exact .inl ⟨hending, rfl⟩
      | some e => exact .inr ⟨e, hending, rfl⟩
    · obtain ⟨stream', hfront⟩ := hreads.front
      exact .inr ⟨front, stream', e, hfront, hraises, rfl⟩
  · rintro (⟨forms, stream, values, hreads, hevaluates, ⟨hend, rfl⟩ | ⟨e, hend, rfl⟩⟩ |
      ⟨forms, stream, e, hreads, hraises, rfl⟩)
    · have hread : readPrefix ctx.limits source = (forms, none) := readPrefix_eq_iff.mpr ⟨stream, hreads, hend⟩
      exact hevaluates.runAll hread
    · have hread : readPrefix ctx.limits source = (forms, some e) := readPrefix_eq_iff.mpr ⟨stream, hreads, hend⟩
      exact hevaluates.runAll hread
    · obtain ⟨back, hback⟩ := exists_readPrefix hreads
      exact hraises.runAll hback
  · obtain ⟨back, hback⟩ := exists_readPrefix hreads
    obtain ⟨more, hmore⟩ := exists_readPrefix_append ctx.limits source tail
    rw [hback, List.append_assoc] at hmore
    exact hraises.runAll hmore

/-- Forms whose values can be computed are evaluated. -/
theorem exists_evaluates {ctx : Context} {s : Session} {forms values : List Value}
    (h : ((forms.mapM submit ctx s).map fun outcome => outcome.1.toOption) = some (some values)) :
    ∃ s', Evaluates ctx s forms values s' := by
  obtain ⟨⟨r, s'⟩, hrun, hr⟩ := Option.map_eq_some_iff.mp h
  obtain rfl := eq_ok_of_toOption hr
  exact ⟨s', mapM_submit_eq_ok.mp hrun⟩

/-- The value that a result throws. -/
def thrownValue? : Except Error Value → Option Value
  | .error (.thrown v) => some v
  | _ => none

/-- Texts without a form, with a single one, and with two of which the second needs the first; a form that throws in
front of a stray bracket; and a definition that the next lines can use. -/
theorem runAll_inOrder_thrown :
    (∃ s', eval "; nothing" noFiles initial = some (.ok (.one .nil), s')) ∧
    (∃ s', eval "(+ 1 2)" noFiles initial = some (.ok (.one (.int 3)), s')) ∧
    (∃ s', eval "(def! x 1) (+ x 1)" noFiles initial = some (.ok (.several [.int 1, .int 2]), s')) ∧
    (∃ s', ∀ tail, runAll ("(throw \"up\") )" ++ "\n" ++ tail) noFiles initial =
      some (.error (.thrown (.text "up")), s')) ∧
    ∀ tail, runAll ("(def! x 1)" ++ "\n" ++ tail) noFiles initial = (do
      let values ← runAll "(def! x 1)"
      let more ← runAll tail
      return values ++ more) noFiles initial := by
  have heval : ∀ (source : String) (forms : List Value) {values : List Value} {results : Results},
      readPrefix {} source = (forms, none) →
        ((forms.mapM submit noFiles initial).map fun outcome => outcome.1.toOption) = some (some values) →
          Results.Of values results → ∃ s', eval source noFiles initial = some (.ok results, s') := by
    intro source forms values results hread hvalues hresults
    obtain ⟨stream, hreads, hend⟩ := readPrefix_eq_iff.mp hread
    obtain ⟨s', hevaluates⟩ := exists_evaluates hvalues
    have hrun := ((runAll_inOrder noFiles source initial).1 _ s').mpr
      (.inl ⟨forms, stream, values, hreads, hevaluates, .inl ⟨hend, rfl⟩⟩)
    exact ⟨s', ((runAll_inOrder noFiles source initial).2.1 _ s').mpr (.inl ⟨values, results, hrun, hresults, rfl⟩)⟩
  refine ⟨?_, ?_, ?_, ?_, ?_⟩
  · exact heval "; nothing" [] (by rfl) (by decide +kernel) .none
  · exact heval "(+ 1 2)" [.list [.symbol "+", .int 1, .int 2]] (by rfl) (by decide +kernel) (.one (.int 3))
  · exact heval "(def! x 1) (+ x 1)"
      [.list [.symbol "def!", .symbol "x", .int 1], .list [.symbol "+", .symbol "x", .int 1]]
      (by rfl) (by decide +kernel) (.several (by decide))
  · have hthrow : ((evaluate (.list [.symbol "throw", .text "up"]) rootFrame noFiles initial.machine).map
        fun outcome => thrownValue? outcome.1) = some (some (.text "up")) := by decide +kernel
    obtain ⟨⟨r, m⟩, hform, hthrown⟩ := Option.map_eq_some_iff.mp hthrow
    have hr : r = .error (.thrown (.text "up")) := by
      dsimp only at hthrown
      unfold thrownValue? at hthrown
      split at hthrown
      · cases hthrown
        rfl
      · cases hthrown
    subst hr
    have hreads : TokenStream.Reads {} (.ofSource "(throw \"up\") )") [.list [.symbol "throw", .text "up"]]
        ⟨[], [.single (.closer .round) ')'], none⟩ := .cons (by rfl) .nil
    exact ⟨_, (runAll_inOrder noFiles "(throw \"up\") )" initial).2.2.1 _ _ _ _ hreads (.last hform)⟩
  · exact (runAll_inOrder noFiles "(def! x 1)" initial).2.2.2
      [.list [.symbol "def!", .symbol "x", .int 1]] (by rfl)

end Session

end SmallLisp
