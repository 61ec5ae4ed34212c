import SmallLisp.Proofs.Evolution
import SmallLisp.Proofs.Relation

/-! What evaluation depends on and what it leaves alone. Evaluating a form in a frame binds names there, in
frames that it makes itself, and, through `eval`, in the root frame; a `let*` form and a call do not even bind
names in the frame that they are evaluated in. And nothing that evaluation does depends on the numbers of
frames and closures. Each step of the evaluator has both properties if the nested work has them, so whole runs
have them, whether they end with a value or with an error. -/

namespace SmallLisp

open EvalM Frames

/-! ### The frames of a task -/

/-- All that a task mentions exists. -/
def Task.InScope (size : Nat) : Task → Prop
  | .eval form frame => form.InScope size ∧ frame < size
  | .call fn args caller => fn.InScope size ∧ (∀ v ∈ args, v.InScope size) ∧ caller < size

/-- Whether a form is one with local bindings, whose parts are all evaluated in a frame of its own. -/
def Value.isLocal : Value → Bool
  | .list (head :: _) => head.specialForm? == some .localBindings
  | _ => false

/-- The frame in which a task may bind names: that of a form, unless the form has a frame of its own. -/
def Task.Binds : Task → Nat → Prop
  | .eval form frame, i => i = frame ∧ form.isLocal = false
  | .call _ _ _, _ => False

/-- The existing frames that a task may write to, if some are open to everyone. -/
def Task.Writes (opened : Nat → Prop) (task : Task) (i : Nat) : Prop := opened i ∨ task.Binds i

/-- What a step comes to: a value over existing frames, or a form to go on with in a writable frame. -/
def Step.Stays (writable : Nat → Prop) (size : Nat) : Step → Prop
  | .value v => v.InScope size
  | .next form frame => form.InScope size ∧ frame < size ∧ writable frame

/-! ### Names that are no symbols, and what is no function -/

theorem Value.rename_not_symbol {ρ : Renumbering} {v : Value} (h : ¬∃ s, v = .symbol s) :
    ¬∃ s, v.rename ρ = .symbol s := by
  rintro ⟨s, hs⟩
  cases v <;> simp_all

theorem bindLocals_of_not_symbol {name : Value} (h : ¬∃ s, name = .symbol s) {nested : Nested} {frame : Nat}
    {form : Value} {pairs : List (Value × Value)} :
    bindLocals nested frame ((name, form) :: pairs) =
      (described name >>= fun shown => throw (.bindings (.notSymbol shown))) := by
  cases name <;> first | rfl | exact absurd ⟨_, rfl⟩ h

theorem define_of_not_symbol {name : Value} (h : ¬∃ s, name = .symbol s) {nested : Nested} {frame : Nat}
    {body : Value} :
    SpecialForm.define.step nested frame [name, body] =
      (described name >>= fun shown => throw (.definedNotSymbol shown)) := by
  cases name <;> first | rfl | exact absurd ⟨_, rfl⟩ h

theorem applyStep_of_not_function {fn : Value} (h : fn.passes .isFunction = false) {nested : Nested}
    {args : List Value} {caller : Nat} :
    applyStep nested fn args caller =
      (printed .readable "" [fn] >>= fun shown => throw (.notCallable shown)) := by
  cases fn <;> first | rfl | cases h

/-- The arguments with the elements of the last one in its place have every property that the arguments have, if
elements have it with the whole. -/
theorem Value.forall_spread {P : Value → Prop}
    (helements : ∀ {v items}, P v → v.elements? = some items → ∀ item ∈ items, P item) {arg : Value}
    {more items : List Value} (hmore : ∀ v ∈ arg :: more, P v)
    (hitems : ((arg :: more).getLast (List.cons_ne_nil arg more)).elements? = some items) :
    ∀ v ∈ (arg :: more).dropLast ++ items, P v := by
  intro v hv
  rcases List.mem_append.mp hv with hv | hv
  · exact hmore v (List.dropLast_subset _ hv)
  · exact helements (hmore _ (List.getLast_mem _)) hitems v hv

/-! ### Steps that differ in how functions are applied -/

/-- A way to apply a function to arguments, from a frame, with a nested evaluator. -/
abbrev Applying := Nested → Value → List Value → Nat → EvalM Step

/-- A step of the evaluator with another way to apply functions. -/
def stepBy (applying : Applying) (nested : Nested) : Task → EvalM Step
  | .call fn args caller => applying nested fn args caller
  | .eval (.list (head :: tail)) frame =>
    match head.specialForm? with
    | some form => form.step nested frame tail
    | none => do
      let fn ← nested (.eval head frame)
      let args ← tail.mapM fun form => nested (.eval form frame)
      applying nested fn args frame
  | .eval form frame => do
    let v ← evalParts nested frame form
    return .value v

/-- A run with another way to apply functions. -/
def runBy (applying : Applying) : Nat → Nat → Task → EvalM Value
  | 0, _, _ => outOfSteps
  | steps + 1, 0, task => do
    let s ← stepBy applying (fun _ => throw (.overrun .depth)) task
    s.finish (runBy applying steps 0)
  | steps + 1, room + 1, task => do
    let s ← stepBy applying (runBy applying steps room) task
    s.finish (runBy applying steps (room + 1))

theorem stepBy_applyStep : stepBy applyStep = step := by
  funext nested task
  unfold stepBy step
  rfl

theorem runBy_applyStep (steps : Nat) : runBy applyStep steps = run steps := by
  induction steps with
  | zero => rfl
  | succ steps ih =>
      funext room task
      cases room <;> simp only [runBy, run_succ, nestedRun, ih, stepBy_applyStep]

/-- Applies a function, but breaks off, without an outcome, where the function is `eval`. -/
def applySparing (nested : Nested) (fn : Value) (args : List Value) (caller : Nat) : EvalM Step :=
  match fn with
  | .builtin .eval => outOfSteps
  | fn => applyStep nested fn args caller

/-- Within the limits of the context the task comes to an end without a call of `eval`: it does so even for an
evaluator that breaks off at the first such call. -/
def Task.SparesEval (task : Task) (ctx : Context) (m : Machine) : Prop :=
  (runBy applySparing ctx.limits.steps ctx.limits.depth task ctx m).isSome

theorem below_applySparing {nested nested' : Nested}
    (hnested : ∀ task, Below Value (nested task) fun _ => nested' task) (fn : Value) (args : List Value)
    (caller : Nat) :
    Below Step (applySparing nested fn args caller) fun _ => applyStep nested' fn args caller := by
  unfold applySparing
  split
  · exact fun _ _ _ h => nomatch h
  · exact Below.sequential.applyStep hnested _ args caller

theorem below_stepBy {nested nested' : Nested}
    (hnested : ∀ task, Below Value (nested task) fun _ => nested' task) (task : Task) :
    Below Step (stepBy applySparing nested task) fun _ => step nested' task := by
  have hR := Below.sequential
  have hparts : ∀ frame form, Below Step (evalParts nested frame form >>= fun v => pure (.value v))
      fun _ => evalParts nested' frame form >>= fun v => pure (.value v) :=
    fun frame form => hR.bind (hR.evalParts hnested frame form) fun v => hR.pure _
  cases task with
  | call fn args caller => exact below_applySparing hnested fn args caller
  | eval form frame =>
      cases form with
      | list items =>
          cases items with
          | nil => exact hparts _ _
          | cons head tail =>
              simp only [stepBy, step]
              cases head.specialForm? with
              | some form => exact hR.specialForm hnested frame form tail
              | none =>
                  exact hR.bind (hnested _) fun fn =>
                    hR.bind (hR.mapM (fun form => hnested _) _) fun args => below_applySparing hnested _ _ _
      | _ => exact hparts _ _

/-- Where the evaluator that breaks off comes to an end, the evaluator comes to the same end. -/
theorem below_runBy (steps room : Nat) (task : Task) :
    Below Value (runBy applySparing steps room task) fun _ => run steps room task := by
  induction steps generalizing room task with
  | zero => exact fun _ _ _ h => nomatch h
  | succ steps ih =>
      have hR := Below.sequential
      simp only [run_succ]
      cases room with
      | zero => exact hR.bind (below_stepBy (fun _ => hR.throw _) task) fun s => hR.finish (ih 0) s
      | succ room => exact hR.bind (below_stepBy (ih room) task) fun s => hR.finish (ih (room + 1)) s

theorem Task.SparesEval.run_eq {task : Task} {ctx : Context} {m : Machine} (h : task.SparesEval ctx m)
    {outcome : Except Error Value × Machine} (hperform : perform task ctx m = some outcome) :
    runBy applySparing ctx.limits.steps ctx.limits.depth task ctx m = some outcome := by
  obtain ⟨outcome', hsparing⟩ := Option.isSome_iff_exists.mp h
  have hrun : perform task ctx m = some outcome' := below_runBy _ _ task ctx m outcome' hsparing
  rw [hsparing, ← hrun, hperform]

/-! ### The effect of a step -/

/-- From a machine and its image, every nested task is tracked by its image and writes only where it may. -/
def Nested.Tracks (ρ : Renumbering) (opened : Nat → Prop) (nested nested' : Nested) (ctx : Context) : Prop :=
  ∀ task m m', m.Image ρ m' → task.InScope m.frames.size →
    SmallLisp.Tracks ρ (task.Writes opened) (Value.rename ρ) Value.InScope (nested task)
      (nested' (task.rename ρ)) ctx m m'

section

variable {ρ : Renumbering} {opened writable : Nat → Prop} {nested nested' : Nested} {ctx : Context}
  {m m' : Machine} (hnested : Nested.Tracks ρ opened nested nested' ctx)
  (hopened : ∀ i, opened i → writable i)
include hnested hopened

theorem Nested.Tracks.eval (h : m.Image ρ m') {form : Value} {frame : Nat}
    (hform : form.InScope m.frames.size) (hframe : frame < m.frames.size) (hwritable : writable frame) :
    SmallLisp.Tracks ρ writable (Value.rename ρ) Value.InScope (nested (.eval form frame))
      (nested' (.eval (form.rename ρ) (ρ.frame frame))) ctx m m' := by
  refine (hnested (.eval form frame) m m' h ⟨hform, hframe⟩).weaken fun i _ hi => ?_
  rcases hi with hi | ⟨rfl, _⟩
  · exact hopened i hi
  · exact hwritable

theorem Nested.Tracks.call (h : m.Image ρ m') {fn : Value} {args : List Value} {caller : Nat}
    (hfn : fn.InScope m.frames.size) (hargs : ∀ v ∈ args, v.InScope m.frames.size)
    (hcaller : caller < m.frames.size) :
    SmallLisp.Tracks ρ writable (Value.rename ρ) Value.InScope (nested (.call fn args caller))
      (nested' (.call (fn.rename ρ) (args.map (Value.rename ρ)) (ρ.frame caller))) ctx m m' := by
  refine (hnested (.call fn args caller) m m' h ⟨hfn, hargs, hcaller⟩).weaken fun i _ hi => ?_
  rcases hi with hi | hi
  · exact hopened i hi
  · exact hi.elim

theorem Nested.Tracks.evalAll (h : m.Image ρ m') {frame : Nat} (hframe : frame < m.frames.size)
    (hwritable : writable frame) {forms : List Value} (hforms : ∀ form ∈ forms, form.InScope m.frames.size) :
    SmallLisp.Tracks ρ writable (List.map (Value.rename ρ)) (fun size vs => ∀ v ∈ vs, v.InScope size)
      (forms.mapM fun form => nested (.eval form frame))
      ((forms.map (Value.rename ρ)).mapM fun form => nested' (.eval form (ρ.frame frame))) ctx m m' :=
  SmallLisp.Tracks.mapM (Value.rename ρ) Value.InScope h Value.InScope.mono fun form hform _ _ h₁ himage₁ =>
    hnested.eval hopened himage₁ ((hforms form hform).mono h₁.size_le) (Nat.lt_of_lt_of_le hframe h₁.size_le)
      hwritable

theorem Nested.Tracks.evalEntries (h : m.Image ρ m') {frame : Nat} (hframe : frame < m.frames.size)
    (hwritable : writable frame) {entries : List (String × Value)}
    (hentries : ∀ entry ∈ entries, entry.2.InScope m.frames.size) :
    SmallLisp.Tracks ρ writable (List.map fun entry => (entry.1, entry.2.rename ρ))
      (fun size entries => ∀ entry ∈ entries, entry.2.InScope size)
      (entries.mapM fun (key, form) => do return (key, ← nested (.eval form frame)))
      ((entries.map fun entry => (entry.1, entry.2.rename ρ)).mapM fun (key, form) => do
        return (key, ← nested' (.eval form (ρ.frame frame)))) ctx m m' := by
  refine Tracks.mapM (fun entry : String × Value => (entry.1, entry.2.rename ρ))
    (fun size entry => entry.2.InScope size) h Value.InScope.mono fun entry hentry m₁ m₁' h₁ himage₁ => ?_
  have hin := (hentries entry hentry).mono h₁.size_le
  refine (hnested.eval hopened himage₁ hin (Nat.lt_of_lt_of_le hframe h₁.size_le) hwritable).bind
    fun v m₂ m₂' _ himage₂ hv => ?_
  exact Tracks.pure (a := (entry.1, v)) himage₂ hv

theorem Nested.Tracks.callEach (h : m.Image ρ m') {fn : Value} {items : List Value} {caller : Nat}
    (hfn : fn.InScope m.frames.size) (hitems : ∀ v ∈ items, v.InScope m.frames.size)
    (hcaller : caller < m.frames.size) :
    SmallLisp.Tracks ρ writable (List.map (Value.rename ρ)) (fun size vs => ∀ v ∈ vs, v.InScope size)
      (items.mapM fun x => nested (.call fn [x] caller))
      ((items.map (Value.rename ρ)).mapM fun x => nested' (.call (fn.rename ρ) [x] (ρ.frame caller))) ctx m m' := by
  refine Tracks.mapM (Value.rename ρ) Value.InScope h Value.InScope.mono fun x hx m₁ m₁' h₁ himage₁ => ?_
  refine hnested.call hopened himage₁ (hfn.mono h₁.size_le) (fun v hv => ?_)
    (Nat.lt_of_lt_of_le hcaller h₁.size_le)
  rw [List.mem_singleton.mp hv]
  exact (hitems x hx).mono h₁.size_le

theorem tracks_bindLocals (h : m.Image ρ m') {frame : Nat} (hframe : frame < m.frames.size)
    (hwritable : writable frame) {pairs : List (Value × Value)}
    (hpairs : ∀ pair ∈ pairs, pair.2.InScope m.frames.size) :
    Tracks ρ writable (fun u => u) (fun _ _ => True) (bindLocals nested frame pairs)
      (bindLocals nested' (ρ.frame frame) (pairs.map (Prod.map (Value.rename ρ) (Value.rename ρ)))) ctx m m' := by
  induction pairs generalizing m m' with
  | nil => exact Tracks.pure h trivial
  | cons pair pairs ih =>
      obtain ⟨name, form⟩ := pair
      by_cases hname : ∃ s, name = .symbol s
      · obtain ⟨s, rfl⟩ := hname
        have hform := hpairs _ List.mem_cons_self
        simp only [List.map_cons, Prod.map_apply, Value.rename_symbol, bindLocals]
        refine (hnested.eval hopened h hform hframe hwritable).bind fun v m₁ m₁' h₁ himage₁ hv => ?_
        refine (Tracks.bindName himage₁ hwritable s hv).bind fun _ m₂ m₂' h₂ himage₂ _ => ?_
        have hle := (h₁.trans h₂).size_le
        exact ih himage₂ (Nat.lt_of_lt_of_le hframe hle) fun pair hpair =>
          (hpairs pair (List.mem_cons_of_mem _ hpair)).mono hle
      · rw [List.map_cons, Prod.map_apply, bindLocals_of_not_symbol hname,
          bindLocals_of_not_symbol (Value.rename_not_symbol hname)]
        exact (Tracks.described h name).bind fun shown m₁ m₁' _ himage₁ _ => Tracks.throw himage₁ trivial

theorem tracks_runSequence (h : m.Image ρ m') {frame : Nat} (hframe : frame < m.frames.size)
    (hwritable : writable frame) {form : Value} {forms : List Value}
    (hforms : ∀ v ∈ form :: forms, v.InScope m.frames.size) :
    Tracks ρ writable (Step.rename ρ) (Step.Stays writable) (runSequence nested frame form forms)
      (runSequence nested' (ρ.frame frame) (form.rename ρ) (forms.map (Value.rename ρ))) ctx m m' := by
  induction forms generalizing form m m' with
  | nil => exact Tracks.pure h ⟨hforms form List.mem_cons_self, hframe, hwritable⟩
  | cons next forms ih =>
      have hform := hforms form List.mem_cons_self
      simp only [List.map_cons, runSequence]
      refine (hnested.eval hopened h hform hframe hwritable).bind fun _ m₁ m₁' h₁ himage₁ _ => ?_
      exact ih himage₁ (Nat.lt_of_lt_of_le hframe h₁.size_le) fun v hv =>
        (hforms v (List.mem_cons_of_mem _ hv)).mono h₁.size_le

omit hnested hopened in
theorem tracks_makeClosure (h : m.Image ρ m') {frame : Nat} (hframe : frame < m.frames.size)
    (params : Value) {body : Value} (hbody : body.InScope m.frames.size) :
    Tracks ρ writable (Value.rename ρ) Value.InScope (makeClosure params body frame)
      (makeClosure (params.rename ρ) (body.rename ρ) (ρ.frame frame)) ctx m m' := by
  unfold makeClosure
  rw [Params.ofForm_rename]
  split
  · refine (Tracks.freshStamp h).bind fun stamp m₁ m₁' h₁ himage₁ _ => ?_
    rw [← Value.rename_closure]
    exact Tracks.pure himage₁ (.closure (Nat.lt_of_lt_of_le hframe h₁.size_le) (hbody.mono h₁.size_le))
  · exact Tracks.throw h trivial

omit hnested hopened in
theorem tracks_formArity (h : m.Image ρ m') (form : SpecialForm) (parts : List Value) :
    Tracks ρ writable (Step.rename ρ) (Step.Stays writable) (throw (.formArity form parts.length))
      (throw (.formArity form (parts.map (Value.rename ρ)).length)) ctx m m' := by
  rw [List.length_map]
  exact Tracks.throw h trivial

theorem tracks_define (h : m.Image ρ m') {frame : Nat} (hframe : frame < m.frames.size)
    (hwritable : writable frame) {name body : Value} (hbody : body.InScope m.frames.size) :
    Tracks ρ writable (Step.rename ρ) (Step.Stays writable) (SpecialForm.define.step nested frame [name, body])
      (SpecialForm.define.step nested' (ρ.frame frame) [name.rename ρ, body.rename ρ]) ctx m m' := by
  by_cases hname : ∃ s, name = .symbol s
  · obtain ⟨s, rfl⟩ := hname
    rw [Value.rename_symbol]
    refine (hnested.eval hopened h hbody hframe hwritable).bind fun v m₁ m₁' h₁ himage₁ hv => ?_
    refine (Tracks.bindName himage₁ hwritable s hv).bind fun _ m₂ m₂' h₂ himage₂ _ => ?_
    exact Tracks.pure himage₂ (hv.mono h₂.size_le)
  · rw [define_of_not_symbol hname, define_of_not_symbol (Value.rename_not_symbol hname)]
    exact (Tracks.described h name).bind fun shown m₁ m₁' _ himage₁ _ => Tracks.throw himage₁ trivial

/-- Local bindings are made in a new frame, and nothing is written to the one around it. -/
theorem tracks_localBindings (h : m.Image ρ m') {frame : Nat} (hframe : frame < m.frames.size)
    {bindings body : Value} (hbindings : bindings.InScope m.frames.size) (hbody : body.InScope m.frames.size)
    (hnew : ∀ i, m.frames.size ≤ i → writable i) :
    Tracks ρ writable (Step.rename ρ) (Step.Stays writable)
      (SpecialForm.localBindings.step nested frame [bindings, body])
      (SpecialForm.localBindings.step nested' (ρ.frame frame) [bindings.rename ρ, body.rename ρ]) ctx m m' := by
  simp only [SpecialForm.step, Value.elements?_rename]
  cases hitems : bindings.elements? with
  | none => exact Tracks.throw h trivial
  | some items =>
      simp only [Option.map_some, Assoc.pairUp?_map]
      cases hpairs : Assoc.pairUp? items with
      | none => exact Tracks.throw h trivial
      | some pairs =>
          have hforms : ∀ pair ∈ pairs, pair.2.InScope m.frames.size := fun pair hpair =>
            hbindings.elements hitems _ (Assoc.mem_pairUp? hpairs pair hpair).2
          refine (Tracks.extendFrame h hframe fun pair hpair => (List.not_mem_nil hpair).elim).bind
            fun inner m₁ m₁' h₁ himage₁ hinner => ?_
          have hw : writable inner := hnew inner (Nat.le_of_eq hinner.1.symm)
          refine (tracks_bindLocals hnested hopened himage₁ hinner.2 hw fun pair hpair =>
            (hforms pair hpair).mono h₁.size_le).bind fun _ m₂ m₂' h₂ himage₂ _ => ?_
          exact Tracks.pure himage₂ ⟨hbody.mono (h₁.trans h₂).size_le,
            Nat.lt_of_lt_of_le hinner.2 h₂.size_le, hw⟩

theorem tracks_conditional (h : m.Image ρ m') {frame : Nat} (hframe : frame < m.frames.size)
    (hwritable : writable frame) {condition thenForm elseForm : Value}
    (hcondition : condition.InScope m.frames.size) (hthen : thenForm.InScope m.frames.size)
    (helse : elseForm.InScope m.frames.size) :
    Tracks ρ writable (Step.rename ρ) (Step.Stays writable)
      (SpecialForm.conditional.step nested frame [condition, thenForm, elseForm])
      (SpecialForm.conditional.step nested' (ρ.frame frame)
        [condition.rename ρ, thenForm.rename ρ, elseForm.rename ρ]) ctx m m' := by
  refine (hnested.eval hopened h hcondition hframe hwritable).bind fun v m₁ m₁' h₁ himage₁ _ => ?_
  have hchosen :
      Step.next (if (v.rename ρ).isTruthy then thenForm.rename ρ else elseForm.rename ρ) (ρ.frame frame) =
        (Step.next (if v.isTruthy then thenForm else elseForm) frame).rename ρ := by
    rw [Value.isTruthy_rename]
    split <;> rfl
  rw [hchosen]
  refine Tracks.pure himage₁ ⟨?_, Nat.lt_of_lt_of_le hframe h₁.size_le, hwritable⟩
  split
  · exact hthen.mono h₁.size_le
  · exact helse.mono h₁.size_le

/-- A special form writes to the frame that it is evaluated in, unless it is the one with local bindings, which
writes to the new frame that it makes. -/
theorem tracks_specialForm (h : m.Image ρ m') {frame : Nat} (hframe : frame < m.frames.size)
    {form : SpecialForm} {parts : List Value} (hparts : ∀ v ∈ parts, v.InScope m.frames.size)
    (hnew : ∀ i, m.frames.size ≤ i → writable i) (hwritable : form ≠ .localBindings → writable frame) :
    Tracks ρ writable (Step.rename ρ) (Step.Stays writable) (form.step nested frame parts)
      (form.step nested' (ρ.frame frame) (parts.map (Value.rename ρ))) ctx m m' := by
  cases form with
  | define =>
      have hw := hwritable (by decide)
      rcases parts with _ | ⟨name, _ | ⟨body, _ | ⟨extra, rest⟩⟩⟩
      · exact tracks_formArity h .define []
      · exact tracks_formArity h .define [name]
      · exact tracks_define hnested hopened h hframe hw (hparts body (by simp))
      · exact tracks_formArity h .define (name :: body :: extra :: rest)
  | localBindings =>
      rcases parts with _ | ⟨bindings, _ | ⟨body, _ | ⟨extra, rest⟩⟩⟩
      · exact tracks_formArity h .localBindings []
      · exact tracks_formArity h .localBindings [bindings]
      · exact tracks_localBindings hnested hopened h hframe (hparts bindings (by simp)) (hparts body (by simp))
          hnew
      · exact tracks_formArity h .localBindings (bindings :: body :: extra :: rest)
  | sequence =>
      have hw := hwritable (by decide)
      rcases parts with _ | ⟨form, forms⟩
      · exact tracks_formArity h .sequence []
      · exact tracks_runSequence hnested hopened h hframe hw hparts
  | conditional =>
      have hw := hwritable (by decide)
      rcases parts with _ | ⟨condition, _ | ⟨thenForm, _ | ⟨elseForm, _ | ⟨extra, rest⟩⟩⟩⟩
      · exact tracks_formArity h .conditional []
      · exact tracks_formArity h .conditional [condition]
      · have hnil := tracks_conditional hnested hopened h hframe hw (hparts condition (by simp))
          (hparts thenForm (by simp)) .nil
        rw [Value.rename_nil] at hnil
        exact hnil
      · exact tracks_conditional hnested hopened h hframe hw (hparts condition (by simp))
          (hparts thenForm (by simp)) (hparts elseForm (by simp))
      · exact tracks_formArity h .conditional (condition :: thenForm :: elseForm :: extra :: rest)
  | function =>
      rcases parts with _ | ⟨params, _ | ⟨body, _ | ⟨extra, rest⟩⟩⟩
      · exact tracks_formArity h .function []
      · exact tracks_formArity h .function [params]
      · exact (tracks_makeClosure h hframe params (hparts body (by simp))).bind
          fun v m₁ m₁' _ himage₁ hv => Tracks.pure himage₁ hv
      · exact tracks_formArity h .function (params :: body :: extra :: rest)

omit hnested hopened in
theorem tracks_builtinArity (h : m.Image ρ m') (b : Builtin) (args : List Value) :
    Tracks ρ writable (Step.rename ρ) (Step.Stays writable) (throw (.builtinArity b args.length))
      (throw (.builtinArity b (args.map (Value.rename ρ)).length)) ctx m m' := by
  rw [List.length_map]
  exact Tracks.throw h trivial

omit hnested hopened in
theorem tracks_primitive (h : m.Image ρ m') (caller : Nat) (p : Primitive) {args : List Value}
    (hargs : ∀ v ∈ args, v.InScope m.frames.size) :
    Tracks ρ writable (Step.rename ρ) (Step.Stays writable) (Builtin.step nested caller (.primitive p) args)
      (Builtin.step nested' (ρ.frame caller) (.primitive p) (args.map (Value.rename ρ))) ctx m m' := by
  refine (Tracks.read h).bind fun ctx' m₁ m₁' h₁ himage₁ hctx => ?_
  have hrun := p.safe_run ctx' m₁.frames.size fun v hv => (hargs v hv).mono h₁.size_le
  exact (Tracks.ofExcept Value.InScope himage₁ (p.run_rename ctx' args) hrun).bind
    fun v m₂ m₂' _ himage₂ hv => Tracks.pure himage₂ hv

theorem tracks_apply (h : m.Image ρ m') {caller : Nat} (hcaller : caller < m.frames.size) {fn arg : Value}
    {more : List Value} (hfn : fn.InScope m.frames.size) (hmore : ∀ v ∈ arg :: more, v.InScope m.frames.size) :
    Tracks ρ writable (Step.rename ρ) (Step.Stays writable) (Builtin.apply.step nested caller (fn :: arg :: more))
      (Builtin.apply.step nested' (ρ.frame caller) ((fn :: arg :: more).map (Value.rename ρ))) ctx m m' := by
  simp only [List.map_cons, Builtin.step]
  simp only [← List.map_cons, List.getLast_map, ← List.map_dropLast, Value.elements?_rename]
  cases hitems : ((arg :: more).getLast (List.cons_ne_nil arg more)).elements? with
  | none => exact Tracks.throw h trivial
  | some items =>
      simp only [Option.map_some, ← List.map_append]
      exact (hnested.call hopened h hfn (Value.forall_spread Value.InScope.elements hmore hitems) hcaller).bind
        fun v m₁ m₁' _ himage₁ hv => Tracks.pure himage₁ hv

theorem tracks_map (h : m.Image ρ m') {caller : Nat} (hcaller : caller < m.frames.size) {fn xs : Value}
    (hfn : fn.InScope m.frames.size) (hxs : xs.InScope m.frames.size) :
    Tracks ρ writable (Step.rename ρ) (Step.Stays writable) (Builtin.map.step nested caller [fn, xs])
      (Builtin.map.step nested' (ρ.frame caller) [fn.rename ρ, xs.rename ρ]) ctx m m' := by
  simp only [Builtin.step, Value.elements?_rename]
  cases hitems : xs.elements? with
  | none => exact Tracks.throw h trivial
  | some items =>
      refine (hnested.callEach hopened h hfn (hxs.elements hitems) hcaller).bind fun vs m₁ m₁' _ himage₁ hvs => ?_
      rw [← Value.rename_list]
      exact Tracks.pure himage₁ (.list hvs)

omit hnested hopened in
theorem tracks_printLine (h : m.Image ρ m') (style : PrintStyle) (args : List Value) :
    Tracks ρ writable (Step.rename ρ) (Step.Stays writable)
      (EvalM.printed style " " args >>= fun line => EvalM.printLine line >>= fun _ => pure (.value .nil))
      (EvalM.printed style " " (args.map (Value.rename ρ)) >>= fun line =>
        EvalM.printLine line >>= fun _ => pure (.value .nil)) ctx m m' := by
  refine (Tracks.printed h style " " args).bind fun line m₁ m₁' _ himage₁ _ => ?_
  refine (Tracks.printLine himage₁ line).bind fun _ m₂ m₂' _ himage₂ _ => ?_
  have hnil : (Step.value .nil).rename ρ = .value .nil := congrArg Step.value Value.rename_nil
  have hpure : Tracks ρ writable (Step.rename ρ) (Step.Stays writable) (pure (.value .nil))
      (pure ((Step.value .nil).rename ρ)) ctx m₂ m₂' := Tracks.pure himage₂ Value.InScope.nil
  rw [hnil] at hpure
  exact hpure

omit hnested hopened in
/-- `eval` goes on in the root frame, whose number is kept. -/
theorem tracks_eval (h : m.Image ρ m') {caller : Nat} (hcaller : caller < m.frames.size) {form : Value}
    (hform : form.InScope m.frames.size) (hroot : writable 0) :
    Tracks ρ writable (Step.rename ρ) (Step.Stays writable) (Builtin.eval.step nested caller [form])
      (Builtin.eval.step nested' (ρ.frame caller) [form.rename ρ]) ctx m m' := by
  have hstep : ∀ (nested : Nested) (caller : Nat) (form : Value) (n : Machine),
      Builtin.eval.step nested caller [form] ctx n = some (.ok (.next form (n.frames.root caller)), n) :=
    fun _ _ _ n => Computation.bind_of_ok (Computation.get_apply ctx n)
  refine Tracks.answer (hstep nested caller form m) ?_ h ?_
  · rw [hstep, h.root_eq]
    rfl
  · rw [h.wellScoped.root_eq hcaller]
    exact ⟨hform, h.wellScoped.size_pos, hroot⟩

/-- A predefined function writes to no old frame itself, but `eval` goes on in the root. -/
theorem tracks_builtin (h : m.Image ρ m') {caller : Nat} (hcaller : caller < m.frames.size)
    {b : Builtin} (hroot : b = .eval → writable 0) {args : List Value}
    (hargs : ∀ v ∈ args, v.InScope m.frames.size) :
    Tracks ρ writable (Step.rename ρ) (Step.Stays writable) (b.step nested caller args)
      (b.step nested' (ρ.frame caller) (args.map (Value.rename ρ))) ctx m m' := by
  cases b with
  | primitive p => exact tracks_primitive h caller p hargs
  | prn => exact tracks_printLine h .readable args
  | println => exact tracks_printLine h .raw args
  | apply =>
      rcases args with _ | ⟨fn, _ | ⟨arg, more⟩⟩
      · exact tracks_builtinArity h .apply []
      · exact tracks_builtinArity h .apply [fn]
      · exact tracks_apply hnested hopened h hcaller (hargs fn List.mem_cons_self)
          fun v hv => hargs v (List.mem_cons_of_mem _ hv)
  | map =>
      rcases args with _ | ⟨fn, _ | ⟨xs, _ | ⟨extra, rest⟩⟩⟩
      · exact tracks_builtinArity h .map []
      · exact tracks_builtinArity h .map [fn]
      · exact tracks_map hnested hopened h hcaller (hargs fn (by simp)) (hargs xs (by simp))
      · exact tracks_builtinArity h .map (fn :: xs :: extra :: rest)
  | eval =>
      rcases args with _ | ⟨form, _ | ⟨extra, rest⟩⟩
      · exact tracks_builtinArity h .eval []
      · exact tracks_eval h hcaller (hargs form List.mem_cons_self) (hroot rfl)
      · exact tracks_builtinArity h .eval (form :: extra :: rest)

omit hnested hopened in
theorem tracks_closure (h : m.Image ρ m') {stamp captured caller : Nat} {params : Params} {body : Value}
    {args : List Value} (hcaptured : captured < m.frames.size) (hbody : body.InScope m.frames.size)
    (hargs : ∀ v ∈ args, v.InScope m.frames.size) (hnew : ∀ i, m.frames.size ≤ i → writable i) :
    Tracks ρ writable (Step.rename ρ) (Step.Stays writable)
      (applyStep nested (.closure stamp params body captured) args caller)
      (applyStep nested' (.closure (ρ.stamp stamp) params (body.rename ρ) (ρ.frame captured))
        (args.map (Value.rename ρ)) (ρ.frame caller)) ctx m m' := by
  refine (Tracks.ofExcept (fun size pairs => ∀ pair ∈ pairs, pair.2.InScope size) h
    (params.assign_rename args) (params.safe_assign hargs)).bind fun pairs m₁ m₁' h₁ himage₁ hpairs => ?_
  have hcaptured := Nat.lt_of_lt_of_le hcaptured h₁.size_le
  refine (Tracks.extendFrame himage₁ hcaptured hpairs).bind fun frame m₂ m₂' h₂ himage₂ hframe => ?_
  refine Tracks.pure himage₂ ⟨hbody.mono (h₁.trans h₂).size_le, hframe.2, hnew frame ?_⟩
  rw [hframe.1]
  exact h₁.size_le

/-- Applying a function other than `eval` goes on in a new frame, if at all; `eval` goes on in the root. -/
theorem tracks_applyStep (h : m.Image ρ m') {fn : Value} {args : List Value} {caller : Nat}
    (hfn : fn.InScope m.frames.size) (hargs : ∀ v ∈ args, v.InScope m.frames.size)
    (hcaller : caller < m.frames.size) (hnew : ∀ i, m.frames.size ≤ i → writable i)
    (hroot : fn = .builtin .eval → writable 0) :
    Tracks ρ writable (Step.rename ρ) (Step.Stays writable) (applyStep nested fn args caller)
      (applyStep nested' (fn.rename ρ) (args.map (Value.rename ρ)) (ρ.frame caller)) ctx m m' := by
  cases hcallable : fn.passes .isFunction with
  | true =>
      cases fn with
      | closure stamp params body captured =>
          obtain ⟨hcaptured, hbody⟩ := Value.inScope_closure.mp hfn
          rw [Value.rename_closure]
          exact tracks_closure h hcaptured hbody hargs hnew
      | builtin b =>
          rw [Value.rename_builtin]
          exact tracks_builtin hnested hopened h hcaller (fun hb => hroot (hb ▸ rfl)) hargs
      | _ => cases hcallable
  | false =>
      rw [applyStep_of_not_function hcallable,
        applyStep_of_not_function ((Value.passes_rename .isFunction fn).trans hcallable)]
      exact (Tracks.printed h .readable "" [fn]).bind
        fun shown m₁ m₁' _ himage₁ _ => Tracks.throw himage₁ trivial

theorem tracks_evalParts (h : m.Image ρ m') {frame : Nat} (hframe : frame < m.frames.size)
    (hwritable : writable frame) {form : Value} (hform : form.InScope m.frames.size) :
    Tracks ρ writable (Value.rename ρ) Value.InScope (evalParts nested frame form)
      (evalParts nested' (ρ.frame frame) (form.rename ρ)) ctx m m' := by
  cases form with
  | symbol name =>
      rw [Value.rename_symbol]
      exact Tracks.lookup h frame name
  | list items =>
      simp only [Value.rename_list, evalParts]
      refine (hnested.evalAll hopened h hframe hwritable (Value.inScope_list.mp hform)).bind
        fun vs m₁ m₁' _ himage₁ hvs => ?_
      rw [← Value.rename_list]
      exact Tracks.pure himage₁ (.list hvs)
  | vector items =>
      simp only [Value.rename_vector, evalParts]
      refine (hnested.evalAll hopened h hframe hwritable (Value.inScope_vector.mp hform)).bind
        fun vs m₁ m₁' _ himage₁ hvs => ?_
      rw [← Value.rename_vector]
      exact Tracks.pure himage₁ (.vector hvs)
  | map entries =>
      simp only [Value.rename_map, evalParts]
      refine (hnested.evalEntries hopened h hframe hwritable (Value.inScope_map.mp hform)).bind
        fun vs m₁ m₁' _ himage₁ hvs => ?_
      rw [← Value.rename_map]
      exact Tracks.pure himage₁ (.map hvs)
  | _ =>
      have hself : Tracks ρ writable (Value.rename ρ) Value.InScope (pure _) (pure (Value.rename ρ _)) ctx m m' :=
        Tracks.pure h hform
      simpa [evalParts] using hself

end

/-- A way to apply functions that writes to new frames and to the open ones only, and that any renumbering
carries over. -/
def Applying.Tracks (ρ : Renumbering) (opened : Nat → Prop) (applying : Applying) (ctx : Context) : Prop :=
  ∀ {nested nested' : Nested} {writable : Nat → Prop} {m m' : Machine} {fn : Value} {args : List Value}
    {caller : Nat},
    Nested.Tracks ρ opened nested nested' ctx → (∀ i, opened i → writable i) → m.Image ρ m' →
    fn.InScope m.frames.size → (∀ v ∈ args, v.InScope m.frames.size) → caller < m.frames.size →
    (∀ i, m.frames.size ≤ i → writable i) →
    SmallLisp.Tracks ρ writable (Step.rename ρ) (Step.Stays writable) (applying nested fn args caller)
      (applying nested' (fn.rename ρ) (args.map (Value.rename ρ)) (ρ.frame caller)) ctx m m'

theorem Applying.tracks_applyStep (ρ : Renumbering) (ctx : Context) : Applying.Tracks ρ (· = 0) applyStep ctx :=
  fun hnested hopened h hfn hargs hcaller hnew =>
    SmallLisp.tracks_applyStep hnested hopened h hfn hargs hcaller hnew fun _ => hopened 0 rfl

theorem applySparing_of_ne {fn : Value} (h : fn ≠ .builtin .eval) (nested : Nested) (args : List Value)
    (caller : Nat) : applySparing nested fn args caller = applyStep nested fn args caller := by
  unfold applySparing
  split
  · exact absurd rfl h
  · rfl

theorem Applying.tracks_applySparing (ρ : Renumbering) (ctx : Context) :
    Applying.Tracks ρ (fun _ => False) applySparing ctx := by
  intro nested nested' writable m m' fn args caller hnested hopened h hfn hargs hcaller hnew
  by_cases hfn_eval : fn = .builtin .eval
  · subst hfn_eval
    rw [Value.rename_builtin]
    exact SmallLisp.Tracks.outOfSteps
  · have hne : fn.rename ρ ≠ .builtin .eval := by
      intro heq
      cases fn <;> simp_all
    rw [applySparing_of_ne hfn_eval, applySparing_of_ne hne]
    exact SmallLisp.tracks_applyStep hnested hopened h hfn hargs hcaller hnew fun heq => absurd heq hfn_eval

section

variable {ρ : Renumbering} {opened : Nat → Prop} {applying : Applying} {ctx : Context}
  (happly : applying.Tracks ρ opened ctx)
include happly

/-- A step writes where its task may write and to new frames. -/
theorem tracks_stepBy {nested nested' : Nested} (hnested : Nested.Tracks ρ opened nested nested' ctx)
    {task : Task} {m m' : Machine} (h : m.Image ρ m') (htask : task.InScope m.frames.size) {writable : Nat → Prop}
    (htaskw : ∀ i, task.Writes opened i → writable i) (hnew : ∀ i, m.frames.size ≤ i → writable i) :
    Tracks ρ writable (Step.rename ρ) (Step.Stays writable) (stepBy applying nested task)
      (stepBy applying nested' (task.rename ρ)) ctx m m' := by
  have hopened : ∀ i, opened i → writable i := fun i hi => htaskw i (.inl hi)
  cases task with
  | call fn args caller =>
      obtain ⟨hfn, hargs, hcaller⟩ := htask
      exact happly hnested hopened h hfn hargs hcaller hnew
  | eval form frame =>
      obtain ⟨hform, hframe⟩ := htask
      have hvalue : form.isLocal = false → Tracks ρ writable (Step.rename ρ) (Step.Stays writable)
          (evalParts nested frame form >>= fun v => pure (.value v))
          (evalParts nested' (ρ.frame frame) (form.rename ρ) >>= fun v => pure (.value v)) ctx m m' :=
        fun hlocal => (tracks_evalParts hnested hopened h hframe (htaskw frame (.inr ⟨rfl, hlocal⟩)) hform).bind
          fun v m₁ m₁' _ himage₁ hv => Tracks.pure himage₁ hv
      cases form with
      | list items =>
          cases items with
          | nil => simpa only [Task.rename, Value.rename_list, List.map_nil, stepBy] using hvalue rfl
          | cons head tail =>
              have hparts := Value.inScope_list.mp hform
              have htail : ∀ v ∈ tail, v.InScope m.frames.size := fun v hv =>
                hparts v (List.mem_cons_of_mem _ hv)
              simp only [Task.rename, Value.rename_list, List.map_cons, stepBy, Value.specialForm?_rename]
              cases hspecial : head.specialForm? with
              | some form =>
                  refine tracks_specialForm hnested hopened h hframe htail hnew fun hne =>
                    htaskw frame (.inr ⟨rfl, ?_⟩)
                  simp only [Value.isLocal, hspecial]
                  cases form <;> first | rfl | exact absurd rfl hne
              | none =>
                  have hwritable : writable frame := htaskw frame (.inr ⟨rfl, by simp [Value.isLocal, hspecial]⟩)
                  refine (hnested.eval hopened h (hparts head List.mem_cons_self) hframe hwritable).bind
                    fun fn m₁ m₁' h₁ himage₁ hfn => ?_
                  have hframe₁ := Nat.lt_of_lt_of_le hframe h₁.size_le
                  refine (hnested.evalAll hopened himage₁ hframe₁ hwritable fun form hform =>
                    (htail form hform).mono h₁.size_le).bind fun args m₂ m₂' h₂ himage₂ hargs => ?_
                  exact happly hnested hopened himage₂ (hfn.mono h₂.size_le) hargs
                    (Nat.lt_of_lt_of_le hframe₁ h₂.size_le)
                    fun i hi => hnew i (Nat.le_trans (h₁.trans h₂).size_le hi)
      | _ => simpa only [Task.rename, Value.rename_nil, Value.rename_bool, Value.rename_int, Value.rename_symbol,
          Value.rename_text, Value.rename_vector, Value.rename_map, Value.rename_closure, Value.rename_builtin,
          stepBy] using hvalue rfl

/-- A run writes where its task may write. -/
theorem tracks_runBy (steps room : Nat) :
    Nested.Tracks ρ opened (runBy applying steps room) (runBy applying steps room) ctx := by
  induction steps generalizing room with
  | zero => exact fun task m m' _ _ => Tracks.outOfSteps
  | succ steps ih =>
      have hturn : ∀ nested, Nested.Tracks ρ opened nested nested ctx → ∀ task m m', m.Image ρ m' →
          task.InScope m.frames.size → Tracks ρ (task.Writes opened) (Value.rename ρ) Value.InScope
            (stepBy applying nested task >>= Step.finish (runBy applying steps room))
            (stepBy applying nested (task.rename ρ) >>= Step.finish (runBy applying steps room)) ctx m m' := by
        intro nested hnested task m m' h htask
        -- the new frames count as writable inside the turn and are left out again behind it
        have htracks : Tracks ρ (fun i => task.Writes opened i ∨ m.frames.size ≤ i) (Value.rename ρ) Value.InScope
            (stepBy applying nested task >>= Step.finish (runBy applying steps room))
            (stepBy applying nested (task.rename ρ) >>= Step.finish (runBy applying steps room)) ctx m m' := by
          refine (tracks_stepBy happly hnested h htask (fun i hi => .inl hi) fun i hi => .inr hi).bind
            fun s m₁ m₁' h₁ himage₁ hs => ?_
          cases s with
          | value v => exact Tracks.pure himage₁ hs
          | next form frame =>
              obtain ⟨hform, hframe, hw⟩ := hs
              exact (ih room).eval (fun i hi => .inl (.inl hi)) himage₁ hform hframe hw
        refine htracks.weaken fun i hi hw => ?_
        rcases hw with hw | hw
        · exact hw
        · omega
      cases room with
      | zero => exact hturn _ fun task m m' h _ => Tracks.throw h trivial
      | succ room => exact hturn _ (ih room)

end

end SmallLisp
