import SmallLisp.Proofs.Allowance

/-! Relations between evaluations. A step of the evaluator is a sequence of basic computations and of nested
work, so a relation between computations that survives sequencing, and holds between nested evaluators, holds
between the steps that are made with them. Stated here once for a computation and a family of computations,
this carries over what is known of nested work to runs of any length. -/

namespace SmallLisp

open EvalM

/-- What a step does beside nested work, one thing at a time. -/
inductive Basic : {α : Type} → EvalM α → Prop
  | answer {α : Type} (r : Except Error α) : Basic (ofExcept r)
  | lookup (frame : Nat) (name : String) : Basic (lookup frame name)
  | printed (style : PrintStyle) (separator : String) (vs : List Value) : Basic (printed style separator vs)
  | described (v : Value) : Basic (described v)
  | primitive (p : Primitive) (args : List Value) : Basic (do ofExcept (p.run (← read) args))
  | bindName (frame : Nat) (name : String) (value : Value) : Basic (bindName frame name value)
  | extendFrame (outer : Nat) (pairs : List (String × Value)) : Basic (extendFrame outer pairs)
  | freshStamp : Basic freshStamp
  | printLine (line : String) : Basic (printLine line)
  | toRoot (form : Value) (caller : Nat) : Basic (do return Step.next form ((← get).frames.root caller))

theorem Basic.limitFree {α : Type} {x : EvalM α} (h : Basic x) : Computation.LimitFree x := by
  intro ctx depth steps
  cases h with
  | answer r => cases r <;> rfl
  | lookup frame name =>
      funext m
      rw [lookup_apply, lookup_apply]
  | printed style separator vs =>
      funext m
      rw [printed_apply, printed_apply]
      rfl
  | described v =>
      funext m
      rw [described_apply, described_apply, Context.limits_allowing, Value.describe_allowing]
  | primitive p args =>
      funext m
      simp only [Computation.bind_apply, Computation.read_apply, Primitive.run_allowing, Computation.ofExcept_apply]
  | _ => rfl

/-- A relation between a computation and a family of computations that holds of a basic computation and itself, and
survives sequencing. -/
structure Sequential {ι : Type} (R : ∀ α : Type, EvalM α → (ι → EvalM α) → Prop) : Prop where
  same : ∀ {α : Type} {x : EvalM α}, Basic x → R α x fun _ => x
  bind : ∀ {α β : Type} {x : EvalM α} {xs : ι → EvalM α} {f : α → EvalM β} {fs : ι → α → EvalM β},
    R α x xs → (∀ a, R β (f a) fun i => fs i a) → R β (x >>= f) fun i => xs i >>= fs i

namespace Sequential

variable {ι : Type} {R : ∀ α : Type, EvalM α → (ι → EvalM α) → Prop} (hR : Sequential R)
include hR

protected theorem pure {α : Type} (a : α) : R α (pure a) fun _ => pure a := hR.same (.answer (.ok a))

protected theorem throw {α : Type} (e : Error) : R α (throw e) fun _ => throw e := hR.same (.answer (.error e))

protected theorem mapM {α γ : Type} {f : γ → EvalM α} {fs : ι → γ → EvalM α} (hf : ∀ c, R α (f c) fun i => fs i c)
    (cs : List γ) : R (List α) (cs.mapM f) fun i => cs.mapM (fs i) := by
  induction cs with
  | nil => exact hR.pure []
  | cons c cs ih =>
      simp only [List.mapM_cons]
      exact hR.bind (hf c) fun a => hR.bind ih fun as => hR.pure (a :: as)

variable {nested : Nested} {nesteds : ι → Nested}
  (hnested : ∀ task, R Value (nested task) fun i => nesteds i task)
include hnested

protected theorem bindLocals (frame : Nat) (pairs : List (Value × Value)) :
    R Unit (bindLocals nested frame pairs) fun i => bindLocals (nesteds i) frame pairs := by
  induction pairs with
  | nil => exact hR.pure ()
  | cons pair pairs ih =>
      obtain ⟨name, form⟩ := pair
      cases name with
      | symbol name =>
          exact hR.bind (hnested _) fun v => hR.bind (hR.same (.bindName _ _ _)) fun _ => ih
      | _ => exact hR.bind (hR.same (.described _)) fun shown => hR.throw _

protected theorem runSequence (frame : Nat) (form : Value) (forms : List Value) :
    R Step (runSequence nested frame form forms) fun i =>
      runSequence (nesteds i) frame form forms := by
  induction forms generalizing form with
  | nil => exact hR.pure _
  | cons next forms ih => exact hR.bind (hnested _) fun _ => ih next

protected theorem specialForm (frame : Nat) (form : SpecialForm) (parts : List Value) :
    R Step (form.step nested frame parts) fun i => form.step (nesteds i) frame parts := by
  unfold SpecialForm.step
  split
  · next name body =>
      cases name with
      | symbol name =>
          exact hR.bind (hnested _) fun v => hR.bind (hR.same (.bindName _ _ _)) fun _ => hR.pure _
      | _ => exact hR.bind (hR.same (.described _)) fun shown => hR.throw _
  · split
    · exact hR.throw _
    · split
      · exact hR.throw _
      · exact hR.bind (hR.same (.extendFrame _ _)) fun inner =>
          hR.bind (hR.bindLocals hnested inner _) fun _ => hR.pure _
  · exact hR.runSequence hnested frame _ _
  · exact hR.bind (hnested _) fun v => hR.pure _
  · exact hR.bind (hnested _) fun v => hR.pure _
  · refine hR.bind ?_ fun closure => hR.pure _
    unfold makeClosure
    split
    · exact hR.bind (hR.same .freshStamp) fun stamp => hR.pure _
    · exact hR.throw _
  · exact hR.throw _

protected theorem builtin (caller : Nat) (b : Builtin) (args : List Value) :
    R Step (b.step nested caller args) fun i => b.step (nesteds i) caller args := by
  unfold Builtin.step
  split
  · simpa only [bind_assoc] using hR.bind (hR.same (.primitive _ _)) fun v => hR.pure (Step.value v)
  · exact hR.bind (hR.same (.printed _ _ _)) fun line => hR.bind (hR.same (.printLine _)) fun _ => hR.pure _
  · exact hR.bind (hR.same (.printed _ _ _)) fun line => hR.bind (hR.same (.printLine _)) fun _ => hR.pure _
  · dsimp only
    split
    · exact hR.bind (hnested _) fun v => hR.pure _
    · exact hR.throw _
  · split
    · exact hR.bind (hR.mapM (fun x => hnested _) _) fun vs => hR.pure _
    · exact hR.throw _
  · exact hR.same (.toRoot _ _)
  · exact hR.throw _

protected theorem applyStep (fn : Value) (args : List Value) (caller : Nat) :
    R Step (applyStep nested fn args caller) fun i => applyStep (nesteds i) fn args caller := by
  unfold applyStep
  split
  · exact hR.bind (hR.same (.answer _)) fun pairs => hR.bind (hR.same (.extendFrame _ _)) fun frame => hR.pure _
  · exact hR.builtin hnested caller _ args
  · exact hR.bind (hR.same (.printed _ _ _)) fun shown => hR.throw _

protected theorem evalParts (frame : Nat) (form : Value) :
    R Value (evalParts nested frame form) fun i => evalParts (nesteds i) frame form := by
  unfold evalParts
  split
  · exact hR.same (.lookup frame _)
  · exact hR.bind (hR.mapM (fun item => hnested _) _) fun vs => hR.pure _
  · exact hR.bind (hR.mapM (fun item => hnested _) _) fun vs => hR.pure _
  · exact hR.bind (hR.mapM (fun entry => hR.bind (hnested _) fun v => hR.pure _) _) fun vs => hR.pure _
  · exact hR.pure _

/-- What relates nested evaluators relates the steps that are made with them. -/
protected theorem step (task : Task) : R Step (step nested task) fun i => step (nesteds i) task := by
  unfold step
  split
  · exact hR.applyStep hnested _ _ _
  · split
    · exact hR.specialForm hnested _ _ _
    · exact hR.bind (hnested _) fun fn =>
        hR.bind (hR.mapM (fun form => hnested _) _) fun args => hR.applyStep hnested _ _ _
  · exact hR.bind (hR.evalParts hnested _ _) fun v => hR.pure _

end Sequential

/-- What a computation ends with, the other one ends with. -/
def Below (α : Type) (x : EvalM α) (y : Unit → EvalM α) : Prop :=
  ∀ ctx m outcome, x ctx m = some outcome → y () ctx m = some outcome

theorem Below.sequential : Sequential Below where
  same _ _ _ _ h := h
  bind {α β x y f g} hx hf ctx m outcome h := by
    rcases Computation.bind_eq_some h with ⟨a, m', ha, hrest⟩ | ⟨e, m', he, rfl⟩
    · exact (Computation.bind_of_ok (hx ctx m _ ha)).trans (hf a ctx m' _ hrest)
    · exact Computation.bind_of_error (hx ctx m _ he)

/-! ### Runs -/

/-- What is left to do behind a step: nothing, or to go on with the next form. -/
def Step.finish (go : Task → EvalM Value) : Step → EvalM Value
  | .value v => return v
  | .next form frame => go (.eval form frame)

/-- The nested evaluator of a run: a run with one step less, one level deeper if there is room for it. -/
def nestedRun (steps : Nat) : Nat → Nested
  | 0 => fun _ => throw (.overrun .depth)
  | room + 1 => run steps room

theorem run_succ (steps room : Nat) (task : Task) :
    run (steps + 1) room task = step (nestedRun steps room) task >>= Step.finish (run steps room) := by
  cases room <;> rfl

section

variable {steps room : Nat} {task : Task} {ctx : Context} {m m' : Machine}

/-- A step that comes to a value is the whole run. -/
theorem run_of_value {x : EvalM Value}
    (h : step (nestedRun steps room) task ctx m = (x >>= fun v => pure (.value v)) ctx m) :
    run (steps + 1) room task ctx m = x ctx m := by
  rw [run_succ, Computation.bind_apply, h, ← Computation.bind_apply]
  simp only [bind_assoc, pure_bind, Step.finish, bind_pure]

/-- A run goes on with the form that a step passes on. -/
theorem run_of_next {form : Value} {frame : Nat}
    (h : step (nestedRun steps room) task ctx m = some (.ok (.next form frame), m')) :
    run (steps + 1) room task ctx m = run steps room (.eval form frame) ctx m' := by
  rw [run_succ, Computation.bind_of_ok h]
  rfl

end

theorem Sequential.finish {ι : Type} {R : ∀ α : Type, EvalM α → (ι → EvalM α) → Prop} (hR : Sequential R)
    {go : Task → EvalM Value} {gos : ι → Task → EvalM Value}
    (hgo : ∀ task, R Value (go task) fun i => gos i task) (s : Step) :
    R Value (s.finish go) fun i => s.finish (gos i) := by
  cases s with
  | value v => exact hR.pure v
  | next form frame => exact hgo _

/-- A property that basic computations have, and that survives sequencing and lack of steps, is one of all runs. -/
theorem Sequential.run {R : ∀ α : Type, EvalM α → Prop} (hR : Sequential fun α (x : EvalM α) (_ : Unit → EvalM α) => R α x)
    (hnone : R Value outOfSteps) (steps room : Nat) (task : Task) : R Value (run steps room task) := by
  induction steps generalizing room task with
  | zero => exact hnone
  | succ steps ih =>
      have hnested : ∀ task, R Value (nestedRun steps room task) := by
        cases room with
        | zero => exact fun task => hR.throw (.overrun .depth)
        | succ room => exact ih room
      have hstep : R Step (SmallLisp.step (nestedRun steps room) task) :=
        @Sequential.step _ _ hR _ (fun _ => nestedRun steps room) hnested task
      have hfinish : ∀ s : Step, R Value (s.finish (SmallLisp.run steps room)) :=
        @Sequential.finish _ _ hR _ (fun _ => SmallLisp.run steps room) (ih room)
      rw [run_succ]
      exact @Sequential.bind _ _ hR _ _ _ (fun _ => SmallLisp.step (nestedRun steps room) task) _
        (fun _ => Step.finish (SmallLisp.run steps room)) hstep hfinish

theorem LimitFree.sequential :
    Sequential fun α (x : EvalM α) (_ : Unit → EvalM α) => Computation.LimitFree x :=
  ⟨fun h => h.limitFree, fun hx hf => hx.bind hf⟩

/-- How far a run may go is said by its own arguments alone. -/
theorem run_limitFree (steps room : Nat) (task : Task) : Computation.LimitFree (run steps room task) :=
  LimitFree.sequential.run (fun _ _ _ => rfl) steps room task

theorem perform_allowing (task : Task) (ctx : Context) (m : Machine) (depth steps : Nat) :
    perform task (ctx.allowing depth steps) m = run steps depth task ctx m :=
  congrFun (run_limitFree steps depth task ctx depth steps) m

/-- What was printed before stays in front of what the computation prints, and makes no other difference. -/
def Appends {α : Type} (x : EvalM α) : Prop :=
  ∀ (ctx : Context) (m : Machine) (earlier : String), x ctx { m with output := earlier ++ m.output } =
    (x ctx m).map fun outcome => (outcome.1, { outcome.2 with output := earlier ++ outcome.2.output })

theorem Appends.sequential : Sequential fun α (x : EvalM α) (_ : Unit → EvalM α) => Appends x where
  same h ctx m earlier := by
    cases h with
    | answer r => rw [Computation.ofExcept_apply, Computation.ofExcept_apply]; rfl
    | lookup frame name => rw [lookup_apply, lookup_apply]; rfl
    | printed style separator vs => rw [printed_apply, printed_apply]; rfl
    | described v => rw [described_apply, described_apply]; rfl
    | primitive p args =>
        simp only [Computation.bind_apply, Computation.read_apply, Computation.ofExcept_apply]
        rfl
    | printLine line =>
        rw [printLine_apply, printLine_apply, Option.map_some, String.append_assoc, String.append_assoc,
          String.append_assoc]
    | _ => rfl
  bind {α β x xs f fs} hx hf ctx m earlier := by
    rw [Computation.bind_apply, Computation.bind_apply, hx]
    rcases x ctx m with _ | ⟨_ | a, n⟩
    · rfl
    · rfl
    · exact hf a ctx n earlier

theorem run_appends (steps room : Nat) (task : Task) : Appends (run steps room task) :=
  Appends.sequential.run (fun _ _ _ => rfl) steps room task

end SmallLisp
