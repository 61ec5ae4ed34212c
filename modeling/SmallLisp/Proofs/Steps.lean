import SmallLisp.Proofs.Relation
import SmallLisp.Proofs.Shallow

/-! What a step of the evaluator can do. It finishes or passes on to a form in tail position, and it may have to
evaluate other forms on the way. Both are said here without the step function: which task a step passes on to, and
which tasks are its work. A step passes on exactly to the one, an error of the work is the error of the step, and the
depth limit is passed by the work and by nothing else. -/

namespace SmallLisp

open EvalM SmallLisp.Computation

/-! ### Passing on -/

/-- Applying a function passes on to a form in a frame: to the body of a closure in a new frame under the captured
one, or to the form given to `eval` in the root frame. -/
inductive Enters : Value → List Value → Nat → Machine → Task → Machine → Prop
  | closure {stamp captured caller : Nat} {params : Params} {body : Value} {args : List Value}
      {pairs : List (String × Value)} {m : Machine} : params.assign args = .ok pairs →
        Enters (.closure stamp params body captured) args caller m (.eval body m.frames.all.size)
          { m with frames := (m.frames.extend captured pairs).2 }
  | eval (form : Value) (caller : Nat) (m : Machine) :
      Enters (.builtin .eval) [form] caller m (.eval form (m.frames.root caller)) m

/-- A step passes on from one task to another: to the chosen branch of `if`, to the last form of `do`, to the body
of `let*`, or to what an applied function enters. What has to be evaluated before that has a value. -/
inductive TailStep (nested : Nested) (ctx : Context) : Task → Machine → Task → Machine → Prop
  | branch {head condition thenForm elseForm v : Value} {frame : Nat} {m m' : Machine} :
      head.specialForm? = some .conditional → nested (.eval condition frame) ctx m = some (.ok v, m') →
        TailStep nested ctx (.eval (.list [head, condition, thenForm, elseForm]) frame) m
          (.eval (if v.isTruthy then thenForm else elseForm) frame) m'
  | branchOrNil {head condition thenForm v : Value} {frame : Nat} {m m' : Machine} :
      head.specialForm? = some .conditional → nested (.eval condition frame) ctx m = some (.ok v, m') →
        TailStep nested ctx (.eval (.list [head, condition, thenForm]) frame) m
          (.eval (if v.isTruthy then thenForm else .nil) frame) m'
  | last {head form : Value} {forms vs : List Value} {frame : Nat} {m m' : Machine} :
      head.specialForm? = some .sequence →
        (forms.mapM fun form => nested (.eval form frame)) ctx m = some (.ok vs, m') →
          TailStep nested ctx (.eval (.list (head :: (forms ++ [form]))) frame) m (.eval form frame) m'
  | body {head bindings body : Value} {items : List Value} {pairs : List (Value × Value)} {frame : Nat}
      {m m' : Machine} : head.specialForm? = some .localBindings → bindings.elements? = some items →
        Assoc.pairUp? items = some pairs →
          bindLocals nested m.frames.all.size pairs ctx { m with frames := (m.frames.extend frame []).2 } =
            some (.ok (), m') →
          TailStep nested ctx (.eval (.list [head, bindings, body]) frame) m (.eval body m.frames.all.size) m'
  | application {head fn : Value} {tail args : List Value} {frame : Nat} {m m₁ m₂ m' : Machine} {task : Task} :
      head.specialForm? = none → nested (.eval head frame) ctx m = some (.ok fn, m₁) →
        (tail.mapM fun form => nested (.eval form frame)) ctx m₁ = some (.ok args, m₂) →
          Enters fn args frame m₂ task m' → TailStep nested ctx (.eval (.list (head :: tail)) frame) m task m'
  | call {fn : Value} {args : List Value} {caller : Nat} {m m' : Machine} {task : Task} :
      Enters fn args caller m task m' → TailStep nested ctx (.call fn args caller) m task m'

/-! ### Work on the way -/

/-- Applying a function calls another function: the one given to `apply`, or the one given to `map` for each of the
elements. -/
inductive Callback (nested : Nested) (ctx : Context) : Value → List Value → Nat → Machine → Task → Machine → Prop
  | apply {fn arg : Value} {more items : List Value} {caller : Nat} {m : Machine} :
      ((arg :: more).getLast (List.cons_ne_nil arg more)).elements? = some items →
        Callback nested ctx (.builtin .apply) (fn :: arg :: more) caller m
          (.call fn ((arg :: more).dropLast ++ items) caller) m
  | map {fn xs x : Value} {done rest vs : List Value} {caller : Nat} {m m' : Machine} :
      xs.elements? = some (done ++ x :: rest) →
        (done.mapM fun x => nested (.call fn [x] caller)) ctx m = some (.ok vs, m') →
          Callback nested ctx (.builtin .map) [fn, xs] caller m (.call fn [x] caller) m'

/-- A step has to evaluate something on the way: the value of a definition or of a local binding, an earlier form of
a sequence, a condition, a part of an application or of a collection, or the call that a function makes. What comes
before it has a value. -/
inductive Work (nested : Nested) (ctx : Context) : Task → Machine → Task → Machine → Prop
  | definition {head form : Value} {name : String} {frame : Nat} {m : Machine} :
      head.specialForm? = some .define →
        Work nested ctx (.eval (.list [head, .symbol name, form]) frame) m (.eval form frame) m
  | binding {head bindings body form : Value} {name : String} {items : List Value}
      {done rest : List (Value × Value)} {frame : Nat} {m m' : Machine} :
      head.specialForm? = some .localBindings → bindings.elements? = some items →
        Assoc.pairUp? items = some (done ++ (.symbol name, form) :: rest) →
          bindLocals nested m.frames.all.size done ctx { m with frames := (m.frames.extend frame []).2 } =
            some (.ok (), m') →
          Work nested ctx (.eval (.list [head, bindings, body]) frame) m (.eval form m.frames.all.size) m'
  | earlier {head form next : Value} {done rest vs : List Value} {frame : Nat} {m m' : Machine} :
      head.specialForm? = some .sequence →
        (done.mapM fun form => nested (.eval form frame)) ctx m = some (.ok vs, m') →
          Work nested ctx (.eval (.list (head :: (done ++ form :: next :: rest))) frame) m (.eval form frame) m'
  | condition {head condition : Value} {branches : List Value} {frame : Nat} {m : Machine} :
      head.specialForm? = some .conditional → branches.length = 1 ∨ branches.length = 2 →
        Work nested ctx (.eval (.list (head :: condition :: branches)) frame) m (.eval condition frame) m
  | head {head : Value} {tail : List Value} {frame : Nat} {m : Machine} : head.specialForm? = none →
      Work nested ctx (.eval (.list (head :: tail)) frame) m (.eval head frame) m
  | argument {head fn form : Value} {done rest vs : List Value} {frame : Nat} {m m₁ m' : Machine} :
      head.specialForm? = none → nested (.eval head frame) ctx m = some (.ok fn, m₁) →
        (done.mapM fun form => nested (.eval form frame)) ctx m₁ = some (.ok vs, m') →
          Work nested ctx (.eval (.list (head :: (done ++ form :: rest))) frame) m (.eval form frame) m'
  | callback {head fn : Value} {tail args : List Value} {frame : Nat} {m m₁ m₂ m' : Machine} {task : Task} :
      head.specialForm? = none → nested (.eval head frame) ctx m = some (.ok fn, m₁) →
        (tail.mapM fun form => nested (.eval form frame)) ctx m₁ = some (.ok args, m₂) →
          Callback nested ctx fn args frame m₂ task m' →
            Work nested ctx (.eval (.list (head :: tail)) frame) m task m'
  | called {fn : Value} {args : List Value} {caller : Nat} {m m' : Machine} {task : Task} :
      Callback nested ctx fn args caller m task m' → Work nested ctx (.call fn args caller) m task m'
  | element {form : Value} {done rest vs : List Value} {frame : Nat} {m m' : Machine} :
      (done.mapM fun form => nested (.eval form frame)) ctx m = some (.ok vs, m') →
        Work nested ctx (.eval (.vector (done ++ form :: rest)) frame) m (.eval form frame) m'
  | entry {key : String} {form : Value} {done rest vs : List (String × Value)} {frame : Nat} {m m' : Machine} :
      (done.mapM fun ((key, form) : String × Value) => do return (key, ← nested (.eval form frame))) ctx m =
          some (.ok vs, m') →
        Work nested ctx (.eval (.map (done ++ (key, form) :: rest)) frame) m (.eval form frame) m'

/-! ### Passing the depth limit -/

/-- Where the computation passes the depth limit, the nested evaluator does so with one of these tasks. -/
def Blames {α : Type} (nested : Nested) (ctx : Context) (tasks : Task → Machine → Prop) (x : EvalM α)
    (m : Machine) : Prop :=
  ∀ m', x ctx m = some (.error (.overrun .depth), m') →
    ∃ task m₁, tasks task m₁ ∧ nested task ctx m₁ = some (.error (.overrun .depth), m')

namespace Blames

variable {α β γ : Type} {nested : Nested} {ctx : Context} {tasks : Task → Machine → Prop} {m : Machine}

theorem ask {task : Task} (h : tasks task m) : Blames nested ctx tasks (nested task) m :=
  fun _ herror => ⟨task, m, h, herror⟩

theorem pure (a : α) : Blames nested ctx tasks (pure a : EvalM α) m := nofun

theorem throw {e : Error} (h : e ≠ .overrun .depth) : Blames nested ctx tasks (throw e : EvalM α) m := by
  intro m' herror
  cases herror
  exact absurd rfl h

theorem ofExcept {r : Except Error α} (h : Avoids (.overrun .depth) r) :
    Blames nested ctx tasks (ofExcept r : EvalM α) m := by
  intro m' herror
  rw [ofExcept_apply] at herror
  cases herror
  exact absurd rfl h

theorem bind {x : EvalM α} {f : α → EvalM β} (hx : Blames nested ctx tasks x m)
    (hf : ∀ a m₁, x ctx m = some (.ok a, m₁) → Blames nested ctx tasks (f a) m₁) :
    Blames nested ctx tasks (x >>= f) m := by
  intro m' herror
  rcases bind_eq_some herror with ⟨a, m₁, ha, hb⟩ | ⟨e, m₁, he, houtcome⟩
  · exact hf a m₁ ha m' hb
  · cases houtcome
    exact hx m' he

theorem mapM {f : γ → EvalM α} {cs : List γ}
    (h : ∀ done c rest as m₁, cs = done ++ c :: rest → done.mapM f ctx m = some (.ok as, m₁) →
      Blames nested ctx tasks (f c) m₁) : Blames nested ctx tasks (cs.mapM f) m := by
  induction cs generalizing m with
  | nil => exact pure []
  | cons c cs ih =>
      rw [List.mapM_cons]
      refine (h [] c cs [] m rfl rfl).bind fun a m₁ ha => ?_
      refine Blames.bind (ih fun done c' rest as m₂ hcs has => ?_) fun as m₂ _ => pure (a :: as)
      refine h (c :: done) c' rest (a :: as) m₂ (congrArg (c :: ·) hcs) ?_
      rw [List.mapM_cons, bind_of_ok ha, bind_of_ok has]
      rfl

theorem lookup (frame : Nat) (name : String) : Blames nested ctx tasks (lookup frame name) m := by
  intro m' herror
  rw [lookup_apply] at herror
  cases hv : m.frames.get? frame name <;> rw [hv] at herror <;> cases herror

theorem described (v : Value) : Blames nested ctx tasks (described v) m := by
  intro m' herror
  rw [described_apply] at herror
  exact absurd (Prod.mk.inj (Option.some.inj herror)).1 (Value.avoids_describeWithin _ _ v).withinLimits

theorem printed (style : PrintStyle) (separator : String) (vs : List Value) :
    Blames nested ctx tasks (printed style separator vs) m := by
  intro m' herror
  rw [printed_apply] at herror
  exact absurd (Prod.mk.inj (Option.some.inj herror)).1 (Value.avoids_printAll _ _ _ vs).withinLimits

theorem bindLocals {frame : Nat} {pairs : List (Value × Value)}
    (h : ∀ done name form rest m₁, pairs = done ++ (.symbol name, form) :: rest →
      SmallLisp.bindLocals nested frame done ctx m = some (.ok (), m₁) → tasks (.eval form frame) m₁) :
    Blames nested ctx tasks (SmallLisp.bindLocals nested frame pairs) m := by
  induction pairs generalizing m with
  | nil => exact pure ()
  | cons pair pairs ih =>
      obtain ⟨name, form⟩ := pair
      cases name with
      | symbol name =>
          refine (Blames.ask (h [] name form pairs m rfl rfl)).bind fun v m₁ hv => ?_
          refine Blames.bind (x := bindName frame name v) nofun fun _ m₂ hbind => ih ?_
          intro done name' form' rest m₃ hpairs hdone
          refine h ((.symbol name, form) :: done) name' form' rest m₃ (congrArg (_ :: ·) hpairs) ?_
          rw [SmallLisp.bindLocals, bind_of_ok hv, bind_of_ok hbind]
          exact hdone
      | _ => exact (described _).bind fun shown m₁ _ => throw nofun

theorem evalParts {form : Value} {frame : Nat} (hform : ∀ head tail, form ≠ .list (head :: tail)) :
    Blames nested ctx (Work nested ctx (.eval form frame) m) (SmallLisp.evalParts nested frame form) m := by
  unfold SmallLisp.evalParts
  split
  · exact lookup _ _
  · next items =>
      cases items with
      | nil => exact pure _
      | cons head tail => exact absurd rfl (hform head tail)
  · next items =>
      refine Blames.bind (Blames.mapM fun done form rest vs m₁ hdone hvs => ask ?_) fun vs m₁ _ => pure _
      rw [hdone]
      exact .element hvs
  · next entries =>
      refine Blames.bind (Blames.mapM fun done entry rest vs m₁ hdone hvs => ?_) fun vs m₁ _ => pure _
      refine (ask ?_).bind fun v m₂ _ => pure _
      rw [hdone]
      exact .entry hvs
  · exact pure _

end Blames

/-- A computation of a step: where it passes on, it does so to one of some tasks, and where it passes the depth limit,
the nested evaluator does so with one of some others. -/
structure Charted (nested : Nested) (ctx : Context) (work onward : Task → Machine → Prop) (x : EvalM Step)
    (m : Machine) : Prop where
  blames : Blames nested ctx work x m
  passes : ∀ form frame m', x ctx m = some (.ok (.next form frame), m') → onward (.eval form frame) m'

namespace Charted

variable {α : Type} {nested : Nested} {ctx : Context} {work onward : Task → Machine → Prop} {m : Machine}

theorem value (v : Value) : Charted nested ctx work onward (pure (.value v)) m := ⟨.pure _, nofun⟩

theorem next {form : Value} {frame : Nat} (h : onward (.eval form frame) m) :
    Charted nested ctx work onward (pure (.next form frame)) m := by
  refine ⟨.pure _, fun form' frame' m' hpure => ?_⟩
  cases hpure
  exact h

theorem throw {e : Error} (h : e ≠ .overrun .depth) : Charted nested ctx work onward (throw e) m :=
  ⟨.throw h, nofun⟩

theorem bind {x : EvalM α} {f : α → EvalM Step} (hx : Blames nested ctx work x m)
    (hf : ∀ a m₁, x ctx m = some (.ok a, m₁) → Charted nested ctx work onward (f a) m₁) :
    Charted nested ctx work onward (x >>= f) m := by
  refine ⟨hx.bind fun a m₁ ha => (hf a m₁ ha).blames, fun form frame m' hpassed => ?_⟩
  rcases bind_eq_some hpassed with ⟨a, m₁, ha, hb⟩ | ⟨e, m₁, _, houtcome⟩
  · exact (hf a m₁ ha).passes form frame m' hb
  · cases houtcome

theorem runSequence {frame : Nat} {form : Value} {forms : List Value}
    (hwork : ∀ done earlier next rest vs m₁, form :: forms = done ++ earlier :: next :: rest →
      (done.mapM fun form => nested (.eval form frame)) ctx m = some (.ok vs, m₁) → work (.eval earlier frame) m₁)
    (honward : ∀ done last vs m₁, form :: forms = done ++ [last] →
      (done.mapM fun form => nested (.eval form frame)) ctx m = some (.ok vs, m₁) → onward (.eval last frame) m₁) :
    Charted nested ctx work onward (SmallLisp.runSequence nested frame form forms) m := by
  induction forms generalizing form m with
  | nil => exact next (honward [] form [] m rfl rfl)
  | cons following forms ih =>
      -- the forms behind the first one are split as before, with the first one in front of the forms that are done
      refine bind (.ask (hwork [] form following forms [] m rfl rfl)) fun v m₁ hv => ?_
      have hlonger : ∀ {done : List Value} {vs : List Value} {m₂ : Machine},
          (done.mapM fun form => nested (.eval form frame)) ctx m₁ = some (.ok vs, m₂) →
            ((form :: done).mapM fun form => nested (.eval form frame)) ctx m = some (.ok (v :: vs), m₂) := by
        intro done vs m₂ hdone
        rw [List.mapM_cons, bind_of_ok hv, bind_of_ok hdone]
        rfl
      refine ih (fun done earlier next rest vs m₂ hforms hdone => ?_) fun done last vs m₂ hforms hdone => ?_
      · exact hwork (form :: done) earlier next rest (v :: vs) m₂ (congrArg (form :: ·) hforms) (hlonger hdone)
      · exact honward (form :: done) last (v :: vs) m₂ (congrArg (form :: ·) hforms) (hlonger hdone)

theorem builtin {caller : Nat} {b : Builtin} {args : List Value}
    (hwork : ∀ task m₁, Callback nested ctx (.builtin b) args caller m task m₁ → work task m₁)
    (honward : ∀ task m₁, Enters (.builtin b) args caller m task m₁ → onward task m₁) :
    Charted nested ctx work onward (b.step nested caller args) m := by
  unfold Builtin.step
  split
  · refine bind (x := read) nofun fun ctx' m₁ _ => ?_
    exact bind (.ofExcept (Primitive.avoids_run _ _ _)) fun v m₂ _ => value v
  · exact bind (.printed _ _ _) fun line m₁ _ => bind (x := printLine line) nofun fun _ m₂ _ => value _
  · exact bind (.printed _ _ _) fun line m₁ _ => bind (x := printLine line) nofun fun _ m₂ _ => value _
  · dsimp only
    split
    · next items hitems => exact bind (.ask (hwork _ _ (.apply hitems))) fun v m₁ _ => value v
    · exact throw nofun
  · split
    · next items hitems =>
        refine bind (Blames.mapM fun done x rest vs m₁ hdone hvs => .ask (hwork _ _ ?_)) fun vs m₁ _ => value _
        exact .map (hdone ▸ hitems) hvs
    · exact throw nofun
  · refine bind (x := get) nofun fun m₁ m₂ hget => next ?_
    cases hget
    exact honward _ _ (.eval _ _ _)
  · exact throw nofun

theorem applyStep {fn : Value} {args : List Value} {caller : Nat}
    (hwork : ∀ task m₁, Callback nested ctx fn args caller m task m₁ → work task m₁)
    (honward : ∀ task m₁, Enters fn args caller m task m₁ → onward task m₁) :
    Charted nested ctx work onward (SmallLisp.applyStep nested fn args caller) m := by
  unfold SmallLisp.applyStep
  split
  · next params body captured =>
      refine bind (.ofExcept (Params.avoids_assign params args)) fun pairs m₁ hpairs => ?_
      rw [ofExcept_apply] at hpairs
      obtain ⟨hassign, rfl⟩ := Prod.mk.inj (Option.some.inj hpairs)
      refine bind (x := extendFrame captured pairs) nofun fun frame m₂ hframe => next ?_
      cases hframe
      exact honward _ _ (.closure hassign)
  · exact builtin hwork honward
  · exact bind (.printed _ _ _) fun shown m₁ _ => throw nofun

theorem specialForm {form : SpecialForm} {head : Value} {parts : List Value} {frame : Nat}
    (hhead : head.specialForm? = some form) :
    Charted nested ctx (Work nested ctx (.eval (.list (head :: parts)) frame) m)
      (TailStep nested ctx (.eval (.list (head :: parts)) frame) m) (form.step nested frame parts) m := by
  unfold SpecialForm.step
  split
  · next name form =>
      cases name with
      | symbol name =>
          refine bind (.ask (.definition hhead)) fun v m₁ _ => ?_
          exact bind (x := bindName frame name v) nofun fun _ m₂ _ => value v
      | _ => exact bind (.described _) fun shown m₁ _ => throw nofun
  · next bindings body =>
      split
      · exact throw nofun
      · next items hitems =>
          split
          · exact throw nofun
          · next pairs hpairs =>
              refine bind (x := extendFrame frame []) nofun fun inner m₁ hinner => ?_
              cases hinner
              refine bind (Blames.bindLocals fun done name form rest m₂ hdone hbound => ?_) fun _ m₂ hbound => ?_
              · exact .binding hhead hitems (hdone ▸ hpairs) hbound
              · exact next (.body hhead hitems hpairs hbound)
  · next form forms =>
      refine runSequence (fun done earlier next rest vs m₁ hforms hvs => ?_) fun done last vs m₁ hforms hvs => ?_
      · rw [hforms]
        exact .earlier hhead hvs
      · rw [hforms]
        exact .last hhead hvs
  · exact bind (.ask (.condition hhead (.inl rfl))) fun v m₁ hv => next (.branchOrNil hhead hv)
  · exact bind (.ask (.condition hhead (.inr rfl))) fun v m₁ hv => next (.branch hhead hv)
  · refine bind ?_ fun closure m₁ _ => value closure
    unfold makeClosure
    split <;> nofun
  · exact throw nofun

end Charted

/-- What a step can do: it passes on to a form in tail position, and it passes the depth limit only with the work on
the way. -/
theorem charted_step (nested : Nested) (ctx : Context) (task : Task) (m : Machine) :
    Charted nested ctx (Work nested ctx task m) (TailStep nested ctx task m) (step nested task) m := by
  unfold step
  split
  · exact .applyStep (fun _ _ h => .called h) fun _ _ h => .call h
  · next head tail frame =>
      split
      · next form hform => exact .specialForm hform
      · next hhead =>
          refine .bind (.ask (.head hhead)) fun fn m₁ hfn => ?_
          refine .bind (Blames.mapM fun done form rest vs m₂ hdone hvs => .ask ?_) fun args m₂ hargs => ?_
          · rw [hdone]
            exact .argument hhead hfn hvs
          · exact .applyStep (fun _ _ h => .callback hhead hfn hargs h) fun _ _ h => .application hhead hfn hargs h
  · next form frame hform =>
      refine .bind (.evalParts fun head tail h => ?_) fun v m₁ _ => .value v
      subst h
      exact hform head tail rfl

/-! ### The step that a tail step is -/

section

variable {nested : Nested} {ctx : Context}

theorem step_special {head : Value} {form : SpecialForm} (hhead : head.specialForm? = some form)
    (parts : List Value) (frame : Nat) :
    step nested (.eval (.list (head :: parts)) frame) = form.step nested frame parts := by
  unfold step
  simp only [hhead]

theorem step_application {head : Value} (hhead : head.specialForm? = none) (tail : List Value) (frame : Nat) :
    step nested (.eval (.list (head :: tail)) frame) = nested (.eval head frame) >>= fun fn =>
      (tail.mapM fun form => nested (.eval form frame)) >>= fun args => applyStep nested fn args frame := by
  unfold step
  simp only [hhead]

/-- A sequence evaluates all its forms but the last, to which it passes on. -/
theorem step_sequence (forms : List Value) (form : Value) (frame : Nat) :
    SpecialForm.step nested frame .sequence (forms ++ [form]) =
      (forms.mapM fun form => nested (.eval form frame)) >>= fun _ => pure (.next form frame) := by
  induction forms with
  | nil => rfl
  | cons first forms ih =>
      have hrun : SpecialForm.step nested frame .sequence (first :: (forms ++ [form])) =
          nested (.eval first frame) >>= fun _ => SpecialForm.step nested frame .sequence (forms ++ [form]) := by
        cases forms <;> rfl
      rw [List.cons_append, hrun, ih, List.mapM_cons]
      simp only [bind_assoc, pure_bind]

theorem applyStep_of_enters {fn : Value} {args : List Value} {caller frame : Nat} {form : Value} {m m' : Machine}
    (h : Enters fn args caller m (.eval form frame) m') :
    applyStep nested fn args caller ctx m = some (.ok (.next form frame), m') := by
  cases h with
  | @closure stamp captured _ params body _ pairs _ hassign =>
      have hpairs : (ofExcept (params.assign args) : EvalM _) ctx m = some (.ok pairs, m) := by
        rw [ofExcept_apply, hassign]
      exact (bind_of_ok hpairs).trans rfl
  | eval => rfl

/-- Steps pass on exactly as it is said of them without the step function. -/
theorem step_eq_next_iff {task : Task} {form : Value} {frame : Nat} {m m' : Machine} :
    step nested task ctx m = some (.ok (.next form frame), m') ↔
      TailStep nested ctx task m (.eval form frame) m' := by
  constructor
  · exact (charted_step nested ctx task m).passes form frame m'
  · intro h
    generalize htask : Task.eval form frame = task' at h
    cases h with
    | branch hhead hv | branchOrNil hhead hv =>
        cases htask
        rw [step_special hhead]
        exact (bind_of_ok hv).trans rfl
    | last hhead hvs =>
        cases htask
        rw [step_special hhead, step_sequence, bind_of_ok hvs]
        rfl
    | body hhead hitems hpairs hbound =>
        cases htask
        rw [step_special hhead]
        simp only [SpecialForm.step, hitems, hpairs]
        rw [bind_of_ok (extendFrame_apply ..), bind_of_ok hbound]
        rfl
    | application hhead hfn hargs henters =>
        subst htask
        rw [step_application hhead, bind_of_ok hfn, bind_of_ok hargs]
        exact applyStep_of_enters henters
    | call henters =>
        subst htask
        exact applyStep_of_enters henters

theorem TailStep.exists_eval {task task' : Task} {m m' : Machine} (h : TailStep nested ctx task m task' m') :
    ∃ form frame, task' = .eval form frame := by
  have henters : ∀ {fn args caller m}, Enters fn args caller m task' m' → ∃ form frame, task' = .eval form frame := by
    intro fn args caller m h
    cases h <;> exact ⟨_, _, rfl⟩
  cases h with
  | application _ _ _ h => exact henters h
  | call h => exact henters h
  | _ => exact ⟨_, _, rfl⟩

/-! ### The error of the work on the way -/

theorem mapM_append_error {α γ : Type} {f : γ → EvalM α} {done rest : List γ} {c : γ} {as : List α} {m m₁ m' : Machine}
    {e : Error} (hdone : done.mapM f ctx m = some (.ok as, m₁)) (hc : f c ctx m₁ = some (.error e, m')) :
    (done ++ c :: rest).mapM f ctx m = some (.error e, m') := by
  rw [List.mapM_append, bind_of_ok hdone, List.mapM_cons]
  exact bind_of_error (bind_of_error hc)

theorem bindLocals_append (frame : Nat) (done rest : List (Value × Value)) :
    bindLocals nested frame (done ++ rest) =
      bindLocals nested frame done >>= fun _ => bindLocals nested frame rest := by
  induction done with
  | nil => rfl
  | cons pair done ih =>
      obtain ⟨name, form⟩ := pair
      cases name with
      | symbol name => simp only [List.cons_append, bindLocals, ih, bind_assoc]
      | _ =>
          simp only [List.cons_append, bindLocals, bind_assoc]
          rfl

theorem Callback.applyStep {fn : Value} {args : List Value} {caller : Nat} {m m₁ m' : Machine} {task : Task}
    {e : Error} (h : Callback nested ctx fn args caller m task m₁) (he : nested task ctx m₁ = some (.error e, m')) :
    SmallLisp.applyStep nested fn args caller ctx m = some (.error e, m') := by
  cases h with
  | apply hitems =>
      simp only [SmallLisp.applyStep, Builtin.step, hitems]
      exact bind_of_error he
  | map hitems hvs =>
      simp only [SmallLisp.applyStep, Builtin.step, hitems]
      exact bind_of_error (mapM_append_error hvs he)

/-- An error of the work on the way is the error of the step. -/
theorem Work.step {task task' : Task} {m m₁ m' : Machine} {e : Error} (h : Work nested ctx task m task' m₁)
    (he : nested task' ctx m₁ = some (.error e, m')) : SmallLisp.step nested task ctx m = some (.error e, m') := by
  cases h with
  | definition hhead =>
      rw [step_special hhead]
      exact bind_of_error he
  | binding hhead hitems hpairs hdone =>
      rw [step_special hhead]
      simp only [SpecialForm.step, hitems, hpairs]
      rw [bind_of_ok (extendFrame_apply ..), bindLocals_append]
      refine bind_of_error ?_
      rw [bind_of_ok hdone]
      exact bind_of_error he
  | @earlier head form next done rest vs frame _ _ hhead hvs =>
      -- the form is not the last one, so it is among those that are evaluated
      have hrest := List.dropLast_concat_getLast (List.cons_ne_nil next rest)
      rw [step_special hhead, ← hrest, ← List.cons_append, ← List.append_assoc, step_sequence]
      exact bind_of_error (mapM_append_error hvs he)
  | @condition head condition branches frame _ hhead hbranches =>
      rw [step_special hhead]
      match branches, hbranches with
      | [_], _ | [_, _], _ => exact bind_of_error he
  | head hhead =>
      rw [step_application hhead]
      exact bind_of_error he
  | argument hhead hfn hvs =>
      rw [step_application hhead, bind_of_ok hfn]
      exact bind_of_error (mapM_append_error hvs he)
  | callback hhead hfn hargs hcallback =>
      rw [step_application hhead, bind_of_ok hfn, bind_of_ok hargs]
      exact hcallback.applyStep he
  | called hcallback => exact hcallback.applyStep he
  | element hvs => exact bind_of_error (bind_of_error (mapM_append_error hvs he))
  | entry hvs =>
      refine bind_of_error (bind_of_error (mapM_append_error hvs ?_))
      exact bind_of_error he

end

end SmallLisp
