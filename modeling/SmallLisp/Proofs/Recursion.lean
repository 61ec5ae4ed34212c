import SmallLisp.Proofs.Relation

/-! Evaluation by plain recursion. The evaluator of the library is a loop whose turns take no room; here is the
evaluator that one would write down first, in which every form that has to be evaluated, in whatever place, is
evaluated by a recursive call. It is put together from recursions of limited depth, and it is the least function
that calls itself in this way. The main statement says that the loop and the recursion are the same function
once the limits are left aside: they come to an end for the same forms in the same states, with the same value
or error, the same frames and the same printed text. -/

namespace SmallLisp

open EvalM

/-! ### The recursive evaluator -/

namespace Recursive

section

variable (recur : Task → EvalM Value)

/-- Binds a name to the value of a form, in the frame in which the form is evaluated. -/
def bindLocal (frame : Nat) : Value × Value → EvalM Unit
  | (.symbol name, form) => do bindName frame name (← recur (.eval form frame))
  | (other, _) => do throw (.bindings (.notSymbol (← described other)))

/-- The value of a special form. The chosen branch, the last form of a sequence and the body under local
bindings are evaluated by recursive calls like everything else. -/
def special (frame : Nat) : SpecialForm → List Value → EvalM Value
  | .define, [.symbol name, form] => do
    let v ← recur (.eval form frame)
    bindName frame name v
    return v
  | .define, [name, _] => do throw (.definedNotSymbol (← described name))
  | .localBindings, [bindings, body] =>
    match bindings.elements?, bindings.elements?.bind Assoc.pairUp? with
    | none, _ => throw (.bindings .notSequence)
    | some _, none => throw (.bindings .unbalanced)
    | some _, some pairs => do
      let inner ← extendFrame frame []
      pairs.forM (bindLocal recur inner)
      recur (.eval body inner)
  | .sequence, form :: forms => do
    (form :: forms).dropLast.forM fun form => do
      let _ ← recur (.eval form frame)
    recur (.eval ((form :: forms).getLast (List.cons_ne_nil form forms)) frame)
  | .conditional, [condition, thenForm] => do
    let v ← recur (.eval condition frame)
    recur (.eval (if v.isTruthy then thenForm else .nil) frame)
  | .conditional, [condition, thenForm, elseForm] => do
    let v ← recur (.eval condition frame)
    recur (.eval (if v.isTruthy then thenForm else elseForm) frame)
  | .function, [params, body] => makeClosure params body frame
  | form, parts => throw (.formArity form parts.length)

/-- The value of a call. The body of a closure, in a fresh frame under the captured one, and the form given to
`eval`, in the root frame, are evaluated by recursive calls. -/
def apply (caller : Nat) : Value → List Value → EvalM Value
  | .closure _ params body captured, args => do
    let frame ← extendFrame captured (← ofExcept (params.assign args))
    recur (.eval body frame)
  | .builtin (.primitive p), args => do ofExcept (p.run (← read) args)
  | .builtin .prn, args => do
    printLine (← printed .readable " " args)
    return .nil
  | .builtin .println, args => do
    printLine (← printed .raw " " args)
    return .nil
  | .builtin .apply, fn :: arg :: more =>
    match ((arg :: more).getLast (List.cons_ne_nil arg more)).elements? with
    | some items => recur (.call fn ((arg :: more).dropLast ++ items) caller)
    | none => throw (.argumentType .apply)
  | .builtin .map, [fn, xs] =>
    match xs.elements? with
    | some items => do return .list (← items.mapM fun item => recur (.call fn [item] caller))
    | none => throw (.argumentType .map)
  | .builtin .eval, [form] => do recur (.eval form ((← get).frames.root caller))
  | .builtin b, args => throw (.builtinArity b args.length)
  | other, _ => do throw (.notCallable (← printed .readable "" [other]))

/-- The value of a form or of a call, by recursive calls for all that is evaluated on the way. -/
def value : Task → EvalM Value
  | .call fn args caller => apply recur caller fn args
  | .eval form frame =>
    match form with
    | .symbol name => lookup frame name
    | .vector items => do return .vector (← items.mapM fun item => recur (.eval item frame))
    | .map entries => do
      return .map (← entries.mapM fun (key, form) => do return (key, ← recur (.eval form frame)))
    | .list (head :: tail) =>
      match head.specialForm? with
      | some form => special recur frame form tail
      | none => do
        let fn ← recur (.eval head frame)
        let args ← tail.mapM fun form => recur (.eval form frame)
        apply recur frame fn args
    | form => return form

end

/-- The recursive evaluator for recursions of limited depth. It has no outcome where the recursion is deeper. -/
def within : Nat → Task → EvalM Value
  | 0, _ => outOfSteps
  | depth + 1, task => value (within depth) task

open Classical in
/-- The recursive evaluator: it ends with what recursion to some depth ends with, and has no outcome where the
recursion does not end. By `perform_eq`, all that it evaluates on the way it evaluates by calling itself. -/
noncomputable def perform (task : Task) : EvalM Value := fun ctx m =>
  if h : ∃ outcome depth, within depth task ctx m = some outcome then some h.choose else none

/-- The value of a form in a frame, by plain recursion. -/
noncomputable def evaluate (form : Value) (frame : Nat) : EvalM Value := perform (.eval form frame)

/-! ### One recursive call for one step -/

section

variable (recur : Task → EvalM Value)

theorem throw_bind {α β : Type} (e : Error) (f : α → EvalM β) : (throw e >>= f) = throw e := rfl

theorem bindLocals_eq_forM (frame : Nat) (pairs : List (Value × Value)) :
    bindLocals recur frame pairs = pairs.forM (bindLocal recur frame) := by
  induction pairs with
  | nil => rfl
  | cons pair pairs ih =>
      obtain ⟨name, form⟩ := pair
      cases name with
      | symbol name => simp only [bindLocals, List.forM, bindLocal, ih, bind_assoc]
      | _ => simp only [bindLocals, List.forM, bindLocal, bind_assoc, throw_bind]

theorem runSequence_finish (frame : Nat) (form : Value) (forms : List Value) :
    (runSequence recur frame form forms >>= Step.finish recur) = (do
      (form :: forms).dropLast.forM fun form => do
        let _ ← recur (.eval form frame)
      recur (.eval ((form :: forms).getLast (List.cons_ne_nil form forms)) frame)) := by
  induction forms generalizing form with
  | nil => simp [runSequence, Step.finish]
  | cons next forms ih =>
      simp only [runSequence, bind_assoc, ih next, List.dropLast, List.forM, pure_bind, List.getLast_cons_cons]

theorem special_eq_step (frame : Nat) (form : SpecialForm) (parts : List Value) :
    special recur frame form parts = form.step recur frame parts >>= Step.finish recur := by
  unfold SpecialForm.step
  split
  · next name body =>
      cases name <;> simp only [special, bind_assoc, pure_bind, throw_bind, Step.finish]
  · next bindings body =>
      simp only [special]
      cases bindings.elements? with
      | none => rfl
      | some items =>
          cases hpairs : Assoc.pairUp? items with
          | none => simp only [Option.bind_some, hpairs, throw_bind]
          | some pairs =>
              simp only [Option.bind_some, hpairs, bind_assoc, pure_bind, bindLocals_eq_forM, Step.finish]
  · exact (runSequence_finish recur frame _ _).symm
  · simp only [special, bind_assoc, pure_bind, Step.finish]
  · simp only [special, bind_assoc, pure_bind, Step.finish]
  · simp only [special, bind_assoc, pure_bind, Step.finish, bind_pure]
  · rw [throw_bind]
    unfold special
    split <;> simp_all

theorem apply_eq_step (caller : Nat) (fn : Value) (args : List Value) :
    apply recur caller fn args = applyStep recur fn args caller >>= Step.finish recur := by
  cases fn with
  | closure stamp params body captured => simp only [apply, applyStep, bind_assoc, pure_bind, Step.finish]
  | builtin b =>
      simp only [applyStep]
      unfold Builtin.step
      split
      · simp only [apply, bind_assoc, pure_bind, Step.finish, bind_pure]
      · simp only [apply, bind_assoc, pure_bind, Step.finish]
      · simp only [apply, bind_assoc, pure_bind, Step.finish]
      · next fn arg more =>
          simp only [apply]
          cases ((arg :: more).getLast (List.cons_ne_nil arg more)).elements? <;>
            simp only [bind_assoc, pure_bind, Step.finish, bind_pure, throw_bind]
      · next fn xs =>
          simp only [apply]
          cases xs.elements? <;> simp only [bind_assoc, pure_bind, Step.finish, throw_bind]
      · simp only [apply, bind_assoc, pure_bind, Step.finish]
      · rw [throw_bind]
        unfold apply
        split <;> simp_all
  | _ => simp only [apply, applyStep, bind_assoc, throw_bind]

/-- The recursion does what a step does and then goes on. -/
theorem value_eq_step (task : Task) : value recur task = step recur task >>= Step.finish recur := by
  cases task with
  | call fn args caller => exact apply_eq_step recur caller fn args
  | eval form frame =>
      cases form with
      | list items =>
          cases items with
          | nil => rfl
          | cons head tail =>
              simp only [value, step]
              cases head.specialForm? with
              | some form => exact special_eq_step recur frame form tail
              | none => simp only [bind_assoc, apply_eq_step]
      | _ => simp only [value, step, evalParts, bind_assoc, pure_bind, Step.finish, bind_pure]

end

/-! ### The recursion, to any depth -/

/-- What relates the evaluators for the parts relates the recursive calls that are made with them. -/
theorem relates_value {ι : Type} {R : ∀ α : Type, EvalM α → (ι → EvalM α) → Prop} (hR : Sequential R)
    {recur : Task → EvalM Value} {recurs : ι → Task → EvalM Value}
    (hrecur : ∀ task, R Value (recur task) fun i => recurs i task) (task : Task) :
    R Value (value recur task) fun i => value (recurs i) task := by
  simp only [value_eq_step]
  exact hR.bind (hR.step hrecur task) (hR.finish hrecur)

/-- A recursion that has come to an end does not change with the depth that it may have. -/
theorem within_mono {depth depth' : Nat} (hle : depth ≤ depth') (task : Task) :
    Below Value (within depth task) fun _ => within depth' task := by
  induction depth generalizing depth' task with
  | zero => exact fun _ _ _ h => nomatch h
  | succ depth ih =>
      obtain ⟨depth', rfl⟩ : ∃ k, depth' = k + 1 := ⟨depth' - 1, by omega⟩
      exact relates_value Below.sequential (fun task => ih (by omega) task) task

theorem perform_eq_some_iff_within (task : Task) (ctx : Context) (m : Machine)
    (outcome : Except Error Value × Machine) :
    perform task ctx m = some outcome ↔ ∃ depth, within depth task ctx m = some outcome := by
  constructor
  · intro h
    unfold perform at h
    split at h
    · next hends =>
        cases h
        exact hends.choose_spec
    · cases h
  · rintro ⟨depth, hdepth⟩
    have hends : ∃ outcome depth, within depth task ctx m = some outcome := ⟨outcome, depth, hdepth⟩
    obtain ⟨depth', hdepth'⟩ := hends.choose_spec
    have hsame := within_mono (Nat.le_max_left depth depth') task ctx m _ hdepth
    rw [within_mono (Nat.le_max_right depth depth') task ctx m _ hdepth'] at hsame
    unfold perform
    rw [dif_pos hends, hsame]

/-- What the computation ends with, the later ones of the family end with. -/
def Approached (α : Type) (x : EvalM α) (runs : Nat × Nat → EvalM α) : Prop :=
  ∀ ctx m outcome, x ctx m = some outcome →
    ∃ n, ∀ steps ≥ n, ∀ room ≥ n, runs (steps, room) ctx m = some outcome

theorem Approached.sequential : Sequential Approached where
  same _ ctx m outcome h := ⟨0, fun _ _ _ _ => h⟩
  bind {α β x xs f fs} hx hf ctx m outcome h := by
    rcases Computation.bind_eq_some h with ⟨a, t, ha, hb⟩ | ⟨e, t, he, rfl⟩
    · obtain ⟨n, hn⟩ := hx ctx m _ ha
      obtain ⟨k, hk⟩ := hf a ctx t _ hb
      refine ⟨max n k, fun steps hsteps room hroom => ?_⟩
      exact (Computation.bind_of_ok (hn steps (by omega) room (by omega))).trans
        (hk steps (by omega) room (by omega))
    · obtain ⟨n, hn⟩ := hx ctx m _ he
      exact ⟨n, fun steps hsteps room hroom => Computation.bind_of_error (hn steps hsteps room hroom)⟩

theorem approached_within (task : Task) : Approached Value (perform task) fun i => within i.1 task := by
  intro ctx m outcome h
  obtain ⟨depth, hdepth⟩ := (perform_eq_some_iff_within task ctx m outcome).mp h
  exact ⟨depth, fun steps hsteps _ _ => within_mono hsteps task ctx m outcome hdepth⟩

/-- **Plain recursion.** The recursive evaluator calls itself for all that it evaluates on the way. -/
theorem perform_eq (task : Task) : perform task = value perform task := by
  funext ctx m
  refine Option.ext fun outcome => ?_
  rw [perform_eq_some_iff_within]
  constructor
  · rintro ⟨_ | depth, hdepth⟩
    · cases hdepth
    · have hbelow : ∀ task, Below Value (within depth task) fun _ => perform task := fun task ctx m outcome h =>
        (perform_eq_some_iff_within task ctx m outcome).mpr ⟨depth, h⟩
      exact relates_value Below.sequential hbelow task ctx m outcome hdepth
  · intro h
    obtain ⟨n, hn⟩ := relates_value Approached.sequential approached_within task ctx m outcome h
    exact ⟨n + 1, hn n (Nat.le_refl n) n (Nat.le_refl n)⟩

/-- Every function that calls itself in this way ends with what the recursive evaluator ends with. -/
theorem below_of_eq_value {f : Task → EvalM Value} (hf : ∀ task, f task = value f task) (task : Task) :
    Below Value (perform task) fun _ => f task := by
  have hwithin : ∀ depth task, Below Value (within depth task) fun _ => f task := by
    intro depth
    induction depth with
    | zero => exact fun _ _ _ _ h => nomatch h
    | succ depth ih =>
        intro task
        rw [hf]
        exact relates_value Below.sequential ih task
  intro ctx m outcome h
  obtain ⟨depth, hdepth⟩ := (perform_eq_some_iff_within task ctx m outcome).mp h
  exact hwithin depth task ctx m outcome hdepth

/-! ### Runs and the recursion -/

/-- Where a run with limited room comes to an end, the other computation does so too and in the same way,
unless it was the room that ended the run. There is no lack of room if there is as much of it as of steps. -/
def Covers (steps : Nat) (α : Type) (x : EvalM α) (runs : Nat → EvalM α) : Prop :=
  ∀ room ctx m outcome, runs room ctx m = some outcome →
    steps ≤ room ∨ outcome.1 ≠ .error (.overrun .depth) → x ctx m = some outcome

theorem Covers.sequential (steps : Nat) : Sequential (Covers steps) where
  same _ room ctx m outcome h _ := h
  bind {α β x xs f fs} hx hf room ctx m outcome h hroom := by
    rcases Computation.bind_eq_some h with ⟨a, t, ha, hb⟩ | ⟨e, t, he, rfl⟩
    · rw [Computation.bind_of_ok (hx room ctx m _ ha (.inr nofun))]
      exact hf a room ctx t outcome hb hroom
    · exact Computation.bind_of_error (hx room ctx m _ he (hroom.imp_right fun h he => h (by cases he; rfl)))

/-- Whatever a run ends with, short of a lack of room, the recursion ends with. -/
theorem covers_run (steps : Nat) (task : Task) :
    Covers steps Value (perform task) fun room => run steps room task := by
  induction steps generalizing task with
  | zero => exact fun room ctx m outcome h _ => nomatch h
  | succ steps ih =>
      have hgo : ∀ task, Covers (steps + 1) Value (perform task) fun room => run steps room task :=
        fun task room ctx m outcome h hroom =>
          ih task room ctx m outcome h (hroom.imp_left (Nat.le_of_succ_le ·))
      have hnested : ∀ task, Covers (steps + 1) Value (perform task) fun room => nestedRun steps room task := by
        intro task room ctx m outcome h hroom
        cases room with
        | zero =>
            cases h
            exact absurd hroom (by simp)
        | succ room => exact ih task room ctx m outcome h (hroom.imp_left Nat.le_of_succ_le_succ)
      have hR := Covers.sequential (steps + 1)
      simp only [run_succ]
      rw [perform_eq, value_eq_step]
      exact hR.bind (hR.step hnested task) (hR.finish hgo)

/-- The runs of a step that goes on, each with one more step and one more level of room. -/
theorem Approached.of_step {x : EvalM Value} {task : Task}
    (h : Approached Value x fun i =>
      step (run i.1 i.2) task >>= Step.finish (run i.1 (i.2 + 1))) :
    Approached Value x fun i => run i.1 i.2 task := by
  intro ctx m outcome hx
  obtain ⟨n, hn⟩ := h ctx m outcome hx
  refine ⟨n + 1, fun steps hsteps room hroom => ?_⟩
  obtain ⟨steps, rfl⟩ : ∃ k, steps = k + 1 := ⟨steps - 1, by omega⟩
  obtain ⟨room, rfl⟩ : ∃ k, room = k + 1 := ⟨room - 1, by omega⟩
  exact (congrFun (congrFun (run_succ steps (room + 1) task) ctx) m).trans
    (hn steps (by omega) room (by omega))

/-- Whatever the recursion ends with, long enough runs end with. -/
theorem approached_run (task : Task) : Approached Value (perform task) fun i => run i.1 i.2 task := by
  have hR := Approached.sequential
  have hwithin : ∀ depth task, Approached Value (within depth task) fun i => run i.1 i.2 task := by
    intro depth
    induction depth with
    | zero => exact fun _ _ _ _ h => nomatch h
    | succ depth ih =>
        intro task
        have hgo : ∀ task, Approached Value (within depth task) fun i => run i.1 (i.2 + 1) task := by
          intro task ctx m outcome h
          obtain ⟨n, hn⟩ := ih task ctx m outcome h
          exact ⟨n, fun steps hsteps room hroom => hn steps hsteps (room + 1) (Nat.le_succ_of_le hroom)⟩
        rw [within, value_eq_step]
        exact Approached.of_step (hR.bind (hR.step ih task) (hR.finish hgo))
  intro ctx m outcome h
  obtain ⟨depth, hdepth⟩ := (perform_eq_some_iff_within task ctx m outcome).mp h
  exact hwithin depth task ctx m outcome hdepth

/-- The recursion ends with what all long enough runs with enough room end with. -/
theorem perform_eq_some_iff (task : Task) (ctx : Context) (m : Machine) (outcome : Except Error Value × Machine) :
    perform task ctx m = some outcome ↔
      ∃ n, ∀ steps ≥ n, ∀ room ≥ n, run steps room task ctx m = some outcome := by
  constructor
  · exact approached_run task ctx m outcome
  · rintro ⟨n, hn⟩
    exact covers_run n task n ctx m outcome (hn n (Nat.le_refl n) n (Nat.le_refl n)) (.inl (Nat.le_refl n))

theorem ends_perform_iff (task : Task) (ctx : Context) (m : Machine) (outcome : Except Error Value × Machine) :
    Computation.Ends (SmallLisp.perform task) ctx m outcome ↔ perform task ctx m = some outcome := by
  rw [perform_eq_some_iff]
  simp only [Computation.Ends, perform_allowing]
  exact exists_congr fun n => ⟨fun h steps hsteps room hroom => h room hroom steps hsteps,
    fun h depth hdepth steps hsteps => h steps hsteps depth hdepth⟩

/-- What ends within the limits, and not for lack of depth, ends in the same way when they are left aside. -/
theorem ends_of_perform {task : Task} {ctx : Context} {m : Machine} {outcome : Except Error Value × Machine}
    (h : SmallLisp.perform task ctx m = some outcome) (hdepth : outcome.1 ≠ .error (.overrun .depth)) :
    Computation.Ends (SmallLisp.perform task) ctx m outcome :=
  (ends_perform_iff task ctx m outcome).mpr (covers_run _ task _ ctx m outcome h (.inr hdepth))

end Recursive

open SmallLisp.Computation in
/-- **The loop is the recursion.** Leaving the limits on depth and steps aside, the evaluation of a form comes
to an end exactly if plain recursion does, and with the same value or error and the same state: frames, printed
text and stamps. Within given limits it ends the same way too, unless it is the depth that ends it. -/
theorem ends_evaluate_iff (form : Value) (frame : Nat) (ctx : Context) (m : Machine)
    (outcome : Except Error Value × Machine) :
    (Ends (evaluate form frame) ctx m outcome ↔ Recursive.evaluate form frame ctx m = some outcome) ∧
      (evaluate form frame ctx m = some outcome → outcome.1 ≠ .error (.overrun .depth) →
        Recursive.evaluate form frame ctx m = some outcome) := by
  constructor
  · exact Recursive.ends_perform_iff (.eval form frame) ctx m outcome
  · intro hended hdepth
    exact Recursive.covers_run _ (.eval form frame) _ ctx m outcome hended (.inr hdepth)

end SmallLisp
