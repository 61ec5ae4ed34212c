import SmallLisp.Proofs.Moment

/-! Calls and their callers. A call is handed the frame that it is made from, and hands it on to the calls that `apply`
and `map` make, but nothing of what a call does depends on it: the body of a closure is evaluated under the frame that
the closure captures, and `eval` only asks for the root, which is the same from every frame. -/

namespace SmallLisp

open EvalM SmallLisp.Computation Frames

/-- The nested evaluator makes the same calls from both frames, where they exist. -/
def Nested.IgnoresCaller (nested : Nested) (ctx : Context) (caller caller' : Nat) : Prop :=
  ∀ (m : Machine) (fn : Value) (args : List Value), m.frames.WellScoped → fn.InScope m.frames.size →
    (∀ v ∈ args, v.InScope m.frames.size) → caller < m.frames.size → caller' < m.frames.size →
    nested (.call fn args caller) ctx m = nested (.call fn args caller') ctx m

section

variable {nested : Nested} {ctx : Context} {caller caller' : Nat}
  (hnested : Nested.Tracks .same (· = 0) nested nested ctx) (hcallers : nested.IgnoresCaller ctx caller caller')
include hnested hcallers

theorem callEach_ignoresCaller {fn : Value} {items : List Value} {m : Machine} (hm : m.frames.WellScoped)
    (hfn : fn.InScope m.frames.size) (hitems : ∀ v ∈ items, v.InScope m.frames.size)
    (hcaller : caller < m.frames.size) (hcaller' : caller' < m.frames.size) :
    (items.mapM fun x => nested (.call fn [x] caller)) ctx m =
      (items.mapM fun x => nested (.call fn [x] caller')) ctx m := by
  induction items generalizing m with
  | nil => rfl
  | cons x items ih =>
      have hx : ∀ v ∈ [x], v.InScope m.frames.size := fun v hv =>
        List.mem_singleton.mp hv ▸ hitems x List.mem_cons_self
      have hfirst := hcallers m fn [x] hm hfn hx hcaller hcaller'
      have htracks := hnested.call anywhere (.same hm) hfn hx hcaller'
      rw [List.mapM_cons, List.mapM_cons, bind_apply, bind_apply, hfirst]
      rcases hcall : nested (.call fn [x] caller') ctx m with _ | ⟨e | v, n⟩
      · rfl
      · rfl
      · -- the frames that were there are still there for the rest of the calls
        obtain ⟨hn, hle, _⟩ := htracks.leaves hcall
        have hrest := ih hn (hfn.mono hle) (fun v hv => (hitems v (List.mem_cons_of_mem _ hv)).mono hle)
          (Nat.lt_of_lt_of_le hcaller hle) (Nat.lt_of_lt_of_le hcaller' hle)
        dsimp only
        rw [bind_apply, bind_apply, hrest]

theorem applyStep_ignoresCaller {fn : Value} {args : List Value} {m : Machine} (hm : m.frames.WellScoped)
    (hargs : ∀ v ∈ args, v.InScope m.frames.size) (hcaller : caller < m.frames.size)
    (hcaller' : caller' < m.frames.size) :
    applyStep nested fn args caller ctx m = applyStep nested fn args caller' ctx m := by
  cases fn with
  | builtin b =>
      change b.step nested caller args ctx m = b.step nested caller' args ctx m
      cases b with
      | apply =>
          rcases args with _ | ⟨fn, _ | ⟨arg, more⟩⟩
          · rfl
          · rfl
          · have hmore : ∀ v ∈ arg :: more, v.InScope m.frames.size := fun v hv =>
              hargs v (List.mem_cons_of_mem _ hv)
            simp only [Builtin.step]
            cases hitems : ((arg :: more).getLast (List.cons_ne_nil arg more)).elements? with
            | none => rfl
            | some items =>
                have hcall := hcallers m fn _ hm (hargs fn List.mem_cons_self)
                  (Value.forall_spread Value.InScope.elements hmore hitems) hcaller hcaller'
                dsimp only
                rw [bind_apply, bind_apply, hcall]
      | map =>
          rcases args with _ | ⟨fn, _ | ⟨xs, _ | ⟨extra, rest⟩⟩⟩
          · rfl
          · rfl
          · simp only [Builtin.step]
            cases hitems : xs.elements? with
            | none => rfl
            | some items =>
                have heach := callEach_ignoresCaller hnested hcallers hm (hargs fn (by simp))
                  ((hargs xs (by simp)).elements hitems) hcaller hcaller'
                dsimp only
                rw [bind_apply, bind_apply, heach]
          · rfl
      | eval =>
          rcases args with _ | ⟨form, _ | ⟨extra, rest⟩⟩
          · rfl
          · have hroot : m.frames.root caller = m.frames.root caller' :=
              (hm.root_eq hcaller).trans (hm.root_eq hcaller').symm
            change some (Except.ok (Step.next form (m.frames.root caller)), m) =
              some (.ok (.next form (m.frames.root caller')), m)
            rw [hroot]
          · rfl
      | _ => rfl
  | _ => rfl

end

/-- A run of a call does not depend on where the call is made from. -/
theorem run_ignoresCaller (steps room : Nat) (ctx : Context) (caller caller' : Nat) :
    Nested.IgnoresCaller (run steps room) ctx caller caller' := by
  induction steps generalizing room with
  | zero => exact fun _ _ _ _ _ _ _ _ => rfl
  | succ steps ih =>
      intro m fn args hm _ hargs hcaller hcaller'
      have hnested : Nested.IgnoresCaller (nestedRun steps room) ctx caller caller' := by
        cases room with
        | zero => exact fun _ _ _ _ _ _ _ _ => rfl
        | succ room => exact ih room
      have hstep : step (nestedRun steps room) (.call fn args caller) ctx m =
          step (nestedRun steps room) (.call fn args caller') ctx m :=
        applyStep_ignoresCaller (tracks_nestedRun .same ctx steps room) hnested hm hargs hcaller hcaller'
      rw [run_succ, run_succ, bind_apply, bind_apply, hstep]

/-- However many steps it may take, a call of `eval` goes on with the form in the root frame. -/
theorem run_eval {m : Machine} (hm : m.frames.WellScoped) {caller : Nat} (hcaller : caller < m.frames.size)
    (steps room : Nat) (form : Value) (ctx : Context) :
    run (steps + 1) room (.call (.builtin .eval) [form] caller) ctx m =
      run steps room (.eval form Session.rootFrame) ctx m := by
  have hstep : step (nestedRun steps room) (.call (.builtin .eval) [form] caller) ctx m =
      some (.ok (.next form (m.frames.root caller)), m) := rfl
  rw [run_of_next hstep, hm.root_eq hcaller]
  rfl

namespace Session

/-- **Calls do not see their caller.** At every moment of a session, a call of any value with any arguments that are
there comes to the same outcome from all frames: the same value or error, the same output, the same frames. And a call
of `eval`, from whatever frame, evaluates the form in the root frame. -/
theorem Moment.call_fromAnywhere {task? : Option Task} {m : Machine} (h : Moment task? m) {fn : Value}
    {args : List Value} (hfn : fn.InScope m.frames.size) (hargs : ∀ v ∈ args, v.InScope m.frames.size)
    {caller caller' : Nat} (hcaller : caller < m.frames.size) (hcaller' : caller' < m.frames.size) (ctx : Context) :
    callFunction fn args caller ctx m = callFunction fn args caller' ctx m ∧
      ∀ form steps room, run (steps + 1) room (.call (.builtin .eval) [form] caller) ctx m =
        run steps room (.eval form rootFrame) ctx m := by
  have hm := h.inScope.1
  refine ⟨?_, fun form steps room => run_eval hm hcaller steps room form ctx⟩
  exact run_ignoresCaller ctx.limits.steps ctx.limits.depth ctx caller caller' m fn args hm hfn hargs hcaller hcaller'

/-- In the body of a form with local bindings, a call of `eval` with the name that is bound there comes to what it comes
to in the root. -/
theorem Moment.call_fromAnywhere_localBody :
    callFunction (.builtin .eval) [.symbol "x"] 1 ⟨{}, fun _ => .error .notFound⟩ localBody =
      callFunction (.builtin .eval) [.symbol "x"] 0 ⟨{}, fun _ => .error .notFound⟩ localBody := by
  have hargs : ∀ v ∈ [Value.symbol "x"], v.InScope localBody.frames.size := fun v hv =>
    List.mem_singleton.mp hv ▸ .symbol "x"
  exact (moment_localBody.call_fromAnywhere (.builtin .eval) hargs (by decide) (by decide) _).1

end Session

end SmallLisp
