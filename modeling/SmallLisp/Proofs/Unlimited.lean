import SmallLisp.Proofs.Reach
import SmallLisp.Proofs.Recursion

/-! Sessions with the limits on depth and steps left aside. What a session then does to its machine is what a
computation by plain recursion does, and this can be told from the parts of which the session's computation is
made. Plain recursion in its turn does not depend on how frames and closures are numbered. -/

namespace SmallLisp

open SmallLisp.Computation

/-! ### Recursion and renumbering -/

/-- Plain recursion writes where the evaluator writes, and does the same under another numbering. -/
theorem Recursive.tracks_perform {ρ : Renumbering} {task : Task} {ctx : Context} {m m' : Machine}
    (h : m.Image ρ m') (htask : task.InScope m.frames.size) :
    Tracks ρ (task.Writes (· = 0)) (Value.rename ρ) Value.InScope (Recursive.perform task)
      (Recursive.perform (task.rename ρ)) ctx m m' := by
  have hrun : ∀ n, Tracks ρ (task.Writes (· = 0)) (Value.rename ρ) Value.InScope (run n n task)
      (run n n (task.rename ρ)) ctx m m' := by
    intro n
    have hruns := tracks_runBy (Applying.tracks_applyStep ρ ctx) n n task m m' h htask
    rwa [runBy_applyStep] at hruns
  have hends : ∀ {task : Task} {m : Machine} {outcome : Except Error Value × Machine},
      Recursive.perform task ctx m = some outcome → ∃ n, run n n task ctx m = some outcome := by
    intro task m outcome houtcome
    obtain ⟨n, hn⟩ := (Recursive.perform_eq_some_iff task ctx m outcome).mp houtcome
    exact ⟨n, hn n (Nat.le_refl n) n (Nat.le_refl n)⟩
  have hrecursion : ∀ {task : Task} {m : Machine} {outcome : Except Error Value × Machine} {n : Nat},
      run n n task ctx m = some outcome → Recursive.perform task ctx m = some outcome :=
    fun {task m outcome n} hn => Recursive.covers_run n task n ctx m outcome hn (.inl (Nat.le_refl n))
  refine ⟨fun r k hr => ?_, fun r k hr => ?_, fun hnone => ?_⟩
  · obtain ⟨n, hn⟩ := hends hr
    exact (hrun n).lands r k hn
  · obtain ⟨n, hn⟩ := hends hr
    obtain ⟨k', hk', himage⟩ := (hrun n).mirrors r k hn
    exact ⟨k', hrecursion hk', himage⟩
  · cases hother : Recursive.perform (task.rename ρ) ctx m' with
    | none => rfl
    | some outcome =>
        obtain ⟨n, hn⟩ := hends hother
        cases hself : run n n task ctx m with
        | none => rw [(hrun n).silent hself] at hn; cases hn
        | some outcome' => rw [hrecursion hself] at hnone; cases hnone

/-! ### What a session does to its machine -/

namespace Session

/-- With the limits on depth and steps left aside, the computation of a session ends with what the other
computation gives on the machine of the session, and does to the machine what that one does. -/
structure Denotes (ctx : Context) {α : Type} (x : SessionM α) (y : EvalM α) : Prop where
  sound : ∀ n s r t, x (ctx.allowing n n) s = some (r, t) → y ctx s.machine = some (r, t.machine)
  complete : ∀ s r m, y ctx s.machine = some (r, m) → ∃ t, t.machine = m ∧ Ends x ctx s (r, t)

namespace Denotes

variable {ctx : Context} {α β γ : Type}

theorem of_ends {x : SessionM α} {y : EvalM α} (h : Denotes ctx x y) {s t : Session} {r : Except Error α}
    (hends : Ends x ctx s (r, t)) : y ctx s.machine = some (r, t.machine) := by
  obtain ⟨n, hn⟩ := hends
  exact h.sound n s r t (hn n (Nat.le_refl n) n (Nat.le_refl n))

theorem ends_iff {x : SessionM α} {y : EvalM α} (h : Denotes ctx x y) (s : Session) :
    (∃ outcome, Ends x ctx s outcome) ↔ (y ctx s.machine).isSome := by
  constructor
  · rintro ⟨⟨r, t⟩, hends⟩
    rw [h.of_ends hends]
    rfl
  · intro hy
    obtain ⟨⟨r, m⟩, hm⟩ := Option.isSome_iff_exists.mp hy
    obtain ⟨t, _, hends⟩ := h.complete s r m hm
    exact ⟨(r, t), hends⟩

protected theorem pure (a : α) : Denotes ctx (pure a) (pure a) where
  sound n s r t h := by
    cases h
    rfl
  complete s r m h := by
    cases h
    exact ⟨s, rfl, 0, fun _ _ _ _ => rfl⟩

theorem bind {x : SessionM α} {y : EvalM α} {f : α → SessionM β} {g : α → EvalM β} (hx : Denotes ctx x y)
    (hf : ∀ a, Denotes ctx (f a) (g a)) : Denotes ctx (x >>= f) (y >>= g) where
  sound n s r t h := by
    rcases bind_eq_some h with ⟨a, s₁, ha, hrest⟩ | ⟨e, s₁, he, houtcome⟩
    · rw [bind_of_ok (hx.sound n s _ s₁ ha)]
      exact (hf a).sound n s₁ r t hrest
    · cases houtcome
      exact bind_of_error (hx.sound n s _ t he)
  complete s r m h := by
    rcases bind_eq_some h with ⟨a, m₁, ha, hrest⟩ | ⟨e, m₁, he, houtcome⟩
    · obtain ⟨s₁, rfl, n, hn⟩ := hx.complete s _ m₁ ha
      obtain ⟨t, ht, k, hk⟩ := (hf a).complete s₁ r m hrest
      refine ⟨t, ht, max n k, fun depth hdepth steps hsteps => ?_⟩
      rw [bind_of_ok (hn depth (by omega) steps (by omega))]
      exact hk depth (by omega) steps (by omega)
    · cases houtcome
      obtain ⟨t, ht, n, hn⟩ := hx.complete s _ m he
      exact ⟨t, ht, n, fun depth hdepth steps hsteps => bind_of_error (hn depth hdepth steps hsteps)⟩

theorem mapM {x : γ → SessionM α} {y : γ → EvalM α} (h : ∀ c, Denotes ctx (x c) (y c)) (cs : List γ) :
    Denotes ctx (cs.mapM x) (cs.mapM y) := by
  induction cs with
  | nil => exact .pure []
  | cons c cs ih =>
      rw [List.mapM_cons, List.mapM_cons]
      exact (h c).bind fun a => ih.bind fun as => .pure (a :: as)

/-- What is done to the machine of a session. -/
theorem onMachine {x y : EvalM α}
    (hsound : ∀ n m outcome, x (ctx.allowing n n) m = some outcome → y ctx m = some outcome)
    (hcomplete : ∀ m outcome, y ctx m = some outcome → Ends x ctx m outcome) :
    Denotes ctx (Session.onMachine x) y where
  sound n s r t hx := by
    obtain ⟨m, hm, rfl⟩ := onMachine_eq_some hx
    exact hsound n s.machine (r, m) hm
  complete s r m hy := by
    obtain ⟨n, hn⟩ := hcomplete s.machine (r, m) hy
    exact ⟨⟨m, s.submitted⟩, rfl, n, fun depth hdepth steps hsteps =>
      onMachine_of_eq_some (hn depth hdepth steps hsteps)⟩

theorem onMachine_limitFree {x : EvalM α} (hx : LimitFree x) : Denotes ctx (Session.onMachine x) x := by
  refine onMachine (fun n m outcome h => ?_) fun m outcome h => ⟨0, fun depth _ steps _ => ?_⟩
  · rwa [hx ctx n n] at h
  · rwa [hx ctx depth steps]

/-- It is enough to know a computation within the limits of the context and those with another allowance. -/
theorem congr {x x' : SessionM α} {y : EvalM α} (h : Denotes ctx x y)
    (hx : ∀ depth steps, x' (ctx.allowing depth steps) = x (ctx.allowing depth steps)) : Denotes ctx x' y where
  sound n s r t hr := h.sound n s r t ((hx n n).symm ▸ hr)
  complete s r m hy := by
    obtain ⟨t, ht, n, hn⟩ := h.complete s r m hy
    refine ⟨t, ht, n, fun depth hdepth steps hsteps => ?_⟩
    rw [hx depth steps]
    exact hn depth hdepth steps hsteps

/-- A form that is submitted is evaluated in the root frame. -/
theorem submit (form : Value) : Denotes ctx (Session.submit form) (Recursive.evaluate form rootFrame) := by
  have hmodify :
      Denotes ctx (modify fun s : Session => { s with submitted := s.submitted.push form }) (pure ()) :=
    { sound := fun n s r t h => by
        cases h
        rfl
      complete := fun s r m h => by
        cases h
        exact ⟨{ s with submitted := s.submitted.push form }, rfl, 0, fun _ _ _ _ => rfl⟩ }
  have hevaluate : Denotes ctx (Session.onMachine (evaluate form rootFrame))
      (Recursive.evaluate form rootFrame) := by
    refine onMachine (fun n m outcome h => ?_) fun m outcome =>
      (Recursive.ends_perform_iff (.eval form rootFrame) ctx m outcome).mpr
    have hrun : run n n (.eval form rootFrame) ctx m = some outcome :=
      (perform_allowing (.eval form rootFrame) ctx m n n).symm.trans h
    exact Recursive.covers_run n _ n ctx m outcome hrun (.inl (Nat.le_refl n))
  exact hmodify.bind fun _ => hevaluate

theorem setArgv (argv : List String) :
    Denotes ctx (Session.setArgv argv) (EvalM.bindName rootFrame "*ARGV*" (.list (argv.map .text))) :=
  onMachine_limitFree fun _ _ _ => rfl

theorem loadFile (path : String) (argv : List String) :
    Denotes ctx (Session.loadFile path argv) (do
      EvalM.bindName rootFrame "*ARGV*" (.list (argv.map .text))
      Recursive.evaluate (.list [.symbol "load-file", .text path]) rootFrame) :=
  (setArgv argv).bind fun _ => submit _

end Denotes

end Session

end SmallLisp
