import SmallLisp.Proofs.Application
import SmallLisp.Proofs.Reach

/-! Tail calls take no depth. A chain of steps that pass on is followed with the room that it was begun with, however
long it is, and the depth limit is passed only where the work of a single step takes more than this room. So a loop
that calls itself in tail position can take as many turns as it likes. -/

namespace SmallLisp

open EvalM SmallLisp.Computation

/-! ### Chains of tail steps -/

/-- So many steps pass on from one task to another. -/
inductive TailSteps (nested : Nested) (ctx : Context) : Nat → Task → Machine → Task → Machine → Prop
  | refl (task : Task) (m : Machine) : TailSteps nested ctx 0 task m task m
  | step {k : Nat} {task task₁ task' : Task} {m m₁ m' : Machine} : TailStep nested ctx task m task₁ m₁ →
      TailSteps nested ctx k task₁ m₁ task' m' → TailSteps nested ctx (k + 1) task m task' m'

/-- Begun with this room, which is what the depth limit still leaves, running the task ends so, if only it may take
enough steps. -/
def EndsWithin (room : Nat) (task : Task) (ctx : Context) (m : Machine) (outcome : Except Error Value × Machine) :
    Prop :=
  ∃ steps, run steps room task ctx m = some outcome

section

variable {room : Nat} {ctx : Context} {task task' : Task} {m m' : Machine}

/-- A run that has come to an end does not change with the steps that it may take. -/
theorem run_mono {steps n : Nat} (hle : steps ≤ n) (task : Task) :
    Below Value (run steps room task) fun _ => run n room task := by
  induction steps generalizing n room task with
  | zero => exact fun _ _ _ h => nomatch h
  | succ steps ih =>
      obtain ⟨n, rfl⟩ : ∃ k, n = k + 1 := ⟨n - 1, by omega⟩
      have hle : steps ≤ n := Nat.le_of_succ_le_succ hle
      have hnested : ∀ task, Below Value (nestedRun steps room task) fun _ => nestedRun n room task := by
        cases room with
        | zero => exact fun _ _ _ _ h => h
        | succ room => exact ih hle
      simp only [run_succ]
      have hR := Below.sequential
      exact hR.bind (hR.step hnested task) (hR.finish (ih hle))

/-- With all the room that the depth limit gives, this is how the evaluation of a form ends. -/
theorem endsWithin_iff_evaluate {form : Value} {frame : Nat} {outcome : Except Error Value × Machine} :
    EndsWithin room (.eval form frame) ctx m outcome ↔
      ∃ n, ∀ steps ≥ n, evaluate form frame (ctx.allowing room steps) m = some outcome := by
  simp only [evaluate, perform_allowing]
  constructor
  · rintro ⟨n, hn⟩
    exact ⟨n, fun steps hsteps => run_mono hsteps _ ctx m outcome hn⟩
  · rintro ⟨n, hn⟩
    exact ⟨n, hn n (Nat.le_refl n)⟩

theorem nestedRun_mono {steps n : Nat} (hle : steps ≤ n) (task : Task) :
    Below Value (nestedRun steps room task) fun _ => nestedRun n room task := by
  cases room with
  | zero => exact fun _ _ _ h => h
  | succ room => exact run_mono hle task

theorem step_mono {steps n : Nat} (hle : steps ≤ n) (task : Task) :
    Below Step (step (nestedRun steps room) task) fun _ => step (nestedRun n room) task :=
  Below.sequential.step (nestedRun_mono hle) task

theorem TailStep.mono {steps n : Nat} (hle : steps ≤ n) (h : TailStep (nestedRun steps room) ctx task m task' m') :
    TailStep (nestedRun n room) ctx task m task' m' := by
  obtain ⟨form, frame, rfl⟩ := h.exists_eval
  exact step_eq_next_iff.mp (step_mono hle task ctx m _ (step_eq_next_iff.mpr h))

/-- A step that passes on leaves the room as it is. -/
theorem TailStep.run_eq {steps n : Nat} (hle : steps ≤ n) (h : TailStep (nestedRun steps room) ctx task m task' m') :
    run (n + 1) room task ctx m = run n room task' ctx m' := by
  obtain ⟨form, frame, rfl⟩ := h.exists_eval
  exact run_of_next (step_eq_next_iff.mpr (h.mono hle))

/-- So do any number of such steps. -/
theorem TailSteps.run_eq {steps k n : Nat} (hle : steps ≤ n)
    (h : TailSteps (nestedRun steps room) ctx k task m task' m') :
    run (n + k) room task ctx m = run n room task' ctx m' := by
  induction h with
  | refl task m => rfl
  | @step k task task₁ task' m m₁ m' hstep _ ih =>
      rw [← Nat.add_assoc, hstep.run_eq (Nat.le_trans hle (Nat.le_add_right n k)), ih]

theorem TailSteps.endsWithin_iff {steps k : Nat} (h : TailSteps (nestedRun steps room) ctx k task m task' m')
    (outcome : Except Error Value × Machine) :
    EndsWithin room task ctx m outcome ↔ EndsWithin room task' ctx m' outcome := by
  constructor
  · rintro ⟨n, hn⟩
    refine ⟨n + steps, ?_⟩
    rw [← h.run_eq (Nat.le_add_left steps n)]
    exact run_mono (by omega) task ctx m outcome hn
  · rintro ⟨n, hn⟩
    refine ⟨n + steps + k, ?_⟩
    rw [h.run_eq (Nat.le_add_left steps n)]
    exact run_mono (Nat.le_add_right n steps) task' ctx m' outcome hn

/-- A run that passes the depth limit gets by tail steps to a task whose work on the way passes the limit. -/
theorem exists_work_of_run {steps n : Nat} (hle : steps ≤ n)
    (h : run steps room task ctx m = some (.error (.overrun .depth), m')) :
    ∃ k task' m₁ t m₂, TailSteps (nestedRun n room) ctx k task m task' m₁ ∧
      Work (nestedRun n room) ctx task' m₁ t m₂ ∧
        nestedRun n room t ctx m₂ = some (.error (.overrun .depth), m') := by
  induction steps generalizing task m with
  | zero => cases h
  | succ steps ih =>
      have hle : steps ≤ n := Nat.le_of_succ_le hle
      rw [run_succ] at h
      -- the step is seen with `n` steps for its work, so that the whole chain is made with the same nested evaluator
      rcases bind_eq_some h with ⟨outcome, m₁, hstep, hrest⟩ | ⟨e, m₁, hstep, houtcome⟩
      · cases outcome with
        | value v => cases hrest
        | next form frame =>
            obtain ⟨k, task', m₂, t, m₃, hsteps, hwork, ht⟩ := ih hle hrest
            have htail := step_eq_next_iff.mp (step_mono hle task ctx m _ hstep)
            exact ⟨k + 1, task', m₂, t, m₃, .step htail hsteps, hwork, ht⟩
      · cases houtcome
        obtain ⟨t, m₂, hwork, ht⟩ :=
          (charted_step (nestedRun n room) ctx task m).blames m' (step_mono hle task ctx m _ hstep)
        exact ⟨0, task, m, t, m₂, .refl task m, hwork, ht⟩

theorem Work.endsWithin {steps : Nat} {t : Task} {m₁ : Machine} {e : Error}
    (h : Work (nestedRun steps room) ctx task m t m₁) (he : nestedRun steps room t ctx m₁ = some (.error e, m')) :
    EndsWithin room task ctx m (.error e, m') := by
  refine ⟨steps + 1, ?_⟩
  rw [run_succ]
  exact bind_of_error (h.step he)

/-- A loop each turn of which is made of tail steps ends as it ends after any number of turns. -/
theorem exists_turn {turn : Nat → Task → Machine → Prop} {count : Nat}
    (hturn : ∀ i < count, ∀ task m, turn i task m →
      ∃ steps k task' m', TailSteps (nestedRun steps room) ctx k task m task' m' ∧ turn (i + 1) task' m')
    (h : turn 0 task m) :
    ∃ task' m', turn count task' m' ∧ ∀ outcome, EndsWithin room task ctx m outcome ↔
      EndsWithin room task' ctx m' outcome := by
  induction count with
  | zero => exact ⟨task, m, h, fun _ => Iff.rfl⟩
  | succ count ih =>
      obtain ⟨task₁, m₁, hcount, hsame⟩ := ih fun i hi => hturn i (Nat.lt_succ_of_lt hi)
      obtain ⟨steps, k, task', m', hsteps, hnext⟩ := hturn count (Nat.lt_succ_self count) task₁ m₁ hcount
      exact ⟨task', m', hnext, fun outcome => (hsame outcome).trans (hsteps.endsWithin_iff outcome)⟩

end

/-! ### Counting down -/

/-- The body of a function that counts down: `(if (= n 0) "done" (loop (- n 1)))`. -/
def countdownBody : Value :=
  .list [.symbol "if", .list [.symbol "=", .symbol "n", .int 0], .text "done",
    .list [.symbol "loop", .list [.symbol "-", .symbol "n", .int 1]]]

/-- What the names in the function stand for; it was made in the root frame. -/
def countdownBindings (stamp : Nat) : List (String × Value) := [
  ("loop", .closure stamp ⟨["n"], none⟩ countdownBody Session.rootFrame), ("=", .builtin (.primitive .equal)),
  ("-", .builtin (.primitive (.arith .sub)))]

/-- The names of the function stand for what they should, where the frame looks them up and in the root frame. -/
structure SeesCountdown (stamp : Nat) (m : Machine) (frame : Nat) : Prop where
  wellScoped : m.frames.WellScoped
  inFrame : ∀ entry ∈ countdownBindings stamp, m.frames.get? frame entry.1 = some entry.2
  inRoot : ∀ entry ∈ countdownBindings stamp, m.frames.get? Session.rootFrame entry.1 = some entry.2

/-- The machine with a frame for the body. -/
def withCount (m : Machine) (n : Int) : Machine :=
  { m with frames := (m.frames.extend Session.rootFrame [("n", .int n)]).2 }

section

variable {room stamp frame : Nat} {ctx : Context} {m : Machine} {n : Int}

/-- A primitive of a variable and a number is applied with one level for the parts. -/
theorem run_binary {name operand : String} {p : Primitive} {v w : Value} (k : Int)
    (hname : SpecialForm.ofName? name = none) (hfn : m.frames.get? frame name = some (.builtin (.primitive p)))
    (hoperand : m.frames.get? frame operand = some v) (hrun : p.run ctx [v, .int k] = .ok w) :
    run 2 (room + 1) (.eval (.list [.symbol name, .symbol operand, .int k]) frame) ctx m = some (.ok w, m) := by
  have hargs : List.Forall₂ (Finds (run 1 room) ctx m frame) [.symbol operand, .int k] [v, .int k] :=
    .cons (run_symbol hoperand 0) (.cons rfl .nil)
  rw [run_primitive_application hname hfn hargs, hrun]

namespace SeesCountdown

theorem loop (h : SeesCountdown stamp m frame) :
    m.frames.get? frame "loop" = some (.closure stamp ⟨["n"], none⟩ countdownBody Session.rootFrame) :=
  h.inFrame _ (List.Mem.head _)

theorem equal (h : SeesCountdown stamp m frame) : m.frames.get? frame "=" = some (.builtin (.primitive .equal)) :=
  h.inFrame _ (List.Mem.tail _ (List.Mem.head _))

theorem minus (h : SeesCountdown stamp m frame) :
    m.frames.get? frame "-" = some (.builtin (.primitive (.arith .sub))) :=
  h.inFrame _ (List.Mem.tail _ (List.Mem.tail _ (List.Mem.head _)))

/-- In a frame that is made for the body, the names of the function stand for what they stood for. -/
theorem withCount (h : SeesCountdown stamp m frame) (n : Int) :
    SeesCountdown stamp (withCount m n) m.frames.size ∧
      (SmallLisp.withCount m n).frames.get? m.frames.size "n" = some (.int n) := by
  have hpos := h.wellScoped.size_pos
  have hpairs : ∀ pair ∈ [("n", Value.int n)], pair.2.InScope m.frames.size := fun pair hpair =>
    List.mem_singleton.mp hpair ▸ .int n
  have hget : ∀ other, (SmallLisp.withCount m n).frames.get? m.frames.size other =
      if other = "n" then some (.int n) else m.frames.get? Session.rootFrame other :=
    h.wellScoped.get?_extend_single hpos (.int n)
  have hroot : ∀ name, (SmallLisp.withCount m n).frames.get? Session.rootFrame name =
      m.frames.get? Session.rootFrame name := h.wellScoped.get?_extend_of_lt hpos hpairs hpos
  have hne : ∀ entry ∈ countdownBindings stamp, entry.1 ≠ "n" := by simp [countdownBindings]
  refine ⟨⟨h.wellScoped.extend hpos hpairs, fun entry hentry => ?_, fun entry hentry => ?_⟩, ?_⟩
  · rw [hget, if_neg (hne entry hentry), h.inRoot entry hentry]
  · rw [hroot, h.inRoot entry hentry]
  · rw [hget, if_pos rfl]

/-- A call of the function passes on to its body. -/
theorem call (h : SeesCountdown stamp m frame) {form : Value}
    (hform : nestedRun 2 (room + 1) (.eval form frame) ctx m = some (.ok (.int n), m)) :
    TailStep (nestedRun 2 (room + 1)) ctx (.eval (.list [.symbol "loop", form]) frame) m
      (.eval countdownBody m.frames.size) (SmallLisp.withCount m n) := by
  have hargs : ([form].mapM fun form => nestedRun 2 (room + 1) (.eval form frame)) ctx m =
      some (.ok [.int n], m) := by
    rw [List.mapM_cons, bind_of_ok hform]
    rfl
  exact .application rfl (run_symbol h.loop 1) hargs (.closure rfl)

/-- So does the call that begins the loop. -/
theorem start (h : SeesCountdown stamp m frame) (n : Int) (ctx : Context) (room : Nat) :
    TailSteps (nestedRun 2 (room + 1)) ctx 1 (.eval (.list [.symbol "loop", .int n]) frame) m
      (.eval countdownBody m.frames.size) (SmallLisp.withCount m n) := by
  have hform : nestedRun 2 (room + 1) (.eval (.int n) frame) ctx m = some (.ok (.int n), m) := rfl
  exact .step (h.call hform) (.refl _ _)

section

variable (h : SeesCountdown stamp m frame) (hn : m.frames.get? frame "n" = some (.int n))
  (hnesting : 0 < ctx.limits.nesting)
include h hn hnesting

theorem condition : nestedRun 2 (room + 2) (.eval (.list [.symbol "=", .symbol "n", .int 0]) frame) ctx m =
    some (.ok (.bool (n == 0)), m) := by
  refine run_binary 0 rfl h.equal hn ?_
  obtain ⟨nesting, hnesting⟩ : ∃ k, ctx.limits.nesting = k + 1 := ⟨ctx.limits.nesting - 1, by omega⟩
  rw [Primitive.run, Value.equal, hnesting]
  rfl

/-- A turn: the condition does not hold, and the function is called with the number before. -/
theorem turn (hne : n ≠ 0) :
    TailSteps (nestedRun 2 (room + 2)) ctx 2 (.eval countdownBody frame) m (.eval countdownBody m.frames.size)
      (SmallLisp.withCount m (n - 1)) := by
  have hfalse : (Value.bool (n == 0)).isTruthy = false := by simp [Value.isTruthy, hne]
  have hbranch : TailStep (nestedRun 2 (room + 2)) ctx (.eval countdownBody frame) m
      (.eval (.list [.symbol "loop", .list [.symbol "-", .symbol "n", .int 1]]) frame) m := by
    have hif := @TailStep.branch (nestedRun 2 (room + 2)) ctx (.symbol "if") _ (.text "done")
      (.list [.symbol "loop", .list [.symbol "-", .symbol "n", .int 1]]) _ _ _ _ rfl (h.condition hn hnesting)
    rwa [hfalse] at hif
  exact .step hbranch (.step (h.call (run_binary 1 rfl h.minus hn rfl)) (.refl _ _))

end

/-- Where the condition holds, the loop is done. -/
theorem done (h : SeesCountdown stamp m frame) (hn : m.frames.get? frame "n" = some (.int 0))
    (hnesting : 0 < ctx.limits.nesting) :
    EndsWithin (room + 2) (.eval countdownBody frame) ctx m (.ok (.text "done"), m) := by
  have hbranch : TailStep (nestedRun 2 (room + 2)) ctx (.eval countdownBody frame) m (.eval (.text "done") frame) m :=
    .branch rfl (h.condition hn hnesting)
  have hsteps := TailSteps.step hbranch (.refl _ _)
  exact (hsteps.endsWithin_iff _).mpr ⟨1, rfl⟩

end SeesCountdown

/-- The loop, with so many turns to go. -/
def TurnsLeft (stamp n : Nat) (task : Task) (m : Machine) : Prop :=
  ∃ frame, task = .eval countdownBody frame ∧ SeesCountdown stamp m frame ∧ m.frames.get? frame "n" = some (.int n)

section

variable {count : Nat} {task : Task} (hnesting : 0 < ctx.limits.nesting)
include hnesting

theorem TurnsLeft.next {i : Nat} (hi : i < count) (h : TurnsLeft stamp (count - i) task m) :
    ∃ steps k task' m', TailSteps (nestedRun steps (room + 2)) ctx k task m task' m' ∧
      TurnsLeft stamp (count - (i + 1)) task' m' := by
  obtain ⟨frame, rfl, hsees, hleft⟩ := h
  have hless : ((count - i : Nat) : Int) - 1 = (count - (i + 1) : Nat) := by omega
  refine ⟨2, 2, _, _, hsees.turn hleft hnesting (by omega), m.frames.size, rfl, ?_⟩
  rw [hless]
  exact hsees.withCount _

theorem TurnsLeft.endsWithin (h : TurnsLeft stamp 0 task m) :
    EndsWithin (room + 2) task ctx m (.ok (.text "done"), m) := by
  obtain ⟨frame, rfl, hsees, hleft⟩ := h
  exact hsees.done hleft hnesting

/-- **Counting down** from any number takes no more room than the forms inside one another in a single turn. -/
theorem countdown_endsWithin (h : SeesCountdown stamp m frame) (count : Nat) :
    ∃ m', EndsWithin (room + 2) (.eval (.list [.symbol "loop", .int count]) frame) ctx m
      (.ok (.text "done"), m') := by
  have hfirst : TurnsLeft stamp (count - 0) (.eval countdownBody m.frames.size) (withCount m count) :=
    ⟨m.frames.size, rfl, h.withCount count⟩
  obtain ⟨task', m', hlast, hsame⟩ :=
    @exists_turn (room + 2) ctx _ _ (fun i => TurnsLeft stamp (count - i)) count
      (fun i hi task m => TurnsLeft.next hnesting hi) hfirst
  rw [Nat.sub_self] at hlast
  have hstart := h.start count ctx (room + 1)
  exact ⟨m', (hstart.endsWithin_iff _).mpr ((hsame _).mpr (hlast.endsWithin hnesting))⟩

end

end

/-- **Tail calls take no depth.** Whatever room there is when a task is begun, its run passes the depth limit exactly
if some number of tail steps lead to a task whose work on the way, done with this same room, passes it. A chain of
tail steps, of whatever length, ends as the task at its end does; so does a loop that is made of them, after whatever
number of turns. -/
theorem tailSteps_depth (room : Nat) (ctx : Context) :
    (∀ task m m', EndsWithin room task ctx m (.error (.overrun .depth), m') ↔
      ∃ steps k task' m₁ t m₂, TailSteps (nestedRun steps room) ctx k task m task' m₁ ∧
        Work (nestedRun steps room) ctx task' m₁ t m₂ ∧
          nestedRun steps room t ctx m₂ = some (.error (.overrun .depth), m')) ∧
    (∀ steps k task m task' m', TailSteps (nestedRun steps room) ctx k task m task' m' → ∀ outcome,
      EndsWithin room task ctx m outcome ↔ EndsWithin room task' ctx m' outcome) ∧
    ∀ (turn : Nat → Task → Machine → Prop) (count : Nat),
      (∀ i < count, ∀ task m, turn i task m →
        ∃ steps k task' m', TailSteps (nestedRun steps room) ctx k task m task' m' ∧ turn (i + 1) task' m') →
      ∀ task m, turn 0 task m → ∃ task' m', turn count task' m' ∧ ∀ outcome,
        EndsWithin room task ctx m outcome ↔ EndsWithin room task' ctx m' outcome := by
  refine ⟨fun task m m' => ⟨?_, ?_⟩, fun steps k task m task' m' => TailSteps.endsWithin_iff,
    fun turn count hturn task m => exists_turn hturn⟩
  · rintro ⟨steps, h⟩
    exact ⟨steps, exists_work_of_run (Nat.le_refl steps) h⟩
  · rintro ⟨steps, k, task', m₁, t, m₂, hsteps, hwork, ht⟩
    exact (hsteps.endsWithin_iff _).mpr (hwork.endsWithin ht)

/-- A new session in which the function that counts down is defined. -/
def Session.withCountdown : Session :=
  ((runFirst "(def! loop (fn* (n) (if (= n 0) \"done\" (loop (- n 1)))))" ⟨{}, fun _ => .error .notFound⟩
    initial).map Prod.snd).getD initial

theorem Session.sees_withCountdown : SeesCountdown 2 withCountdown.machine rootFrame := by
  have hnames : ∀ entry ∈ countdownBindings 2,
      withCountdown.machine.frames.get? rootFrame entry.1 = some entry.2 := by decide +kernel
  refine ⟨?_, hnames, hnames⟩
  have hinitial : initial.Reachable := .start _ _
  have hreachable : withCountdown.Reachable := by
    unfold withCountdown
    generalize "(def! loop (fn* (n) (if (= n 0) \"done\" (loop (- n 1)))))" = source
    generalize initial = s at hinitial
    cases hrun : runFirst source ⟨{}, fun _ => .error .notFound⟩ s with
    | none => exact hinitial
    | some outcome => exact .runFirst hinitial hrun
  exact hreachable.wellScoped

/-- Counting down from a thousand comes to its end with two levels for nested work, and passes the limit with one. -/
theorem tailSteps_depth_countdown :
    (∃ m', EndsWithin 2 (.eval (.list [.symbol "loop", .int 1000]) Session.rootFrame)
      ⟨{}, fun _ => .error .notFound⟩ Session.withCountdown.machine (.ok (.text "done"), m')) ∧
    ∃ m', EndsWithin 1 (.eval (.list [.symbol "loop", .int 1000]) Session.rootFrame)
      ⟨{}, fun _ => .error .notFound⟩ Session.withCountdown.machine (.error (.overrun .depth), m') := by
  generalize hctx : (⟨{}, fun _ => .error .notFound⟩ : Context) = ctx
  have hnesting : 0 < ctx.limits.nesting := by
    rw [← hctx]
    decide
  have h := Session.sees_withCountdown
  generalize Session.withCountdown.machine = m at h
  constructor
  · obtain ⟨-, hchain, hloop⟩ := tailSteps_depth 2 ctx
    have hfirst : TurnsLeft 2 (1000 - 0) (.eval countdownBody m.frames.size) (withCount m 1000) :=
      ⟨m.frames.size, rfl, h.withCount 1000⟩
    obtain ⟨task', m', hlast, hsame⟩ := hloop (fun i => TurnsLeft 2 (1000 - i)) 1000
      (fun i hi task m => TurnsLeft.next hnesting hi) _ _ hfirst
    rw [Nat.sub_self] at hlast
    exact ⟨m', (hchain _ _ _ _ _ _ (h.start 1000 ctx 1) _).mpr ((hsame _).mpr (hlast.endsWithin hnesting))⟩
  · -- in the body, the condition has no room for its parts
    exact ⟨_, ((tailSteps_depth 1 ctx).1 _ _ _).mpr
      ⟨2, 1, _, _, _, _, h.start 1000 ctx 0, .condition rfl (.inr rfl), rfl⟩⟩

end SmallLisp
