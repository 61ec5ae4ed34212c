import SmallLisp.Proofs.Outward
import SmallLisp.Proofs.Reach
import SmallLisp.Proofs.Steps

/-! Moments of a session. Between two tasks, and all through a task, a session has some machine; while it works, it is
also at some task: the one that was submitted, one that a step has passed on to, or one that has to be done on the way.
At every moment all that is mentioned anywhere exists and all ways outwards end in the root, for what a step passes on
to, and what it asks for, mentions nothing else than what is there by then. -/

namespace SmallLisp

open Frames

/-! ### What a value and a task mention -/

/-- A value captures a frame if a closure over the frame is somewhere in it, in data or in code. -/
inductive Value.Captures (frame : Nat) : Value → Prop
  | closure {stamp : Nat} {params : Params} {body : Value} : Captures frame (.closure stamp params body frame)
  | body {stamp captured : Nat} {params : Params} {body : Value} : Captures frame body →
      Captures frame (.closure stamp params body captured)
  | list {items : List Value} {v : Value} : v ∈ items → Captures frame v → Captures frame (.list items)
  | vector {items : List Value} {v : Value} : v ∈ items → Captures frame v → Captures frame (.vector items)
  | map {entries : List (String × Value)} {entry : String × Value} : entry ∈ entries → Captures frame entry.2 →
      Captures frame (.map entries)

theorem Value.InScope.lt_of_captures {size frame : Nat} {v : Value} (h : v.InScope size) (hframe : v.Captures frame) :
    frame < size := by
  induction hframe with
  | closure => exact (inScope_closure.mp h).1
  | body _ ih => exact ih (inScope_closure.mp h).2
  | list hmem _ ih => exact ih (inScope_list.mp h _ hmem)
  | vector hmem _ ih => exact ih (inScope_vector.mp h _ hmem)
  | map hmem _ ih => exact ih (inScope_map.mp h _ hmem)

/-- A task mentions the frame that it is done in and what its values capture. -/
def Task.Mentions (frame : Nat) : Task → Prop
  | .eval form inside => frame = inside ∨ form.Captures frame
  | .call fn args caller => frame = caller ∨ ∃ v ∈ fn :: args, v.Captures frame

theorem Task.InScope.lt_of_mentions {size frame : Nat} {task : Task} (h : task.InScope size)
    (hframe : task.Mentions frame) : frame < size := by
  cases task with
  | eval form inside =>
      obtain ⟨hform, hinside⟩ := h
      rcases hframe with rfl | hframe
      · exact hinside
      · exact hform.lt_of_captures hframe
  | call fn args caller =>
      obtain ⟨hfn, hargs, hcaller⟩ := h
      rcases hframe with rfl | ⟨v, hv, hframe⟩
      · exact hcaller
      · rcases List.mem_cons.mp hv with rfl | hv
        · exact hfn.lt_of_captures hframe
        · exact (hargs v hv).lt_of_captures hframe

/-- What a run ends with captures what the value captures, or the value that was thrown. -/
def Result.Captures (frame : Nat) : Except Error Value → Prop
  | .ok v => v.Captures frame
  | .error (.thrown v) => v.Captures frame
  | .error _ => False

theorem Safe.lt_of_captures {size frame : Nat} {r : Except Error Value} (h : Safe size (Value.InScope size) r)
    (hframe : Result.Captures frame r) : frame < size := by
  unfold Result.Captures at hframe
  split at hframe
  · exact Value.InScope.lt_of_captures h hframe
  · exact Value.InScope.lt_of_captures h hframe
  · cases hframe

/-! ### What a step passes on to, and what it asks for -/

theorem Tracks.leaves {ρ : Renumbering} {writable : Nat → Prop} {α β : Type} {f : α → β} {good : Nat → α → Prop}
    {x : EvalM α} {x' : EvalM β} {ctx : Context} {m m' n : Machine} {a : α}
    (hx : Tracks ρ writable f good x x' ctx m m') (h : x ctx m = some (.ok a, n)) :
    n.frames.WellScoped ∧ m.frames.size ≤ n.frames.size ∧ good n.frames.size a := by
  obtain ⟨hevolves, ha⟩ := hx.lands _ n h
  exact ⟨hx.wellScoped h, hevolves.size_le, ha⟩

/-- Any frame may be written to. -/
def Anywhere (_ : Nat) : Prop := True

theorem anywhere {opened : Nat → Prop} (i : Nat) (_ : opened i) : Anywhere i := trivial

theorem tracks_nestedRun (ρ : Renumbering) (ctx : Context) (steps room : Nat) :
    Nested.Tracks ρ (· = 0) (nestedRun steps room) (nestedRun steps room) ctx := by
  cases room with
  | zero => exact fun task m m' h _ => Tracks.throw h trivial
  | succ room => exact tracks_run ρ ctx steps room

section

variable {nested : Nested} {ctx : Context} (hnested : Nested.Tracks .same (· = 0) nested nested ctx)
  {task task' : Task} {m m' : Machine} (hm : m.frames.WellScoped)
include hnested hm

/-- What a step passes on to mentions nothing else than what is there by then. -/
theorem TailStep.inScope (h : TailStep nested ctx task m task' m') (htask : task.InScope m.frames.size) :
    m'.frames.WellScoped ∧ task'.InScope m'.frames.size := by
  obtain ⟨form, frame, rfl⟩ := h.exists_eval
  have hstep := tracks_stepBy (Applying.tracks_applyStep .same ctx) hnested (.same hm) htask
    anywhere fun _ _ => trivial
  rw [stepBy_applyStep] at hstep
  obtain ⟨hm', _, hform, hframe, _⟩ := hstep.leaves (step_eq_next_iff.mpr h)
  exact ⟨hm', hform, hframe⟩

theorem leaves_evalAll {frame : Nat} {forms vs : List Value} (hframe : frame < m.frames.size)
    (hforms : ∀ form ∈ forms, form.InScope m.frames.size)
    (h : (forms.mapM fun form => nested (.eval form frame)) ctx m = some (.ok vs, m')) :
    m'.frames.WellScoped ∧ m.frames.size ≤ m'.frames.size ∧ ∀ v ∈ vs, v.InScope m'.frames.size :=
  (hnested.evalAll anywhere (.same hm) hframe trivial hforms).leaves h

theorem leaves_eval {frame : Nat} {form v : Value} (hframe : frame < m.frames.size) (hform : form.InScope m.frames.size)
    (h : nested (.eval form frame) ctx m = some (.ok v, m')) :
    m'.frames.WellScoped ∧ m.frames.size ≤ m'.frames.size ∧ v.InScope m'.frames.size :=
  (hnested.eval anywhere (.same hm) hform hframe trivial).leaves h

theorem Callback.inScope {fn : Value} {args : List Value} {caller : Nat}
    (h : Callback nested ctx fn args caller m task m') (hargs : ∀ v ∈ args, v.InScope m.frames.size)
    (hcaller : caller < m.frames.size) : m'.frames.WellScoped ∧ task.InScope m'.frames.size := by
  cases h with
  | apply hitems =>
      refine ⟨hm, hargs _ List.mem_cons_self, Value.forall_spread Value.InScope.elements (fun v hv => ?_) hitems, hcaller⟩
      exact hargs v (List.mem_cons_of_mem _ hv)
  | @map fn xs x done rest vs _ _ _ hitems hvs =>
      have hfn := hargs fn (by simp)
      have hall := (hargs xs (by simp)).elements hitems
      have heach := hnested.callEach anywhere (.same hm) hfn
        (fun v hv => hall v (List.mem_append_left _ hv)) hcaller
      obtain ⟨hm', hle, _⟩ := heach.leaves hvs
      refine ⟨hm', hfn.mono hle, fun v hv => ?_, Nat.lt_of_lt_of_le hcaller hle⟩
      rw [List.mem_singleton.mp hv]
      exact (hall x (by simp)).mono hle

/-- What a step asks for mentions nothing else than what is there by then. -/
theorem Work.inScope (h : Work nested ctx task m task' m') (htask : task.InScope m.frames.size) :
    m'.frames.WellScoped ∧ task'.InScope m'.frames.size := by
  cases h with
  | definition _ => exact ⟨hm, Value.inScope_list.mp htask.1 _ (by simp), htask.2⟩
  | @binding head bindings body form name items done rest frame _ _ _ hitems hpairs hdone =>
      obtain ⟨hform, hframe⟩ := htask
      -- the earlier bindings are evaluated in the frame that the form opens, on top of the frames there are
      have hinner := hm.extend hframe fun pair hpair => (List.not_mem_nil hpair).elim
      have hlt : m.frames.size < (m.frames.extend frame []).2.size := by
        rw [size_extend]
        exact Nat.lt_succ_self _
      have hall : ∀ pair ∈ done ++ (.symbol name, form) :: rest, pair.2.InScope (m.frames.extend frame []).2.size := by
        intro pair hpair
        have hbindings := Value.inScope_list.mp hform bindings (by simp)
        exact (hbindings.elements hitems _ (Assoc.mem_pairUp? hpairs pair hpair).2).mono (Nat.le_of_lt hlt)
      obtain ⟨hm', hle, _⟩ := (tracks_bindLocals hnested anywhere (.same hinner)
        hlt trivial fun pair hpair => hall pair (List.mem_append_left _ hpair)).leaves hdone
      exact ⟨hm', (hall (.symbol name, form) (by simp)).mono hle, Nat.lt_of_lt_of_le hlt hle⟩
  | earlier _ hvs =>
      have hforms := Value.inScope_list.mp htask.1
      obtain ⟨hm', hle, _⟩ := leaves_evalAll hnested hm htask.2 (fun form hform => hforms form (by simp [hform])) hvs
      exact ⟨hm', (hforms _ (by simp)).mono hle, Nat.lt_of_lt_of_le htask.2 hle⟩
  | condition _ _ => exact ⟨hm, Value.inScope_list.mp htask.1 _ (by simp), htask.2⟩
  | head _ => exact ⟨hm, Value.inScope_list.mp htask.1 _ (by simp), htask.2⟩
  | argument _ hfn hvs =>
      -- the head and the earlier arguments may open frames, and the argument is evaluated after them
      obtain ⟨hform, hframe⟩ := htask
      have hforms := Value.inScope_list.mp hform
      obtain ⟨hm₁, hle₁, _⟩ := leaves_eval hnested hm hframe (hforms _ List.mem_cons_self) hfn
      have hframe₁ := Nat.lt_of_lt_of_le hframe hle₁
      obtain ⟨hm', hle, _⟩ := leaves_evalAll hnested hm₁ hframe₁
        (fun form hform => (hforms form (by simp [hform])).mono hle₁) hvs
      exact ⟨hm', (hforms _ (by simp)).mono (Nat.le_trans hle₁ hle), Nat.lt_of_lt_of_le hframe₁ hle⟩
  | callback _ hfn hargs hcallback =>
      obtain ⟨hform, hframe⟩ := htask
      have hforms := Value.inScope_list.mp hform
      obtain ⟨hm₁, hle₁, _⟩ := leaves_eval hnested hm hframe (hforms _ List.mem_cons_self) hfn
      have hframe₁ := Nat.lt_of_lt_of_le hframe hle₁
      obtain ⟨hm₂, hle₂, hvs⟩ := leaves_evalAll hnested hm₁ hframe₁
        (fun form hform => (hforms form (List.mem_cons_of_mem _ hform)).mono hle₁) hargs
      exact hcallback.inScope hnested hm₂ hvs (Nat.lt_of_lt_of_le hframe₁ hle₂)
  | called hcallback =>
      obtain ⟨_, hargs, hcaller⟩ := htask
      exact hcallback.inScope hnested hm hargs hcaller
  | element hvs =>
      have hforms := Value.inScope_vector.mp htask.1
      obtain ⟨hm', hle, _⟩ := leaves_evalAll hnested hm htask.2 (fun form hform => hforms form (by simp [hform])) hvs
      exact ⟨hm', (hforms _ (by simp)).mono hle, Nat.lt_of_lt_of_le htask.2 hle⟩
  | @entry key form done rest vs frame _ _ hvs =>
      have hforms := Value.inScope_map.mp htask.1
      obtain ⟨hm', hle, _⟩ := (hnested.evalEntries anywhere (.same hm) htask.2
        trivial fun entry hentry => hforms entry (List.mem_append_left _ hentry)).leaves hvs
      exact ⟨hm', (hforms (key, form) (by simp)).mono hle, Nat.lt_of_lt_of_le htask.2 hle⟩

end

/-! ### Moments -/

namespace Session

/-- The moments of a session, from the library on: the machine there is, and the task, if any, that it is at. A name
may be bound in the root and a task may be begun between two tasks; a task passes on to another one or asks for one
on the way, and when a task has ended, with a value or with an error, there is the machine that it leaves. -/
inductive Moment : Option Task → Machine → Prop
  | library : Moment none .library
  | bound {m : Machine} {name : String} {v : Value} : Moment none m → v.InScope 0 →
      Moment none { m with frames := m.frames.set rootFrame name v }
  | taken {m : Machine} : Moment none m → Moment none { m with output := "" }
  | begun {m : Machine} {task : Task} : Moment none m → task.InScope m.frames.size → Moment (some task) m
  | passed {m m' : Machine} {task task' : Task} {ctx : Context} {steps room : Nat} : Moment (some task) m →
      TailStep (nestedRun steps room) ctx task m task' m' → Moment (some task') m'
  | asked {m m' : Machine} {task task' : Task} {ctx : Context} {steps room : Nat} : Moment (some task) m →
      Work (nestedRun steps room) ctx task m task' m' → Moment (some task') m'
  | ended {m n : Machine} {task : Task} {ctx : Context} {steps room : Nat} {r : Except Error Value} :
      Moment (some task) m → run steps room task ctx m = some (r, n) → Moment none n

namespace Moment

variable {task? : Option Task} {m : Machine}

/-- At every moment the frames are well scoped, and what the task mentions is there. -/
theorem inScope (h : Moment task? m) : m.frames.WellScoped ∧ ∀ task ∈ task?, task.InScope m.frames.size := by
  induction h with
  | library => exact ⟨wellScoped_library, nofun⟩
  | bound _ hv ih => exact ⟨ih.1.set (hv.mono (Nat.zero_le _)), nofun⟩
  | taken _ ih => exact ⟨ih.1, nofun⟩
  | begun _ htask ih => exact ⟨ih.1, fun _ hmem => Option.some.inj hmem ▸ htask⟩
  | @passed _ _ _ _ ctx steps room _ hpass ih =>
      obtain ⟨hm', htask'⟩ := hpass.inScope (tracks_nestedRun .same ctx steps room) ih.1 (ih.2 _ rfl)
      exact ⟨hm', fun _ hmem => Option.some.inj hmem ▸ htask'⟩
  | @asked _ _ _ _ ctx steps room _ hwork ih =>
      obtain ⟨hm', htask'⟩ := hwork.inScope (tracks_nestedRun .same ctx steps room) ih.1 (ih.2 _ rfl)
      exact ⟨hm', fun _ hmem => Option.some.inj hmem ▸ htask'⟩
  | @ended _ _ _ ctx steps room _ _ hrun ih =>
      exact ⟨(tracks_run .same ctx steps room _ _ _ (.same ih.1) (ih.2 _ rfl)).wellScoped hrun, nofun⟩

end Moment

/-- What a session does goes from moment to moment. -/
theorem lasting_moment : Lasting (Moment none) where
  wellScoped h := h.inScope.1
  bound := .bound
  performed h htask hrun := (h.begun htask).ended hrun
  taken := .taken

/-- Every reachable session is at a moment between two tasks. -/
theorem Reachable.moment {s : Session} (hs : s.Reachable) : Moment none s.machine :=
  hs.lasting lasting_moment .library

/-- The machine in the body of a form with local bindings that is evaluated in the root of the library. -/
def localBody : Machine :=
  { Machine.library with frames := (Machine.library.frames.extend rootFrame []).2.set 1 "x" (.int 1) }

theorem moment_localBody :
    Moment (some (.eval (.list [.symbol "def!", .symbol "y", .symbol "x"]) 1)) localBody := by
  have hbegun : Moment (some (.eval localDefinition rootFrame)) .library := by
    refine .begun .library ⟨?_, wellScoped_library.size_pos⟩
    simp [localDefinition, Value.inScope_list, Value.InScope.symbol, Value.InScope.int]
  have hbody : TailStep (nestedRun 1 1) ⟨{}, fun _ => .error .notFound⟩ (.eval localDefinition rootFrame) .library
      (.eval (.list [.symbol "def!", .symbol "y", .symbol "x"]) 1) localBody := .body rfl rfl rfl rfl
  exact hbegun.passed hbody

end Session

/-! ### Ways outwards -/

/-- The frame is there, the way outwards from it ends in the root frame, which `root` gives, and every search for a
name along it ends, with what `find?` and `get?` give. -/
structure Frames.Grounded (t : Frames) (frame : Nat) : Prop where
  lt_size : frame < t.size
  endsAt : t.EndsAt frame Session.rootFrame
  root_eq : t.root frame = Session.rootFrame
  search : ∀ name, ∃ found, t.Search name frame found ∧ t.find? frame name = found.map Prod.fst ∧
    t.get? frame name = found.map Prod.snd

theorem Frames.WellScoped.grounded {t : Frames} (h : t.WellScoped) {frame : Nat} (hframe : frame < t.size) :
    t.Grounded frame :=
  ⟨hframe, h.endsAt hframe, h.root_eq hframe, fun name => h.descends.exists_search name frame⟩

namespace Session

/-- **One root.** At every moment of a session, and so in every reachable session (`Reachable.moment`), the way
outwards ends in the root frame, and so does every search for a name on it, from whatever frame there is: from the
frames that the task of the moment mentions, be it the one that is evaluated or one that a step has passed on to, from
the frames that closures capture that are anywhere in the value of a name, and, when a run of the task ends, from the
frames that its value, or the thrown one, captures. -/
theorem Moment.ways_end {task? : Option Task} {m : Machine} (h : Moment task? m) :
    (∀ frame < m.frames.size, m.frames.Grounded frame) ∧
    (∀ task ∈ task?, ∀ frame, task.Mentions frame → m.frames.Grounded frame) ∧
    (∀ i, ∀ entry ∈ m.frames.bindings i, ∀ frame, entry.2.Captures frame → m.frames.Grounded frame) ∧
    ∀ task ∈ task?, ∀ ctx steps room r n, run steps room task ctx m = some (r, n) →
      ∀ frame, Result.Captures frame r → n.frames.Grounded frame := by
  obtain ⟨hm, htask⟩ := h.inScope
  refine ⟨fun frame => hm.grounded, fun task hmem frame hframe => ?_, fun i entry hentry frame hframe => ?_,
    fun task hmem ctx steps room r n hrun frame hframe => ?_⟩
  · exact hm.grounded ((htask task hmem).lt_of_mentions hframe)
  · exact hm.grounded ((hm.mem_bindings hentry).lt_of_captures hframe)
  · have htracks := tracks_run .same ctx steps room task m m (.same hm) (htask task hmem)
    exact (htracks.wellScoped hrun).grounded ((htracks.lands r n hrun).2.lt_of_captures hframe)

/-- In the body of a form with local bindings, the way outwards from the frame of the body ends in the root. -/
theorem Moment.ways_end_localBody :
    Moment (some (.eval (.list [.symbol "def!", .symbol "y", .symbol "x"]) 1)) localBody ∧
      localBody.frames.Grounded 1 :=
  ⟨moment_localBody, moment_localBody.ways_end.2.1 _ rfl 1 (.inl rfl)⟩

end Session

end SmallLisp
