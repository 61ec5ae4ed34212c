import SmallLisp.Proofs.Locality

/-! Reachable sessions. A session is reached from a new one by its operations and by evaluations in any of its
frames, under whatever limits and with whatever files, and whether they end with a value or with an error. The
frames of every reachable session are well scoped. -/

namespace SmallLisp

open Frames

/-- A run writes where its task may write, and, through `eval`, to the root. -/
theorem tracks_run (ρ : Renumbering) (ctx : Context) (steps room : Nat) :
    Nested.Tracks ρ (· = 0) (run steps room) (run steps room) ctx := by
  have hrun := tracks_runBy (Applying.tracks_applyStep ρ ctx) steps room
  rw [runBy_applyStep] at hrun
  exact hrun

/-- A whole evaluation is a run. -/
theorem tracks_perform {ρ : Renumbering} {task : Task} {ctx : Context} {m m' : Machine} (h : m.Image ρ m')
    (htask : task.InScope m.frames.size) :
    Tracks ρ (task.Writes (· = 0)) (Value.rename ρ) Value.InScope (perform task) (perform (task.rename ρ))
      ctx m m' := by
  have hrun := tracks_run ρ ctx ctx.limits.steps ctx.limits.depth task m m' h htask
  exact ⟨hrun.lands, hrun.mirrors, hrun.silent⟩

theorem Tracks.wellScoped {ρ : Renumbering} {writable : Nat → Prop} {α β : Type} {f : α → β}
    {good : Nat → α → Prop} {x : EvalM α} {x' : EvalM β} {ctx : Context} {m m' n : Machine} {r : Except Error α}
    (hx : Tracks ρ writable f good x x' ctx m m') (h : x ctx m = some (r, n)) : n.frames.WellScoped := by
  obtain ⟨_, _, himage⟩ := hx.mirrors r n h
  exact himage.wellScoped

namespace Session

theorem onMachine_eq_some {α : Type} {x : EvalM α} {ctx : Context} {s s' : Session} {r : Except Error α}
    (h : onMachine x ctx s = some (r, s')) :
    ∃ m', x ctx s.machine = some (r, m') ∧ s' = ⟨m', s.submitted⟩ := by
  unfold onMachine EvalM.runFrom at h
  split at h
  split at h
  · next hx =>
      cases h
      exact ⟨_, hx, rfl⟩
  · cases h

theorem onMachine_of_eq_some {α : Type} {x : EvalM α} {ctx : Context} {s : Session} {r : Except Error α}
    {m : Machine} (h : x ctx s.machine = some (r, m)) : onMachine x ctx s = some (r, ⟨m, s.submitted⟩) := by
  unfold onMachine EvalM.runFrom
  dsimp only
  rw [h]

/-- The sessions that can be reached. -/
inductive Reachable : Session → Prop
  | start (ctx : Context) (argv : List String) : Reachable (start ctx argv)
  | runFirst {s s' : Session} {ctx : Context} {source : String} {r : Except Error (Option Value)} :
      Reachable s → runFirst source ctx s = some (r, s') → Reachable s'
  | runAll {s s' : Session} {ctx : Context} {source : String} {r : Except Error (List Value)} :
      Reachable s → runAll source ctx s = some (r, s') → Reachable s'
  | reply {s s' : Session} {ctx : Context} {source : String} {r : Except Error (Option String)} :
      Reachable s → reply source ctx s = some (r, s') → Reachable s'
  | setArgv {s s' : Session} {ctx : Context} {argv : List String} {r : Except Error Unit} :
      Reachable s → setArgv argv ctx s = some (r, s') → Reachable s'
  | loadFile {s s' : Session} {ctx : Context} {path : String} {argv : List String} {r : Except Error Value} :
      Reachable s → loadFile path argv ctx s = some (r, s') → Reachable s'
  | perform {s s' : Session} {ctx : Context} {task : Task} {r : Except Error Value} :
      Reachable s → task.InScope s.machine.frames.size → onMachine (perform task) ctx s = some (r, s') →
        Reachable s'
  | takeOutput {s : Session} : Reachable s → Reachable s.takeOutput.2

/-- What goes on to hold of a machine through all that a session does to it: it binds a name in the root, performs
tasks, and has its output taken. -/
structure Lasting (P : Machine → Prop) : Prop where
  wellScoped : ∀ {m : Machine}, P m → m.frames.WellScoped
  bound : ∀ {m : Machine} {name : String} {v : Value}, P m → v.InScope 0 →
    P { m with frames := m.frames.set rootFrame name v }
  performed : ∀ {m n : Machine} {task : Task} {ctx : Context} {r : Except Error Value}, P m →
    task.InScope m.frames.size → SmallLisp.perform task ctx m = some (r, n) → P n
  taken : ∀ {m : Machine}, P m → P { m with output := "" }

/-- The computation keeps what holds of the machine of a session, and gives good values only. -/
def Sound {α : Type} (P : Machine → Prop) (good : α → Prop) (x : SessionM α) : Prop :=
  ∀ ctx s r s', P s.machine → x ctx s = some (r, s') → P s'.machine ∧ ∀ a, r = .ok a → good a

namespace Sound

variable {P : Machine → Prop} {α β γ : Type} {good : α → Prop} {better : β → Prop}

theorem answer {x : SessionM α} {r : Context → Except Error α} (hx : ∀ ctx s, x ctx s = some (r ctx, s))
    (hr : ∀ ctx a, r ctx = .ok a → good a) : Sound P good x := by
  intro ctx s r' s' hs h
  rw [hx] at h
  cases h
  exact ⟨hs, hr ctx⟩

protected theorem pure {a : α} (ha : good a) : Sound P good (pure a) :=
  answer (fun ctx s => Computation.pure_apply a ctx s) fun _ _ h => Except.ok.inj h ▸ ha

protected theorem throw (e : Error) : Sound P good (throw e) :=
  answer (fun ctx s => Computation.throw_apply e ctx s) fun _ _ h => nomatch h

protected theorem read : Sound P (fun _ => True) (read : SessionM Context) :=
  answer (fun ctx s => Computation.read_apply ctx s) fun _ _ _ => trivial

theorem bind {x : SessionM α} {f : α → SessionM β} (hx : Sound P good x)
    (hf : ∀ a, good a → Sound P better (f a)) : Sound P better (x >>= f) := by
  intro ctx s r s'' hs h
  rcases Computation.bind_eq_some h with ⟨a, s', ha, hrest⟩ | ⟨e, s', he, hr⟩
  · obtain ⟨hs', hgood⟩ := hx ctx s _ s' hs ha
    exact hf a (hgood a rfl) ctx s' r s'' hs' hrest
  · cases hr
    exact ⟨(hx ctx s _ s'' hs he).1, fun _ h => nomatch h⟩

theorem mapM {f : γ → SessionM α} {cs : List γ} (hf : ∀ c ∈ cs, Sound P (fun _ => True) (f c)) :
    Sound P (fun _ => True) (cs.mapM f) := by
  induction cs with
  | nil => exact Sound.pure trivial
  | cons c cs ih =>
      rw [List.mapM_cons]
      refine (hf c List.mem_cons_self).bind fun a _ => ?_
      refine (ih fun c' hc' => hf c' (List.mem_cons_of_mem _ hc')).bind fun as _ => ?_
      exact Sound.pure trivial

theorem onMachine {x : EvalM α} (hx : ∀ ctx m r m', P m → x ctx m = some (r, m') → P m') :
    Sound P (fun _ => True) (onMachine x) := by
  intro ctx s r s' hs h
  obtain ⟨m', hrun, rfl⟩ := onMachine_eq_some h
  exact ⟨hx ctx _ _ _ hs hrun, fun _ _ => trivial⟩

end Sound

section

variable {P : Machine → Prop} (hP : Lasting P)
include hP

theorem Lasting.submit {form : Value} (hform : form.InScope 0) : Sound P (fun _ => True) (submit form) := by
  have hmodify : Sound P (fun _ => True) (modify fun s => { s with submitted := s.submitted.push form }) := by
    intro ctx s r s' hs h
    cases h
    exact ⟨hs, fun _ _ => trivial⟩
  refine hmodify.bind fun _ _ => Sound.onMachine fun ctx m r m' hm h => ?_
  have htask : (Task.eval form rootFrame).InScope m.frames.size :=
    ⟨hform.mono (Nat.zero_le _), (hP.wellScoped hm).size_pos⟩
  exact hP.performed hm htask h

theorem Lasting.bindName (name : String) {v : Value} (hv : v.InScope 0) :
    Sound P (fun _ => True) (onMachine (EvalM.bindName rootFrame name v)) := by
  refine Sound.onMachine fun ctx m r m' hm h => ?_
  rw [EvalM.bindName_apply] at h
  cases h
  exact hP.bound hm hv

theorem Lasting.setArgv (argv : List String) : Sound P (fun _ => True) (setArgv argv) := by
  refine hP.bindName _ (.list fun v hv => ?_)
  obtain ⟨s, _, rfl⟩ := List.mem_map.mp hv
  exact .text s

theorem Lasting.runFirst (source : String) : Sound P (fun _ => True) (runFirst source) := by
  refine Sound.read.bind fun ctx _ => ?_
  have hread : Sound P (fun form? : Option Value => ∀ v ∈ form?, v.InScope 0)
      (ofExcept (readFirst ctx.limits source)) := by
    refine Sound.answer (fun _ s => Computation.ofExcept_apply _ _ s) fun _ form? h => ?_
    have hsafe := safe_readFirst ctx.limits source
    rw [h] at hsafe
    exact hsafe
  refine hread.bind fun form? hform => ?_
  cases form? with
  | none => exact Sound.pure trivial
  | some form => exact (hP.submit (hform form rfl)).bind fun v _ => Sound.pure trivial

theorem Lasting.runForms (stream : TokenStream) : Sound P (fun _ => True) (runForms stream) := by
  -- every form that is read leaves fewer tokens
  induction hlength : stream.unread.length using Nat.strongRecOn generalizing stream with
  | ind n ih =>
      subst hlength
      rw [runForms_eq]
      refine Sound.read.bind fun ctx _ => ?_
      rcases hnext : stream.nextForm? ctx.limits with ⟨e | _ | form, rest⟩
      · exact Sound.throw e
      · exact Sound.pure trivial
      · refine (hP.submit (TokenStream.inScope_of_nextForm? hnext)).bind fun v _ => ?_
        exact (ih _ (TokenStream.nextForm?_length_lt hnext) rest rfl).bind fun vs _ => Sound.pure trivial

theorem Lasting.runAll (source : String) : Sound P (fun _ => True) (runAll source) := hP.runForms _

theorem Lasting.reply (source : String) : Sound P (fun _ => True) (reply source) := by
  refine (hP.runFirst source).bind fun v? _ => ?_
  split
  · refine (Sound.onMachine fun ctx m r m' hm h => ?_).bind fun text _ => Sound.pure trivial
    rw [EvalM.printed_apply] at h
    cases h
    exact hm
  · exact Sound.pure trivial

theorem Lasting.loadFile (path : String) (argv : List String) : Sound P (fun _ => True) (loadFile path argv) := by
  refine (hP.setArgv argv).bind fun _ _ => hP.submit (.list fun v hv => ?_)
  simp only [List.mem_cons, List.not_mem_nil, or_false] at hv
  rcases hv with rfl | rfl
  · exact .symbol _
  · exact .text path

theorem Lasting.boot (argv : List String) : Sound P (fun _ => True) (boot argv) := by
  refine (hP.bindName _ (.builtin .eval)).bind fun _ _ => (hP.setArgv argv).bind fun _ _ => ?_
  have hfirst : ∀ source, Sound P (fun _ => True) (do let _ ← Session.runFirst source) := fun source =>
    (hP.runFirst source).bind fun _ _ => Sound.pure trivial
  exact (hfirst _).bind fun _ _ => (hfirst _).bind fun _ _ => Sound.pure trivial

/-- What holds of the machine with the library and goes on to hold, holds in every reachable session. -/
theorem Reachable.lasting {s : Session} (hs : Reachable s) (hlibrary : P .library) : P s.machine := by
  induction hs with
  | start ctx argv =>
      unfold Session.start
      split
      · next hboot => exact (hP.boot argv ctx _ _ _ hlibrary hboot).1
      · exact hlibrary
  | runFirst _ hrun ih => exact (hP.runFirst _ _ _ _ _ ih hrun).1
  | runAll _ hrun ih => exact (hP.runAll _ _ _ _ _ ih hrun).1
  | reply _ hrun ih => exact (hP.reply _ _ _ _ _ ih hrun).1
  | setArgv _ hrun ih => exact (hP.setArgv _ _ _ _ _ ih hrun).1
  | loadFile _ hrun ih => exact (hP.loadFile _ _ _ _ _ _ ih hrun).1
  | perform _ htask hrun ih =>
      obtain ⟨m', hperform, rfl⟩ := onMachine_eq_some hrun
      exact hP.performed ih htask hperform
  | takeOutput _ ih => exact hP.taken ih

end

theorem wellScoped_library : Machine.library.frames.WellScoped where
  outermost := ⟨_, rfl, rfl⟩
  inner i f h := by simp [Machine.library] at h
  values i f h entry hentry := by
    have hframe : f = ⟨Builtin.library.map fun b => (b.name, .builtin b), none⟩ := by
      cases i with
      | zero => exact (Option.some.inj h).symm
      | succ i => simp [Machine.library] at h
    rw [hframe] at hentry
    obtain ⟨b, _, rfl⟩ := List.mem_map.mp hentry
    exact .builtin b

theorem lasting_wellScoped : Lasting fun m => m.frames.WellScoped where
  wellScoped h := h
  bound h hv := h.set (hv.mono (Nat.zero_le _))
  performed h htask hrun := (tracks_perform (.same h) htask).wellScoped hrun
  taken h := h

/-- The frames of every reachable session are well scoped. -/
theorem Reachable.wellScoped {s : Session} (h : Reachable s) : s.machine.frames.WellScoped :=
  h.lasting lasting_wellScoped wellScoped_library

/-! ### What evaluation leaves alone -/

/-- **No assignment elsewhere.** However the evaluation of a form or a call ends, in whatever reachable session,
each frame that existed before is the frame that it was, with its bindings and its parent, unless it is the one
that the form is evaluated in, or the root: and the root too is what it was if `eval` was not called and the form
was not evaluated there. A form with local bindings and a call spare even the frame that they are evaluated in.
No frame gets another parent or loses a name, and the names that it had stay in their order. -/
theorem frames_of_perform {s : Session} (hs : s.Reachable) {task : Task}
    (htask : task.InScope s.machine.frames.size) {ctx : Context} {r : Except Error Value} {m : Machine}
    (h : SmallLisp.perform task ctx s.machine = some (r, m)) :
    ∀ i < s.machine.frames.size,
      (¬task.Binds i → i ≠ rootFrame ∨ task.SparesEval ctx s.machine →
        m.frames.all[i]? = s.machine.frames.all[i]?) ∧
      m.frames.outer? i = s.machine.frames.outer? i ∧
      (s.machine.frames.bindings i).map Prod.fst <+: (m.frames.bindings i).map Prod.fst := by
  intro i hi
  have hframes := hs.wellScoped
  have hevolves := ((tracks_perform (.same hframes) htask).lands r m h).1
  refine ⟨fun hbinds hspared => ?_, hevolves.outer i hi, hevolves.names i hi⟩
  rcases hspared with hroot | hspares
  · exact hevolves.kept i hi fun hw => hw.elim hroot hbinds
  · have hsparing := tracks_runBy (Applying.tracks_applySparing .same ctx) ctx.limits.steps ctx.limits.depth task
      s.machine s.machine (.same hframes) htask
    exact (hsparing.lands r m (hspares.run_eq h)).1.kept i hi fun hw => hw.elim id hbinds

/-- A form with local bindings that defines a name for itself. -/
def localDefinition : Value :=
  .list [.symbol "let*", .list [.symbol "x", .int 1], .list [.symbol "def!", .symbol "y", .symbol "x"]]

/-- Evaluated in the root of a new session, that form leaves the root as it was. -/
theorem frames_of_perform_localDefinition :
    ∃ r m, SmallLisp.perform (.eval localDefinition rootFrame) ⟨{}, fun _ => .error .notFound⟩
        (start ⟨{}, fun _ => .error .notFound⟩ []).machine = some (r, m) ∧
      m.frames.all[0]? = (start ⟨{}, fun _ => .error .notFound⟩ []).machine.frames.all[0]? := by
  generalize hctx : (⟨{}, fun _ => .error .notFound⟩ : Context) = ctx
  have hends : (SmallLisp.perform (.eval localDefinition rootFrame) ctx (start ctx []).machine).isSome := by
    rw [← hctx]
    decide +kernel
  have hspares : Task.SparesEval (.eval localDefinition rootFrame) ctx (start ctx []).machine := by
    unfold Task.SparesEval
    rw [← hctx]
    decide +kernel
  obtain ⟨⟨r, m⟩, h⟩ := Option.isSome_iff_exists.mp hends
  have hstart := Reachable.start ctx []
  have htask : (Task.eval localDefinition rootFrame).InScope (start ctx []).machine.frames.size := by
    refine ⟨?_, hstart.wellScoped.size_pos⟩
    simp [localDefinition, Value.inScope_list, Value.InScope.symbol, Value.InScope.int]
  refine ⟨r, m, h, (frames_of_perform hstart htask h 0 htask.2).1 (fun hbinds => ?_) (.inr hspares)⟩
  cases hbinds.2

end Session

end SmallLisp
