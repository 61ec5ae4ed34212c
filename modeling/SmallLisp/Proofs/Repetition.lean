import SmallLisp.Proofs.Caller
import SmallLisp.Proofs.Native

/-! Calls that are made again. Where there is no `eval`, a call writes to no frame that was there before it: it leaves
all of them, and perhaps further ones, and it has taken some more stamps. From such a later machine the same call does
what it did from the earlier one, only that its new frames and closures have other numbers, and that more has been
printed before. Thus, if what it comes to holds no closure, it comes to that again, and it prints the same. -/

namespace SmallLisp

open EvalM SmallLisp.Computation Frames

/-! ### Later machines -/

/-- The first machine's frames are all there, as they were, and stamps have only been taken. -/
structure Machine.Earlier (m m' : Machine) : Prop where
  size_le : m.frames.size ≤ m'.frames.size
  kept : ∀ i < m.frames.size, m'.frames.all[i]? = m.frames.all[i]?
  stamps_le : m.stamps ≤ m'.stamps

namespace Machine.Earlier

variable {m m' m'' : Machine}

theorem refl (m : Machine) : m.Earlier m := ⟨Nat.le_refl _, fun _ _ => rfl, Nat.le_refl _⟩

theorem trans (h : m.Earlier m') (h' : m'.Earlier m'') : m.Earlier m'' where
  size_le := Nat.le_trans h.size_le h'.size_le
  kept i hi := (h'.kept i (Nat.lt_of_lt_of_le hi h.size_le)).trans (h.kept i hi)
  stamps_le := Nat.le_trans h.stamps_le h'.stamps_le

end Machine.Earlier

/-- The number `count` more for all numbers from a bound on. -/
def later (bound count i : Nat) : Nat := if i < bound then i else i + count

theorem later_of_lt {bound count i : Nat} (h : i < bound) : later bound count i = i := if_pos h

theorem later_add (bound count j : Nat) : later bound count (bound + j) = bound + j + count := if_neg (by omega)

theorem later_inj {bound count i j : Nat} (h : later bound count i = later bound count j) : i = j := by
  unfold later at h
  split at h <;> split at h <;> omega

theorem le_later (bound count i : Nat) : i ≤ later bound count i := by
  unfold later
  split <;> omega

/-- Frames and stamps from given numbers on have later numbers. -/
def Renumbering.shift (frames stamps k l : Nat) (hframes : 0 < frames) : Renumbering :=
  ⟨later frames k, later stamps l, later_inj, later_inj, later_of_lt hframes, le_later frames k⟩

/-- A value is as it was if the frames and the stamps keep their numbers that are in it. -/
theorem Value.InScope.rename_native {ρ : Renumbering} {size stamps : Nat} {v : Value} (h : v.InScope size)
    (hnative : v.Native stamps) (hframe : ∀ i < size, ρ.frame i = i) (hstamp : ∀ i < stamps, ρ.stamp i = i) :
    v.rename ρ = v := by
  induction h with
  | list _ ih =>
      have hitems := native_list.mp hnative
      rw [rename_list, List.map_congr_left fun v hv => ih v hv (hitems v hv), List.map_id']
  | vector _ ih =>
      have hitems := native_vector.mp hnative
      rw [rename_vector, List.map_congr_left fun v hv => ih v hv (hitems v hv), List.map_id']
  | map _ ih =>
      have hentries := native_map.mp hnative
      have hentry : ∀ entry ∈ _, (entry.1, rename ρ entry.2) = entry := fun entry hmem => by
        rw [ih entry hmem (hentries entry hmem)]
      rw [rename_map, List.map_congr_left hentry, List.map_id']
  | closure hlt _ ih =>
      obtain ⟨hstamp', hbody⟩ := native_closure.mp hnative
      rw [rename_closure, ih hbody, hstamp _ hstamp', hframe _ hlt]
  | _ => simp

section

variable {m m' : Machine} (hm : m.frames.WellScoped) (hnative : m.Native) (h : m.Earlier m')
include hm hnative h

/-- A later machine is an image of the machine, what was printed aside. -/
theorem Machine.Earlier.image :
    Machine.Image (.shift m.frames.size m.stamps (m'.frames.size - m.frames.size) (m'.stamps - m.stamps) hm.size_pos)
      { m with output := "" } { m' with output := "" } := by
  obtain ⟨hsize, hkept, hstamps⟩ := h
  generalize hρ : Renumbering.shift m.frames.size m.stamps (m'.frames.size - m.frames.size) (m'.stamps - m.stamps)
    hm.size_pos = ρ
  have hframe : ∀ i < m.frames.size, ρ.frame i = i := fun i hi => hρ ▸ later_of_lt hi
  have hstamp : ∀ i < m.stamps, ρ.stamp i = i := fun i hi => hρ ▸ later_of_lt hi
  have hnewFrame : ∀ j, ρ.frame (m.frames.size + j) = m'.frames.size + j := by
    intro j
    have hnew : ρ.frame (m.frames.size + j) = m.frames.size + j + (m'.frames.size - m.frames.size) :=
      hρ ▸ later_add ..
    omega
  have hnewStamp : ∀ j, ρ.stamp (m.stamps + j) = m'.stamps + j := by
    intro j
    have hnew : ρ.stamp (m.stamps + j) = m.stamps + j + (m'.stamps - m.stamps) := hρ ▸ later_add ..
    omega
  refine ⟨hm, fun i => ?_, hnewFrame, hnewStamp, rfl⟩
  by_cases hi : i < m.frames.size
  · obtain ⟨f, hf⟩ : ∃ f, m.frames.all[i]? = some f := ⟨_, Array.getElem?_eq_getElem hi⟩
    have hbindings : m.frames.bindings i = f.bindings := by rw [bindings, hf]
    have hvalues : ∀ entry ∈ f.bindings, entry.2.rename ρ = entry.2 := fun entry hentry =>
      (hm.values i f hf entry hentry).rename_native (hnative i entry (hbindings ▸ hentry)) hframe hstamp
    have hsame : f.rename ρ = f := hm.rename_eq hf hvalues hframe
    rw [hframe i hi, hkept i hi, hf, Option.map_some, hsame]
  · obtain ⟨j, rfl⟩ := Nat.exists_eq_add_of_le (Nat.le_of_not_lt hi)
    rw [hnewFrame, Array.getElem?_eq_none (Nat.le_add_right _ _), Array.getElem?_eq_none (Nat.le_add_right _ _)]
    rfl

end

theorem Task.rename_native {ρ : Renumbering} {size stamps : Nat} {task : Task} (h : task.InScope size)
    (hnative : task.Native stamps) (hframe : ∀ i < size, ρ.frame i = i) (hstamp : ∀ i < stamps, ρ.stamp i = i) :
    task.rename ρ = task := by
  cases task with
  | eval form frame =>
      obtain ⟨hform, hlt⟩ := h
      rw [rename, hform.rename_native hnative hframe hstamp, hframe frame hlt]
  | call fn args caller =>
      obtain ⟨hfn, hargs, hlt⟩ := h
      have hsame : ∀ v ∈ args, v.rename ρ = v := fun v hv =>
        (hargs v hv).rename_native (hnative.2 v hv) hframe hstamp
      rw [rename, hfn.rename_native hnative.1 hframe hstamp, List.map_congr_left hsame, List.map_id', hframe caller hlt]

/-! ### Reached machines, and calls -/

/-- A call of a function that is there, with arguments that are there, from a frame that is there. -/
structure Machine.Admits (m : Machine) (fn : Value) (args : List Value) (caller : Nat) : Prop where
  inScope : (Task.call fn args caller).InScope m.frames.size
  native : (Task.call fn args caller).Native m.stamps

theorem Machine.Admits.mono {m m' : Machine} {fn : Value} {args : List Value} {caller : Nat}
    (h : m.Admits fn args caller) (hle : m.Earlier m') : m'.Admits fn args caller := by
  obtain ⟨⟨hfn, hargs, hcaller⟩, hfn', hargs'⟩ := h
  refine ⟨⟨hfn.mono hle.size_le, fun v hv => ?_, Nat.lt_of_lt_of_le hcaller hle.size_le⟩, hfn'.mono hle.stamps_le,
    fun v hv => ?_⟩
  · exact (hargs v hv).mono hle.size_le
  · exact (hargs' v hv).mono hle.stamps_le

/-- The machines that are reached from the library alone: tasks that mention nothing else than what is there are run,
with whatever outcome, names are bound, frames are made, and the output is taken. -/
inductive Machine.Reached : Machine → Prop
  | library : Reached .library
  | ran {m n : Machine} {task : Task} {ctx : Context} {steps room : Nat} {r : Except Error Value} : Reached m →
      task.InScope m.frames.size → task.Native m.stamps → run steps room task ctx m = some (r, n) → Reached n
  | bound {m : Machine} {frame : Nat} {name : String} {v : Value} : Reached m → v.InScope m.frames.size →
      v.Native m.stamps → Reached { m with frames := m.frames.set frame name v }
  | extended {m : Machine} {outer : Nat} {pairs : List (String × Value)} : Reached m → outer < m.frames.size →
      (∀ pair ∈ pairs, pair.2.InScope m.frames.size ∧ pair.2.Native m.stamps) →
      Reached { m with frames := (m.frames.extend outer pairs).2 }
  | taken {m : Machine} : Reached m → Reached { m with output := "" }

/-- Any number of calls, one after the other, each of what is there by then. -/
inductive Calls : Machine → Machine → Prop
  | none (m : Machine) : Calls m m
  | more {m m' n : Machine} {fn : Value} {args : List Value} {caller : Nat} {ctx : Context} {r : Except Error Value} :
      m.Admits fn args caller → callFunction fn args caller ctx m = some (r, m') → Calls m' n → Calls m n

theorem keeps_run (ctx : Context) (steps room : Nat) :
    Nested.Keeps (run steps room) (runBy applySparing steps room) ctx := by
  have hrun := keeps_runBy ctx steps room
  rw [runBy_applyStep] at hrun
  exact hrun

theorem native_library : Machine.library.Native := by
  intro i entry hentry
  have hlibrary : ∀ b ∈ Builtin.library, b ≠ .eval := by decide
  cases i with
  | zero =>
      obtain ⟨b, hb, rfl⟩ := List.mem_map.mp hentry
      exact .builtin (hlibrary b hb)
  | succ i => exact (List.not_mem_nil hentry).elim

/-- A reached machine is well scoped and native. -/
theorem Machine.Reached.invariant {m : Machine} (h : m.Reached) : m.frames.WellScoped ∧ m.Native := by
  induction h with
  | library => exact ⟨Session.wellScoped_library, native_library⟩
  | @ran _ _ task ctx steps room _ _ htask hnative hrun ih =>
      exact ⟨(tracks_run .same ctx steps room task _ _ (.same ih.1) htask).wellScoped hrun,
        ((keeps_run ctx steps room task _ ih.2 hnative).keeps _ _ hrun).1⟩
  | bound _ hv hnative ih => exact ⟨ih.1.set hv, ih.2.set _ _ hnative⟩
  | extended _ houter hpairs ih =>
      exact ⟨ih.1.extend houter fun pair hpair => (hpairs pair hpair).1,
        ih.2.extend _ fun pair hpair => (hpairs pair hpair).2⟩
  | taken _ ih => exact ih

section

variable {m : Machine} (hm : m.frames.WellScoped) (hnative : m.Native)
include hm hnative

/-- A call leaves all frames as they were. -/
theorem earlier_callFunction {n : Machine} {fn : Value} {args : List Value} {caller : Nat} {ctx : Context}
    {r : Except Error Value} (hcall : m.Admits fn args caller) (h : callFunction fn args caller ctx m = some (r, n)) :
    n.frames.WellScoped ∧ n.Native ∧ m.Earlier n := by
  have hkeeps := keeps_run ctx ctx.limits.steps ctx.limits.depth _ m hnative hcall.native
  have hsparing := tracks_runBy (Applying.tracks_applySparing .same ctx) ctx.limits.steps ctx.limits.depth _ m m
    (.same hm) hcall.inScope
  have hspared := hkeeps.same.trans h
  obtain ⟨hn, hstamps, _⟩ := hkeeps.keeps r n h
  obtain ⟨hevolves, _⟩ := hsparing.lands r n hspared
  exact ⟨hsparing.wellScoped hspared, hn, hevolves.size_le, fun i hi => hevolves.kept i hi (by rintro (h | h) <;> exact h),
    hstamps⟩

theorem Calls.earlier {n : Machine} (h : Calls m n) : n.frames.WellScoped ∧ n.Native ∧ m.Earlier n := by
  induction h with
  | none m => exact ⟨hm, hnative, .refl m⟩
  | more hcall hrun _ ih =>
      obtain ⟨hm', hnative', hle⟩ := earlier_callFunction hm hnative hcall hrun
      obtain ⟨hn, hn', hle'⟩ := ih hm' hnative'
      exact ⟨hn, hn', hle.trans hle'⟩

end

/-- What a computation does, it does from the machine with nothing printed yet, and what it prints comes behind what was
printed before. -/
theorem Appends.printed {x : EvalM Value} (hx : Appends x) {ctx : Context} {m n : Machine} {r : Except Error Value} :
    x ctx m = some (r, n) ↔ ∃ text, n.output = m.output ++ text ∧
      x ctx { m with output := "" } = some (r, { n with output := text }) := by
  have happend := hx ctx { m with output := "" } m.output
  rw [String.append_empty] at happend
  constructor
  · intro h
    rw [h] at happend
    obtain ⟨⟨r', k⟩, hk, heq⟩ := Option.map_eq_some_iff.mp happend.symm
    cases heq
    exact ⟨k.output, rfl, hk⟩
  · rintro ⟨text, htext, h⟩
    rw [happend, h, Option.map_some, ← htext]

theorem perform_appends (task : Task) : Appends (perform task) := fun ctx m earlier =>
  run_appends ctx.limits.steps ctx.limits.depth task ctx m earlier

/-- **Calls can be repeated.** In a machine that is reached from the library alone, without `eval`, let a call end with
a value or a thrown value that holds no closure, or with any other error. Made again, from any frame, at once or after
any number of other calls, the call ends with the same value or error, and prints the same text. -/
theorem Machine.Reached.call_repeatable {m n m' : Machine} (hm : m.Reached) {fn : Value} {args : List Value}
    {caller caller' : Nat} {ctx : Context} {r : Except Error Value} (hcall : m.Admits fn args caller)
    (hfirst : callFunction fn args caller ctx m = some (r, n)) (hr : Safe 0 (Value.InScope 0) r) (hcalls : Calls n m')
    (hcaller' : caller' < m'.frames.size) :
    ∃ text n', n.output = m.output ++ text ∧ callFunction fn args caller' ctx m' = some (r, n') ∧
      n'.output = m'.output ++ text := by
  obtain ⟨hscoped, hnative⟩ := hm.invariant
  obtain ⟨hn, hnative', hle⟩ := earlier_callFunction hscoped hnative hcall hfirst
  obtain ⟨hm', hnative'', hle'⟩ := hcalls.earlier hn hnative'
  have hall := hle.trans hle'
  -- the call in the later machine is the image of the call in the earlier one, and its outcome is an image of itself
  obtain ⟨text, htext, hplain⟩ := (perform_appends (.call fn args caller)).printed.mp hfirst
  obtain ⟨k, hagain, hk⟩ := (tracks_perform (hall.image hscoped hnative) hcall.inScope).mirrors _ _ hplain
  rw [hr.rename_closed fun v hv => hv.rename_closed, Task.rename_native hcall.inScope hcall.native
    (fun i hi => later_of_lt hi) fun i hi => later_of_lt hi] at hagain
  have hsecond : callFunction fn args caller ctx m' = some (r, { k with output := m'.output ++ text }) := by
    refine (perform_appends (.call fn args caller)).printed.mpr ⟨text, rfl, ?_⟩
    have houtput : k.output = text := hk.output
    rw [hagain, ← houtput]
  obtain ⟨hfn, hargs, hcaller⟩ := (hcall.mono hall).inScope
  have hcallers : callFunction fn args caller ctx m' = callFunction fn args caller' ctx m' :=
    run_ignoresCaller _ _ ctx caller caller' m' fn args hm' hfn hargs hcaller hcaller'
  exact ⟨text, _, htext, hcallers ▸ hsecond, rfl⟩

/-- The code of a function that prints its argument. -/
def printingForm : Value :=
  .list [.symbol "fn*", .list [.symbol "n"], .list [.symbol "prn", .symbol "n"]]

/-- The function that prints its argument, as the first closure that is made. -/
def printing : Value := .closure 0 ⟨["n"], none⟩ (.list [.symbol "prn", .symbol "n"]) 0

theorem reached_printing : Machine.Reached { Machine.library with stamps := 1 } := by
  have hscope : printingForm.InScope Machine.library.frames.size := by
    simp [printingForm, Value.inScope_list, Value.InScope.symbol]
  have hnative : printingForm.Native Machine.library.stamps := by
    simp [printingForm, Value.native_list, Value.Native.symbol]
  have hmade : perform (.eval printingForm 0) ⟨{}, fun _ => .error .notFound⟩ .library =
      some (.ok printing, { Machine.library with stamps := 1 }) := rfl
  have htask : (Task.eval printingForm 0).InScope Machine.library.frames.size :=
    ⟨hscope, Session.wellScoped_library.size_pos⟩
  exact .ran .library htask hnative hmade

/-- Called twice, the function that prints its argument prints it twice, and has the same value. -/
theorem Machine.Reached.call_repeatable_printing :
    ∃ n n', callFunction printing [.bool true] 0 ⟨{}, fun _ => .error .notFound⟩ { Machine.library with stamps := 1 } =
        some (.ok .nil, n) ∧ n.output = "true\n" ∧
      callFunction printing [.bool true] 0 ⟨{}, fun _ => .error .notFound⟩ n = some (.ok .nil, n') ∧
        n'.output = "true\ntrue\n" := by
  have hcall : Machine.Admits { Machine.library with stamps := 1 } printing [.bool true] 0 := by
    refine ⟨⟨?_, ?_, Session.wellScoped_library.size_pos⟩, ?_, ?_⟩
    · simp [printing, Value.inScope_closure, Value.inScope_list, Value.InScope.symbol,
        Session.wellScoped_library.size_pos]
    · simp [Value.InScope.bool]
    · simp [printing, Value.native_closure, Value.native_list, Value.Native.symbol]
    · simp [Value.Native.bool]
  have hfirst : callFunction printing [.bool true] 0 ⟨{}, fun _ => .error .notFound⟩
      { Machine.library with stamps := 1 } =
        some (.ok .nil, ⟨(Machine.library.frames.extend 0 [("n", .bool true)]).2, "true\n", 1⟩) := rfl
  obtain ⟨text, n', htext, hsecond, hn'⟩ :=
    reached_printing.call_repeatable hcall hfirst .nil (.none _) (Nat.zero_lt_succ _)
  have hline : text = "true\n" := by simpa [Machine.library] using htext.symm
  exact ⟨_, n', hfirst, rfl, hsecond, by rw [hn', hline]; rfl⟩

end SmallLisp
