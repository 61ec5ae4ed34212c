import SmallLisp.Proofs.Locality

/-! Native machines. Without `eval` in any of its values, a machine never comes by it: no form that is read holds a
function, and no function gives one back that it was not given. Nor does a machine come by a closure with a stamp that
it has not handed out. In such a machine, evaluation is what it is for an evaluator that breaks off at calls of `eval`,
and so it writes to no frame that was there, but to the one that a form is evaluated in. -/

namespace SmallLisp

open EvalM SmallLisp.Computation Frames

/-! ### Values, tasks and machines -/

/-- All closures in a value, however deep, have a stamp below a bound, and none of the functions in it is `eval`. -/
inductive Value.Native (stamps : Nat) : Value → Prop
  | nil : Native stamps .nil
  | bool (b : Bool) : Native stamps (.bool b)
  | int (n : Int) : Native stamps (.int n)
  | symbol (name : String) : Native stamps (.symbol name)
  | text (s : String) : Native stamps (.text s)
  | list {items : List Value} : (∀ v ∈ items, Native stamps v) → Native stamps (.list items)
  | vector {items : List Value} : (∀ v ∈ items, Native stamps v) → Native stamps (.vector items)
  | map {entries : List (String × Value)} : (∀ entry ∈ entries, Native stamps entry.2) → Native stamps (.map entries)
  | closure {stamp : Nat} {params : Params} {body : Value} {frame : Nat} : stamp < stamps → Native stamps body →
      Native stamps (.closure stamp params body frame)
  | builtin {b : Builtin} : b ≠ .eval → Native stamps (.builtin b)

namespace Value

variable {stamps stamps' : Nat}

theorem hereditary_native (stamps : Nat) : Hereditary (Native stamps) :=
  ⟨.nil, .bool, .int, .symbol, .text, .list, .vector, fun _ => .map⟩

theorem Native.mono {v : Value} (h : v.Native stamps) (hle : stamps ≤ stamps') : v.Native stamps' := by
  induction h with
  | list _ ih => exact .list ih
  | vector _ ih => exact .vector ih
  | map _ ih => exact .map ih
  | closure hstamp _ ih => exact .closure (Nat.lt_of_lt_of_le hstamp hle) ih
  | builtin hb => exact .builtin hb
  | _ => constructor

theorem native_list {items : List Value} : (list items).Native stamps ↔ ∀ v ∈ items, v.Native stamps :=
  ⟨fun | .list h => h, .list⟩

theorem native_vector {items : List Value} : (vector items).Native stamps ↔ ∀ v ∈ items, v.Native stamps :=
  ⟨fun | .vector h => h, .vector⟩

theorem native_map {entries : List (String × Value)} :
    (map entries).Native stamps ↔ ∀ entry ∈ entries, entry.2.Native stamps :=
  ⟨fun | .map h => h, .map⟩

theorem native_closure {stamp frame : Nat} {params : Params} {body : Value} :
    (closure stamp params body frame).Native stamps ↔ stamp < stamps ∧ body.Native stamps :=
  ⟨fun | .closure hstamp hbody => ⟨hstamp, hbody⟩, fun h => .closure h.1 h.2⟩

theorem native_builtin {b : Builtin} : (builtin b).Native stamps ↔ b ≠ .eval := ⟨fun | .builtin h => h, .builtin⟩

theorem Native.elements {v : Value} {items : List Value} (h : v.Native stamps) (hitems : v.elements? = some items) :
    ∀ item ∈ items, item.Native stamps := by
  cases v <;> cases hitems
  · exact native_list.mp h
  · exact native_vector.mp h

end Value

def Task.Native (stamps : Nat) : Task → Prop
  | .eval form _ => form.Native stamps
  | .call fn args _ => fn.Native stamps ∧ ∀ v ∈ args, v.Native stamps

def Step.Native (stamps : Nat) : Step → Prop
  | .value v => v.Native stamps
  | .next form _ => form.Native stamps

/-- All values of names have stamps that were handed out, and no `eval` in them. -/
def Machine.Native (m : Machine) : Prop := ∀ i, ∀ entry ∈ m.frames.bindings i, entry.2.Native m.stamps

namespace Machine.Native

variable {m : Machine}

theorem get? (h : m.Native) {frame : Nat} {name : String} {v : Value} (hv : m.frames.get? frame name = some v) :
    v.Native m.stamps := by
  obtain ⟨i, _, hi⟩ := List.exists_of_findSome?_eq_some hv
  exact h i _ (Assoc.mem_of_find? hi)

theorem set (h : m.Native) (frame : Nat) (name : String) {v : Value} (hv : v.Native m.stamps) :
    Machine.Native { m with frames := m.frames.set frame name v } := by
  intro i entry hentry
  by_cases hi : frame = i ∧ frame < m.frames.size
  · obtain ⟨rfl, hframe⟩ := hi
    rw [bindings_set hframe] at hentry
    rcases Assoc.mem_insert hentry with rfl | hentry
    · exact hv
    · exact h frame entry hentry
  · have hsame : (m.frames.set frame name v).bindings i = m.frames.bindings i := by
      by_cases hne : frame = i
      · have hnone : m.frames.all[i]? = none := Array.getElem?_eq_none (Nat.le_of_not_lt fun hlt => hi ⟨hne, hne ▸ hlt⟩)
        rw [bindings, bindings, getElem?_set, if_pos hne, hnone]
        rfl
      · exact bindings_set_of_ne hne name v
    exact h i entry (hsame ▸ hentry)

theorem extend (h : m.Native) (outer : Nat) {pairs : List (String × Value)}
    (hpairs : ∀ pair ∈ pairs, pair.2.Native m.stamps) :
    Machine.Native { m with frames := (m.frames.extend outer pairs).2 } := by
  intro i entry hentry
  rw [bindings, getElem?_extend] at hentry
  by_cases hi : i = m.frames.size
  · rw [if_pos hi] at hentry
    exact hpairs entry (Assoc.mem_ofPairs hentry)
  · rw [if_neg hi] at hentry
    exact h i entry hentry

theorem freshStamp (h : m.Native) : Machine.Native { m with stamps := m.stamps + 1 } :=
  fun i entry hentry => (h i entry hentry).mono (Nat.le_succ _)

end Machine.Native

/-! ### Computations that keep a machine native -/

/-- From the machine `m` the two computations come to the same. They leave a native machine, in which no stamp was
taken back, and what they end with is good for the stamps that are handed out by then. -/
structure Keeps {α : Type} (good : Nat → α → Prop) (x x' : EvalM α) (ctx : Context) (m : Machine) : Prop where
  same : x' ctx m = x ctx m
  keeps : ∀ r n, x ctx m = some (r, n) →
    n.Native ∧ m.stamps ≤ n.stamps ∧ Bears (Value.Native n.stamps) (good n.stamps) r

namespace Keeps

variable {α β γ : Type} {good : Nat → α → Prop} {better : Nat → β → Prop} {ctx : Context} {m : Machine}

theorem of_some {x x' : EvalM α} {r : Except Error α} {n : Machine} (hx : x ctx m = some (r, n))
    (hx' : x' ctx m = some (r, n)) (hn : n.Native) (hle : m.stamps ≤ n.stamps)
    (hr : Bears (Value.Native n.stamps) (good n.stamps) r) : Keeps good x x' ctx m := by
  refine ⟨hx'.trans hx.symm, fun r' n' h => ?_⟩
  rw [hx] at h
  cases h
  exact ⟨hn, hle, hr⟩

/-- Computations that only answer, from a machine that they leave as it is. -/
theorem answer {x : EvalM α} {r : Except Error α} (hx : x ctx m = some (r, m)) (hm : m.Native)
    (hr : Bears (Value.Native m.stamps) (good m.stamps) r) : Keeps good x x ctx m :=
  of_some hx hx hm (Nat.le_refl _) hr

protected theorem pure (hm : m.Native) {a : α} (ha : good m.stamps a) : Keeps good (pure a) (pure a) ctx m :=
  answer (pure_apply a ctx m) hm ha

protected theorem throw (hm : m.Native) {e : Error} (he : e.Carries (Value.Native m.stamps)) :
    Keeps good (throw e) (throw e) ctx m := answer (throw_apply e ctx m) hm he

protected theorem ofExcept (good : Nat → α → Prop) (hm : m.Native) {r : Except Error α}
    (hr : Bears (Value.Native m.stamps) (good m.stamps) r) : Keeps good (ofExcept r) (ofExcept r) ctx m :=
  answer (ofExcept_apply r ctx m) hm hr

theorem bind {x x' : EvalM α} {y y' : α → EvalM β} (hx : Keeps good x x' ctx m)
    (hy : ∀ a n, n.Native → m.stamps ≤ n.stamps → good n.stamps a → Keeps better (y a) (y' a) ctx n) :
    Keeps better (x >>= y) (x' >>= y') ctx m := by
  refine ⟨?_, fun r n h => ?_⟩
  · rw [bind_apply, bind_apply, hx.same]
    rcases hxm : x ctx m with _ | ⟨e | a, n⟩
    · rfl
    · rfl
    · obtain ⟨hn, hle, ha⟩ := hx.keeps _ n hxm
      exact (hy a n hn hle ha).same
  · rcases bind_eq_some h with ⟨a, k, ha, hrest⟩ | ⟨e, k, he, houtcome⟩
    · obtain ⟨hk, hle, hgood⟩ := hx.keeps _ k ha
      obtain ⟨hn, hle', hr⟩ := (hy a k hk hle hgood).keeps r n hrest
      exact ⟨hn, Nat.le_trans hle hle', hr⟩
    · cases houtcome
      exact hx.keeps _ _ he

theorem mapM (good : Nat → α → Prop) {y y' : γ → EvalM α} {cs : List γ} (hm : m.Native)
    (hgood : ∀ {stamps stamps' : Nat} {a : α}, good stamps a → stamps ≤ stamps' → good stamps' a)
    (hy : ∀ c ∈ cs, ∀ n, n.Native → m.stamps ≤ n.stamps → Keeps good (y c) (y' c) ctx n) :
    Keeps (fun stamps as => ∀ a ∈ as, good stamps a) (cs.mapM y) (cs.mapM y') ctx m := by
  induction cs generalizing m with
  | nil => exact Keeps.pure hm fun a ha => nomatch ha
  | cons c cs ih =>
      rw [List.mapM_cons, List.mapM_cons]
      refine (hy c List.mem_cons_self m hm (Nat.le_refl _)).bind fun a n hn hle ha => ?_
      refine (ih hn fun c' hc' k hk hle' => hy c' (List.mem_cons_of_mem _ hc') k hk
        (Nat.le_trans hle hle')).bind fun as k hk hle' has => ?_
      refine Keeps.pure hk fun b hb => ?_
      rcases List.mem_cons.mp hb with rfl | hb
      · exact hgood ha hle'
      · exact has b hb

theorem lookup (hm : m.Native) (frame : Nat) (name : String) :
    Keeps Value.Native (EvalM.lookup frame name) (EvalM.lookup frame name) ctx m := by
  refine answer (lookup_apply frame name ctx m) hm ?_
  cases hv : m.frames.get? frame name with
  | none => trivial
  | some v => exact hm.get? hv

theorem printed (hm : m.Native) (style : PrintStyle) (separator : String) (vs : List Value) :
    Keeps (fun _ _ => True) (EvalM.printed style separator vs) (EvalM.printed style separator vs) ctx m :=
  answer (printed_apply style separator vs ctx m) hm (Bears.withinLimits _)

theorem described (hm : m.Native) (v : Value) :
    Keeps (fun _ _ => True) (EvalM.described v) (EvalM.described v) ctx m :=
  answer (described_apply v ctx m) hm (Bears.withinLimits _)

theorem bindName (hm : m.Native) (frame : Nat) (name : String) {v : Value} (hv : v.Native m.stamps) :
    Keeps (fun _ _ => True) (EvalM.bindName frame name v) (EvalM.bindName frame name v) ctx m :=
  of_some (bindName_apply frame name v ctx m) (bindName_apply frame name v ctx m) (hm.set frame name hv)
    (Nat.le_refl _) trivial

theorem extendFrame (hm : m.Native) (outer : Nat) {pairs : List (String × Value)}
    (hpairs : ∀ pair ∈ pairs, pair.2.Native m.stamps) :
    Keeps (fun _ _ => True) (EvalM.extendFrame outer pairs) (EvalM.extendFrame outer pairs) ctx m :=
  of_some (extendFrame_apply outer pairs ctx m) (extendFrame_apply outer pairs ctx m) (hm.extend outer hpairs)
    (Nat.le_refl _) trivial

theorem freshStamp (hm : m.Native) :
    Keeps (fun stamps stamp => stamp < stamps) EvalM.freshStamp EvalM.freshStamp ctx m :=
  of_some (freshStamp_apply ctx m) (freshStamp_apply ctx m) hm.freshStamp (Nat.le_succ _) (Nat.lt_succ_self _)

theorem printLine (hm : m.Native) (line : String) :
    Keeps (fun _ _ => True) (EvalM.printLine line) (EvalM.printLine line) ctx m :=
  of_some (printLine_apply line ctx m) (printLine_apply line ctx m) hm (Nat.le_refl _) trivial

end Keeps

/-! ### Steps and runs -/

/-- From a native machine, every native task comes to the same with both evaluators, and keeps the machine native. -/
def Nested.Keeps (nested nested' : Nested) (ctx : Context) : Prop :=
  ∀ task m, m.Native → task.Native m.stamps → SmallLisp.Keeps Value.Native (nested task) (nested' task) ctx m

section

variable {nested nested' : Nested} {ctx : Context} {m : Machine} (hnested : Nested.Keeps nested nested' ctx)
  (hm : m.Native)
include hnested hm

theorem keeps_evalAll (frame : Nat) {forms : List Value} (hforms : ∀ form ∈ forms, form.Native m.stamps) :
    Keeps (fun stamps vs => ∀ v ∈ vs, v.Native stamps) (forms.mapM fun form => nested (.eval form frame))
      (forms.mapM fun form => nested' (.eval form frame)) ctx m :=
  Keeps.mapM Value.Native hm Value.Native.mono fun form hform n hn hle =>
    hnested (.eval form frame) n hn ((hforms form hform).mono hle)

theorem keeps_bindLocals (frame : Nat) {pairs : List (Value × Value)}
    (hpairs : ∀ pair ∈ pairs, pair.2.Native m.stamps) :
    Keeps (fun _ _ => True) (bindLocals nested frame pairs) (bindLocals nested' frame pairs) ctx m := by
  induction pairs generalizing m with
  | nil => exact Keeps.pure hm trivial
  | cons pair pairs ih =>
      obtain ⟨name, form⟩ := pair
      by_cases hname : ∃ s, name = .symbol s
      · obtain ⟨s, rfl⟩ := hname
        refine (hnested (.eval form frame) m hm (hpairs _ List.mem_cons_self)).bind fun v n hn hle hv => ?_
        refine (Keeps.bindName hn frame s hv).bind fun _ k hk hle' _ => ?_
        exact ih hk fun pair hpair =>
          (hpairs pair (List.mem_cons_of_mem _ hpair)).mono (Nat.le_trans hle hle')
      · rw [bindLocals_of_not_symbol hname, bindLocals_of_not_symbol hname]
        exact (Keeps.described hm name).bind fun shown n hn _ _ => Keeps.throw hn trivial

theorem keeps_runSequence (frame : Nat) {form : Value} {forms : List Value}
    (hforms : ∀ v ∈ form :: forms, v.Native m.stamps) :
    Keeps Step.Native (runSequence nested frame form forms) (runSequence nested' frame form forms) ctx m := by
  induction forms generalizing form m with
  | nil => exact Keeps.pure (a := Step.next form frame) hm (hforms form List.mem_cons_self)
  | cons next forms ih =>
      refine (hnested (.eval form frame) m hm (hforms form List.mem_cons_self)).bind fun _ n hn hle _ => ?_
      exact ih hn fun v hv => (hforms v (List.mem_cons_of_mem _ hv)).mono hle

omit hnested in
theorem keeps_makeClosure (params : Value) (frame : Nat) {body : Value} (hbody : body.Native m.stamps) :
    Keeps Value.Native (makeClosure params body frame) (makeClosure params body frame) ctx m := by
  unfold makeClosure
  split
  · exact (Keeps.freshStamp hm).bind fun stamp n hn hle hstamp => Keeps.pure hn (.closure hstamp (hbody.mono hle))
  · exact Keeps.throw hm trivial

theorem keeps_conditional (frame : Nat) {condition thenForm elseForm : Value} (hcondition : condition.Native m.stamps)
    (hthen : thenForm.Native m.stamps) (helse : elseForm.Native m.stamps) :
    Keeps Step.Native (SpecialForm.conditional.step nested frame [condition, thenForm, elseForm])
      (SpecialForm.conditional.step nested' frame [condition, thenForm, elseForm]) ctx m := by
  refine (hnested (.eval condition frame) m hm hcondition).bind fun v n hn hle _ => ?_
  have hchosen : (if v.isTruthy then thenForm else elseForm).Native n.stamps := by
    split
    · exact hthen.mono hle
    · exact helse.mono hle
  exact Keeps.pure (a := Step.next _ frame) hn hchosen

theorem keeps_specialForm (frame : Nat) (form : SpecialForm) {parts : List Value}
    (hparts : ∀ v ∈ parts, v.Native m.stamps) :
    Keeps Step.Native (form.step nested frame parts) (form.step nested' frame parts) ctx m := by
  unfold SpecialForm.step
  split
  · next name body =>
      split
      · next name =>
          refine (hnested (.eval body frame) m hm (hparts body (by simp))).bind fun v n hn _ hv => ?_
          refine (Keeps.bindName hn frame name hv).bind fun _ k hk hle _ => ?_
          exact Keeps.pure (a := Step.value v) hk (hv.mono hle)
      · exact (Keeps.described hm name).bind fun shown n hn _ _ => Keeps.throw hn trivial
  · next bindings body =>
      have hbody := hparts body (by simp)
      split
      · exact Keeps.throw hm trivial
      · next items hitems =>
          split
          · exact Keeps.throw hm trivial
          · next pairs hpairs =>
              have hforms := (hparts bindings (by simp)).elements hitems
              refine (Keeps.extendFrame hm frame fun pair hpair => (List.not_mem_nil hpair).elim).bind
                fun inner n hn hle _ => ?_
              refine (keeps_bindLocals hnested hn inner fun pair hpair =>
                (hforms _ (Assoc.mem_pairUp? hpairs pair hpair).2).mono hle).bind fun _ k hk hle' _ => ?_
              exact Keeps.pure (a := Step.next body inner) hk (hbody.mono (Nat.le_trans hle hle'))
  · exact keeps_runSequence hnested hm frame hparts
  · next condition thenForm =>
      exact keeps_conditional hnested hm frame (hparts condition (by simp)) (hparts thenForm (by simp)) .nil
  · next condition thenForm elseForm =>
      exact keeps_conditional hnested hm frame (hparts condition (by simp)) (hparts thenForm (by simp))
        (hparts elseForm (by simp))
  · next params body =>
      exact (keeps_makeClosure hm params frame (hparts body (by simp))).bind
        fun v n hn _ hv => Keeps.pure (a := Step.value v) hn hv
  · exact Keeps.throw hm trivial

theorem keeps_builtin (caller : Nat) {b : Builtin} (hb : b ≠ .eval) {args : List Value}
    (hargs : ∀ v ∈ args, v.Native m.stamps) :
    Keeps Step.Native (b.step nested caller args) (b.step nested' caller args) ctx m := by
  have hline : ∀ style, Keeps Step.Native
      (EvalM.printed style " " args >>= fun line => EvalM.printLine line >>= fun _ => pure (Step.value .nil))
      (EvalM.printed style " " args >>= fun line => EvalM.printLine line >>= fun _ => pure (Step.value .nil)) ctx m := by
    intro style
    refine (Keeps.printed hm style " " args).bind fun line n hn _ _ => ?_
    exact (Keeps.printLine hn line).bind fun _ k hk _ _ => Keeps.pure (a := Step.value .nil) hk .nil
  unfold Builtin.step
  split
  · next p =>
      have hread : Keeps (fun _ _ => True) read read ctx m := Keeps.answer (read_apply ctx m) hm trivial
      refine hread.bind fun ctx' n hn hle _ => ?_
      have hrun := p.bears_run (Value.hereditary_native n.stamps) ctx' fun v hv => (hargs v hv).mono hle
      exact (Keeps.ofExcept Value.Native hn hrun).bind fun v k hk _ hv => Keeps.pure (a := Step.value v) hk hv
  · exact hline .readable
  · exact hline .raw
  · next fn arg more =>
      dsimp only
      split
      · next items hitems =>
          have hgiven := Value.forall_spread Value.Native.elements (fun v hv => hargs v (List.mem_cons_of_mem _ hv)) hitems
          exact (hnested (.call fn _ caller) m hm ⟨hargs fn (by simp), hgiven⟩).bind
            fun v n hn _ hv => Keeps.pure (a := Step.value v) hn hv
      · exact Keeps.throw hm trivial
  · next fn xs =>
      split
      · next items hitems =>
          have hall := (hargs xs (by simp)).elements hitems
          refine (Keeps.mapM Value.Native hm Value.Native.mono fun x hx n hn hle => ?_).bind
            fun vs n hn _ hvs => Keeps.pure (a := Step.value (.list vs)) hn (.list hvs)
          refine hnested (.call fn [x] caller) n hn ⟨(hargs fn (by simp)).mono hle, fun v hv => ?_⟩
          rw [List.mem_singleton.mp hv]
          exact (hall x hx).mono hle
      · exact Keeps.throw hm trivial
  · exact absurd rfl hb
  · exact Keeps.throw hm trivial

/-- A native function is not `eval`. -/
theorem keeps_applySparing {fn : Value} {args : List Value} (caller : Nat) (hfn : fn.Native m.stamps)
    (hargs : ∀ v ∈ args, v.Native m.stamps) :
    Keeps Step.Native (applyStep nested fn args caller) (applySparing nested' fn args caller) ctx m := by
  have hne : fn ≠ .builtin .eval := by
    rintro rfl
    exact Value.native_builtin.mp hfn rfl
  rw [applySparing_of_ne hne]
  unfold applyStep
  split
  · next params body captured =>
      refine (Keeps.ofExcept (fun stamps pairs => ∀ pair ∈ pairs, pair.2.Native stamps) hm
        (params.bears_assign (Value.hereditary_native m.stamps) hargs)).bind fun pairs n hn hle hpairs => ?_
      refine (Keeps.extendFrame hn captured hpairs).bind fun frame k hk hle' _ => ?_
      exact Keeps.pure (a := Step.next body frame) hk ((Value.native_closure.mp hfn).2.mono (Nat.le_trans hle hle'))
  · exact keeps_builtin hnested hm caller (Value.native_builtin.mp hfn) hargs
  · exact (Keeps.printed hm .readable "" [_]).bind fun shown n hn _ _ => Keeps.throw hn trivial

theorem keeps_evalParts (frame : Nat) {form : Value} (hform : form.Native m.stamps) :
    Keeps Value.Native (evalParts nested frame form) (evalParts nested' frame form) ctx m := by
  unfold evalParts
  split
  · exact Keeps.lookup hm frame _
  · exact (keeps_evalAll hnested hm frame (Value.native_list.mp hform)).bind
      fun vs n hn _ hvs => Keeps.pure hn (.list hvs)
  · exact (keeps_evalAll hnested hm frame (Value.native_vector.mp hform)).bind
      fun vs n hn _ hvs => Keeps.pure hn (.vector hvs)
  · have hentries := Value.native_map.mp hform
    refine (Keeps.mapM (fun stamps entry => entry.2.Native stamps) hm Value.Native.mono
      fun entry hentry n hn hle => ?_).bind fun vs n hn _ hvs => Keeps.pure hn (.map hvs)
    refine (hnested (.eval entry.2 frame) n hn ((hentries entry hentry).mono hle)).bind fun v k hk _ hv => ?_
    exact Keeps.pure (a := (entry.1, v)) hk hv
  · exact Keeps.pure hm hform

theorem keeps_stepBy (task : Task) (htask : task.Native m.stamps) :
    Keeps Step.Native (stepBy applyStep nested task) (stepBy applySparing nested' task) ctx m := by
  unfold stepBy
  split
  · exact keeps_applySparing hnested hm _ htask.1 htask.2
  · next head tail frame =>
      have hforms := Value.native_list.mp htask
      split
      · exact keeps_specialForm hnested hm frame _ fun v hv => hforms v (List.mem_cons_of_mem _ hv)
      · refine (hnested (.eval head frame) m hm (hforms head List.mem_cons_self)).bind fun fn n hn hle hfn => ?_
        refine (keeps_evalAll hnested hn frame fun form hform =>
          (hforms form (List.mem_cons_of_mem _ hform)).mono hle).bind fun args k hk hle' hargs => ?_
        exact keeps_applySparing hnested hk frame (hfn.mono hle') hargs
  · exact (keeps_evalParts hnested hm _ htask).bind fun v n hn _ hv => Keeps.pure (a := Step.value v) hn hv

end

/-- A run of a native task in a native machine is one without calls of `eval`, and keeps the machine native. -/
theorem keeps_runBy (ctx : Context) (steps room : Nat) :
    Nested.Keeps (runBy applyStep steps room) (runBy applySparing steps room) ctx := by
  induction steps generalizing room with
  | zero => exact fun task m _ _ => ⟨rfl, nofun⟩
  | succ steps ih =>
      have hturn : ∀ nested nested', Nested.Keeps nested nested' ctx → ∀ task m, m.Native → task.Native m.stamps →
          Keeps Value.Native (stepBy applyStep nested task >>= Step.finish (runBy applyStep steps room))
            (stepBy applySparing nested' task >>= Step.finish (runBy applySparing steps room)) ctx m := by
        intro nested nested' hnested task m hm htask
        refine (keeps_stepBy hnested hm task htask).bind fun s n hn _ hs => ?_
        cases s with
        | value v => exact Keeps.pure hn hs
        | next form frame => exact ih room (.eval form frame) n hn hs
      cases room with
      | zero => exact hturn _ _ fun task m hm _ => Keeps.throw hm trivial
      | succ room => exact hturn _ _ (ih room)

end SmallLisp
