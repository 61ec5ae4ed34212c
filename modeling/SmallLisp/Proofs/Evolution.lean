import SmallLisp.Proofs.Image

/-! How frames evolve. Evaluation binds names in some frames, the writable ones, and makes new frames; it does
nothing else to them, and it does the same under any other numbering of the frames. One computation tracks
another one if both hold: however the second ends, its frames have only evolved in this way, and from an image of
its state the first ends with the image of its outcome. Tracking survives sequencing, so it is shown once for
each basic computation. -/

namespace SmallLisp

namespace Frames

/-- The frames `t'` come from the frames `t` by binding names in writable frames and making new frames. -/
structure Evolves (writable : Nat → Prop) (t t' : Frames) : Prop where
  size_le : t.size ≤ t'.size
  kept : ∀ i < t.size, ¬writable i → t'.all[i]? = t.all[i]?
  outer : ∀ i < t.size, t'.outer? i = t.outer? i
  names : ∀ i < t.size, (t.bindings i).map Prod.fst <+: (t'.bindings i).map Prod.fst

namespace Evolves

variable {writable : Nat → Prop} {t t' t'' : Frames}

theorem refl (writable : Nat → Prop) (t : Frames) : Evolves writable t t :=
  ⟨Nat.le_refl _, fun _ _ _ => rfl, fun _ _ => rfl, fun _ _ => List.prefix_refl _⟩

theorem trans (h : Evolves writable t t') (h' : Evolves writable t' t'') : Evolves writable t t'' where
  size_le := Nat.le_trans h.size_le h'.size_le
  kept i hi hw := (h'.kept i (Nat.lt_of_lt_of_le hi h.size_le) hw).trans (h.kept i hi hw)
  outer i hi := (h'.outer i (Nat.lt_of_lt_of_le hi h.size_le)).trans (h.outer i hi)
  names i hi := (h.names i hi).trans (h'.names i (Nat.lt_of_lt_of_le hi h.size_le))

/-- Only what is writable among the old frames counts. -/
theorem weaken (h : Evolves writable t t') {wider : Nat → Prop}
    (hw : ∀ i < t.size, writable i → wider i) : Evolves wider t t' where
  size_le := h.size_le
  kept i hi hn := h.kept i hi fun hwritable => hn (hw i hi hwritable)
  outer := h.outer
  names := h.names

theorem set {frame : Nat} (hframe : writable frame) (name : String) (value : Value) :
    Evolves writable t (t.set frame name value) where
  size_le := Nat.le_of_eq (size_set ..).symm
  kept i _ hn := by
    rw [getElem?_set, if_neg]
    rintro rfl
    exact hn hframe
  outer i _ := outer?_set frame name value i
  names i hi := by
    obtain ⟨f, hf⟩ : ∃ f, t.all[i]? = some f := ⟨_, Array.getElem?_eq_getElem hi⟩
    by_cases hi : frame = i
    · simp only [bindings, getElem?_set, if_pos hi, hf, Option.map_some]
      exact Assoc.keys_insert ..
    · simp only [bindings, getElem?_set, if_neg hi]
      exact List.prefix_refl _

theorem extend (outer : Nat) (pairs : List (String × Value)) :
    Evolves writable t (t.extend outer pairs).2 := by
  have hold : ∀ i < t.size, (t.extend outer pairs).2.all[i]? = t.all[i]? := by
    intro i hi
    rw [getElem?_extend, if_neg (Nat.ne_of_lt hi)]
  refine ⟨?_, fun i hi _ => hold i hi, fun i hi => ?_, fun i hi => ?_⟩
  · rw [size_extend]
    exact Nat.le_succ _
  · rw [outer?, outer?, hold i hi]
  · have hsame : (t.extend outer pairs).2.bindings i = t.bindings i := by rw [bindings, bindings, hold i hi]
    exact hsame ▸ List.prefix_refl _

end Evolves

end Frames

/-! ### Tracking -/

open Frames

/-- From the machines `m` and `m'`, of which the second is meant to be the image of the first, the computation
`x'` tracks `x`. If `x` ends, only writable frames have other bindings than before, what it ends with is good
for the number of frames that there are then, and `x'` ends with that, renumbered, and with an image of the
machine. If `x` has no outcome, `x'` has none either. -/
structure Tracks (ρ : Renumbering) (writable : Nat → Prop) {α β : Type} (f : α → β) (good : Nat → α → Prop)
    (x : EvalM α) (x' : EvalM β) (ctx : Context) (m m' : Machine) : Prop where
  lands : ∀ r n, x ctx m = some (r, n) →
    m.frames.Evolves writable n.frames ∧ Safe n.frames.size (good n.frames.size) r
  mirrors : ∀ r n, x ctx m = some (r, n) → ∃ n', x' ctx m' = some (renameResult ρ f r, n') ∧ n.Image ρ n'
  silent : x ctx m = none → x' ctx m' = none

namespace Tracks

variable {ρ : Renumbering} {writable : Nat → Prop} {α β γ δ : Type} {f : α → β} {g : γ → δ}
  {good : Nat → α → Prop} {better : Nat → γ → Prop} {ctx : Context} {m m' : Machine}

/-- What ends in both machines, with machines that are known. -/
theorem of_some {x : EvalM α} {x' : EvalM β} {r : Except Error α} {n n' : Machine}
    (hx : x ctx m = some (r, n)) (hx' : x' ctx m' = some (renameResult ρ f r, n'))
    (hevolves : m.frames.Evolves writable n.frames) (hr : Safe n.frames.size (good n.frames.size) r)
    (himage : n.Image ρ n') : Tracks ρ writable f good x x' ctx m m' := by
  refine ⟨fun r' k h => ?_, fun r' k h => ?_, fun h => ?_⟩
  · rw [hx] at h
    cases h
    exact ⟨hevolves, hr⟩
  · rw [hx] at h
    cases h
    exact ⟨n', hx', himage⟩
  · rw [hx] at h
    cases h

theorem weaken {x : EvalM α} {x' : EvalM β} (hx : Tracks ρ writable f good x x' ctx m m')
    {wider : Nat → Prop} (hw : ∀ i < m.frames.size, writable i → wider i) :
    Tracks ρ wider f good x x' ctx m m' :=
  ⟨fun r n h => ⟨(hx.lands r n h).1.weaken hw, (hx.lands r n h).2⟩, hx.mirrors, hx.silent⟩

/-- Computations that only answer, from machines that they leave as they are. -/
theorem answer {x : EvalM α} {x' : EvalM β} {r : Except Error α} (hx : x ctx m = some (r, m))
    (hx' : x' ctx m' = some (renameResult ρ f r, m')) (h : m.Image ρ m')
    (hr : Safe m.frames.size (good m.frames.size) r) : Tracks ρ writable f good x x' ctx m m' :=
  of_some hx hx' (.refl _ _) hr h

protected theorem pure (h : m.Image ρ m') {a : α} (ha : good m.frames.size a) :
    Tracks ρ writable f good (pure a) (pure (f a)) ctx m m' :=
  answer (Computation.pure_apply a ctx m) (Computation.pure_apply (f a) ctx m') h ha

protected theorem throw (h : m.Image ρ m') {e : Error} (he : e.InScope 0) :
    Tracks ρ writable f good (throw e) (throw e) ctx m m' := by
  refine answer (Computation.throw_apply e ctx m) ?_ h (he.mono (Nat.zero_le _))
  rw [renameResult_error, he.rename_closed]
  exact Computation.throw_apply e ctx m'

protected theorem ofExcept (good : Nat → α → Prop) (h : m.Image ρ m') {r : Except Error α} {r' : Except Error β}
    (hr' : r' = renameResult ρ f r) (hr : Safe m.frames.size (good m.frames.size) r) :
    Tracks ρ writable f good (ofExcept r) (ofExcept r') ctx m m' :=
  answer (Computation.ofExcept_apply r ctx m) (hr' ▸ Computation.ofExcept_apply r' ctx m') h hr

protected theorem read (h : m.Image ρ m') :
    Tracks ρ writable (fun c => c) (fun _ c => c = ctx) (read : EvalM Context) (read : EvalM Context) ctx m m' :=
  answer (Computation.read_apply ctx m) (Computation.read_apply ctx m') h rfl

theorem outOfSteps : Tracks ρ writable f good EvalM.outOfSteps EvalM.outOfSteps ctx m m' :=
  ⟨fun _ _ h => (nomatch h), fun _ _ h => (nomatch h), fun _ => rfl⟩

theorem bind {x : EvalM α} {x' : EvalM β} {y : α → EvalM γ} {y' : β → EvalM δ}
    (hx : Tracks ρ writable f good x x' ctx m m')
    (hy : ∀ a n n', m.frames.Evolves writable n.frames → n.Image ρ n' → good n.frames.size a →
      Tracks ρ writable g better (y a) (y' (f a)) ctx n n') :
    Tracks ρ writable g better (x >>= y) (x' >>= y') ctx m m' := by
  rcases hxm : x ctx m with _ | ⟨e | a, n⟩
  · have hx' := hx.silent hxm
    refine ⟨fun r k h => ?_, fun r k h => ?_, fun _ => ?_⟩
    · rw [Computation.bind_apply, hxm] at h
      cases h
    · rw [Computation.bind_apply, hxm] at h
      cases h
    · rw [Computation.bind_apply, hx']
  · obtain ⟨hevolves, hr⟩ := hx.lands _ n hxm
    obtain ⟨n', hx', himage⟩ := hx.mirrors _ n hxm
    exact of_some (Computation.bind_of_error hxm) (Computation.bind_of_error hx') hevolves hr himage
  · obtain ⟨hevolves, hr⟩ := hx.lands _ n hxm
    obtain ⟨n', hx', himage⟩ := hx.mirrors _ n hxm
    have hrest := hy a n n' hevolves himage hr
    refine ⟨fun r k h => ?_, fun r k h => ?_, fun h => ?_⟩
    · rw [Computation.bind_of_ok hxm] at h
      obtain ⟨hevolves', hr'⟩ := hrest.lands r k h
      exact ⟨hevolves.trans hevolves', hr'⟩
    · rw [Computation.bind_of_ok hxm] at h
      rw [Computation.bind_of_ok hx']
      exact hrest.mirrors r k h
    · rw [Computation.bind_of_ok hxm] at h
      rw [Computation.bind_of_ok hx']
      exact hrest.silent h

/-- Doing the same for the elements of a list, one after the other. -/
theorem mapM (f : α → β) (good : Nat → α → Prop) {e : γ → δ} {y : γ → EvalM α} {y' : δ → EvalM β} {cs : List γ}
    (h : m.Image ρ m')
    (hgood : ∀ {size size' : Nat} {a : α}, good size a → size ≤ size' → good size' a)
    (hy : ∀ c ∈ cs, ∀ n n', m.frames.Evolves writable n.frames → n.Image ρ n' →
      Tracks ρ writable f good (y c) (y' (e c)) ctx n n') :
    Tracks ρ writable (List.map f) (fun size as => ∀ a ∈ as, good size a) (cs.mapM y) ((cs.map e).mapM y')
      ctx m m' := by
  induction cs generalizing m m' with
  | nil => exact Tracks.pure h fun a ha => nomatch ha
  | cons c cs ih =>
      rw [List.map_cons, List.mapM_cons, List.mapM_cons]
      refine (hy c List.mem_cons_self m m' (.refl _ _) h).bind fun a n n' hevolves hn ha => ?_
      refine (ih hn fun c' hc' k k' hevolves' => hy c' (List.mem_cons_of_mem _ hc') k k'
        (hevolves.trans hevolves')).bind fun as k k' hevolves' hk has => ?_
      refine Tracks.pure hk fun b hb => ?_
      rcases List.mem_cons.mp hb with rfl | hb
      · exact hgood ha hevolves'.size_le
      · exact has b hb

theorem lookup (h : m.Image ρ m') (frame : Nat) (name : String) :
    Tracks ρ writable (Value.rename ρ) Value.InScope (EvalM.lookup frame name)
      (EvalM.lookup (ρ.frame frame) name) ctx m m' := by
  refine answer (EvalM.lookup_apply frame name ctx m) ?_ h ?_
  · rw [EvalM.lookup_apply, h.get?_eq]
    cases m.frames.get? frame name <;> rfl
  · cases hv : m.frames.get? frame name with
    | none => trivial
    | some v => exact h.wellScoped.get? hv

theorem printed (h : m.Image ρ m') (style : PrintStyle) (separator : String) (vs : List Value) :
    Tracks ρ writable (fun s => s) (fun _ _ => True) (EvalM.printed style separator vs)
      (EvalM.printed style separator (vs.map (Value.rename ρ))) ctx m m' := by
  have hclosed : Safe 0 (fun _ => True) (withinLimits (Value.printAll ctx.limits style separator vs)) :=
    Safe.withinLimits _
  refine answer (EvalM.printed_apply style separator vs ctx m) ?_ h (Safe.withinLimits _)
  rw [hclosed.rename_closed fun _ _ => rfl, EvalM.printed_apply, Value.printAll_rename]

theorem described (h : m.Image ρ m') (v : Value) :
    Tracks ρ writable (fun s => s) (fun _ _ => True) (EvalM.described v) (EvalM.described (v.rename ρ))
      ctx m m' := by
  have hclosed : Safe 0 (fun _ => True) (withinLimits (v.describe ctx.limits)) := Safe.withinLimits _
  refine answer (EvalM.described_apply v ctx m) ?_ h (Safe.withinLimits _)
  rw [hclosed.rename_closed fun _ _ => rfl, EvalM.described_apply, Value.describe_rename]

theorem printLine (h : m.Image ρ m') (line : String) :
    Tracks ρ writable (fun u => u) (fun _ _ => True) (EvalM.printLine line) (EvalM.printLine line) ctx m m' :=
  of_some (EvalM.printLine_apply line ctx m) (EvalM.printLine_apply line ctx m') (.refl _ _) trivial
    (h.printLine line)

theorem freshStamp (h : m.Image ρ m') :
    Tracks ρ writable ρ.stamp (fun _ _ => True) EvalM.freshStamp EvalM.freshStamp ctx m m' := by
  refine of_some (EvalM.freshStamp_apply ctx m) ?_ (.refl _ _) trivial h.freshStamp
  have hstamp : ρ.stamp m.stamps = m'.stamps := h.nextStamp 0
  rw [EvalM.freshStamp_apply, renameResult_ok, hstamp]

theorem bindName (h : m.Image ρ m') {frame : Nat} (hframe : writable frame) (name : String) {v : Value}
    (hv : v.InScope m.frames.size) :
    Tracks ρ writable (fun u => u) (fun _ _ => True) (EvalM.bindName frame name v)
      (EvalM.bindName (ρ.frame frame) name (v.rename ρ)) ctx m m' :=
  of_some (EvalM.bindName_apply frame name v ctx m) (EvalM.bindName_apply ..) (.set hframe name v) trivial
    (h.set frame name hv)

/-- A new frame has the next number. -/
theorem extendFrame (h : m.Image ρ m') {outer : Nat} {pairs : List (String × Value)}
    (houter : outer < m.frames.size) (hpairs : ∀ pair ∈ pairs, pair.2.InScope m.frames.size) :
    Tracks ρ writable ρ.frame (fun size frame => frame = m.frames.size ∧ frame < size)
      (EvalM.extendFrame outer pairs)
      (EvalM.extendFrame (ρ.frame outer) (pairs.map fun pair => (pair.1, pair.2.rename ρ))) ctx m m' := by
  refine of_some (EvalM.extendFrame_apply outer pairs ctx m) ?_ (.extend outer pairs) ⟨rfl, ?_⟩
    (h.extend houter hpairs)
  · rw [EvalM.extendFrame_apply, renameResult_ok]
    exact congrArg (fun frame => some (Except.ok frame, _)) (h.nextFrame 0).symm
  · rw [size_extend]
    exact Nat.lt_succ_self _

end Tracks

end SmallLisp
