import SmallLisp.Proofs.Renumbering

/-! Images of machines. One machine is the image of another under a renumbering if it holds the same frames
under other numbers, and perhaps more frames that the first one knows nothing of. Names are looked up alike in
both, and what is done to a frame in one can be done to its image in the other. -/

namespace SmallLisp

variable (ρ : Renumbering)

/-- The frame with the closures in it, and the frame around it, renumbered. -/
def Frame.rename (f : Frame) : Frame :=
  ⟨f.bindings.map fun entry => (entry.1, entry.2.rename ρ), f.outer.map ρ.frame⟩

def Task.rename : Task → Task
  | .eval form frame => .eval (form.rename ρ) (ρ.frame frame)
  | .call fn args caller => .call (fn.rename ρ) (args.map (Value.rename ρ)) (ρ.frame caller)

def Step.rename : Step → Step
  | .value v => .value (v.rename ρ)
  | .next form frame => .next (form.rename ρ) (ρ.frame frame)

/-- The machine `m'` has each frame of the well-scoped machine `m` under its new number, it gives new frames and
closures the numbers that those of `m` are to have, and it has printed the same. -/
structure Machine.Image (m m' : Machine) : Prop where
  wellScoped : m.frames.WellScoped
  frames : ∀ i, m'.frames.all[ρ.frame i]? = (m.frames.all[i]?).map (Frame.rename ρ)
  nextFrame : ∀ j, ρ.frame (m.frames.size + j) = m'.frames.size + j
  nextStamp : ∀ j, ρ.stamp (m.stamps + j) = m'.stamps + j
  output : m'.output = m.output

/-- A frame is as it was if the values in it are, and all frames keep their numbers. -/
theorem Frames.WellScoped.rename_eq {ρ : Renumbering} {t : Frames} (h : t.WellScoped) {i : Nat} {f : Frame}
    (hf : t.all[i]? = some f) (hvalues : ∀ entry ∈ f.bindings, entry.2.rename ρ = entry.2)
    (hframe : ∀ frame < t.size, ρ.frame frame = frame) : f.rename ρ = f := by
  have hbindings : (f.bindings.map fun entry => (entry.1, entry.2.rename ρ)) = f.bindings := by
    have hentry : ∀ entry ∈ f.bindings, (entry.1, entry.2.rename ρ) = entry := fun entry hmem => by
      rw [hvalues entry hmem]
    rw [List.map_congr_left hentry, List.map_id']
  have houter : f.outer.map ρ.frame = f.outer := by
    cases hround : f.outer with
    | none => rfl
    | some outer =>
        have hlt : outer < i := h.outer_lt (Option.bind_eq_some_iff.mpr ⟨f, hf, hround⟩)
        have hi : i < t.size := (Array.getElem?_eq_some_iff.mp hf).1
        rw [Option.map_some, hframe outer (Nat.lt_trans hlt hi)]
  rw [Frame.rename, hbindings, houter]

namespace Machine.Image

open Frames

variable {ρ} {m m' : Machine}

theorem same {m : Machine} (hm : m.frames.WellScoped) : m.Image .same m := by
  refine ⟨hm, fun i => ?_, fun j => rfl, fun j => rfl, rfl⟩
  have hframe : m.frames.all[i]? = (m.frames.all[i]?).map (Frame.rename .same) := by
    cases hf : m.frames.all[i]? with
    | none => rfl
    | some f =>
        have hvalues : ∀ entry ∈ f.bindings, entry.2.rename .same = entry.2 := fun entry hentry =>
          (hm.values i f hf entry hentry).rename_eq fun _ _ _ => ⟨rfl, rfl⟩
        rw [Option.map_some, hm.rename_eq hf hvalues fun _ _ => rfl]
  exact hframe

/-- A machine with one more frame is an image of the machine. -/
theorem skip {m : Machine} (hm : m.frames.WellScoped) {k : Nat} (hpos : 0 < k) (hk : m.frames.size = k)
    (outer : Nat) (pairs : List (String × Value)) :
    m.Image (.skip k hpos) { m with frames := (m.frames.extend outer pairs).2 } := by
  subst hk
  have hframe : ∀ i < m.frames.size, (Renumbering.skip m.frames.size hpos).frame i = i := fun i hi => if_pos hi
  refine ⟨hm, fun i => ?_, fun j => ?_, fun j => rfl, rfl⟩
  · by_cases hi : i < m.frames.size
    · rw [hframe i hi, getElem?_extend, if_neg (Nat.ne_of_lt hi)]
      cases hf : m.frames.all[i]? with
      | none => rfl
      | some f =>
          have hvalues : ∀ entry ∈ f.bindings, entry.2.rename (.skip m.frames.size hpos) = entry.2 :=
            fun entry hentry => (hm.values i f hf entry hentry).rename_eq fun _ frame hlt => ⟨rfl, hframe frame hlt⟩
          rw [Option.map_some, hm.rename_eq hf hvalues hframe]
    · have hnew : (Renumbering.skip m.frames.size hpos).frame i = i + 1 := if_neg hi
      have hbeyond : ∀ j, m.frames.size ≤ j → m.frames.all[j]? = none := fun j hj => Array.getElem?_eq_none hj
      rw [hnew, getElem?_extend, if_neg (by omega), hbeyond i (by omega), hbeyond (i + 1) (by omega)]
      rfl
  · have hnew : (Renumbering.skip m.frames.size hpos).frame (m.frames.size + j) = m.frames.size + j + 1 :=
      if_neg (by omega)
    rw [hnew, size_extend]
    omega

theorem outer?_eq (h : m.Image ρ m') (i : Nat) :
    m'.frames.outer? (ρ.frame i) = (m.frames.outer? i).map ρ.frame := by
  rw [outer?, outer?, h.frames]
  cases m.frames.all[i]? <;> rfl

theorem bindings_eq (h : m.Image ρ m') (i : Nat) :
    m'.frames.bindings (ρ.frame i) = (m.frames.bindings i).map fun entry => (entry.1, entry.2.rename ρ) := by
  rw [bindings, bindings, h.frames]
  cases m.frames.all[i]? <;> rfl

theorem chainWithin_eq (h : m.Image ρ m') (steps frame : Nat) :
    m'.frames.chainWithin steps (ρ.frame frame) = (m.frames.chainWithin steps frame).map ρ.frame := by
  induction steps generalizing frame with
  | zero => rfl
  | succ steps ih =>
      rw [chainWithin, chainWithin, h.outer?_eq]
      cases m.frames.outer? frame with
      | none => rfl
      | some outer => simp [ih]

/-- The way outwards from the image of a frame is the image of the way outwards. -/
theorem chain_eq (h : m.Image ρ m') (frame : Nat) :
    m'.frames.chain (ρ.frame frame) = (m.frames.chain frame).map ρ.frame := by
  have hle := ρ.le_frame frame
  rw [chain, h.chainWithin_eq, h.wellScoped.chainWithin_eq (by omega)]

theorem get?_eq (h : m.Image ρ m') (frame : Nat) (name : String) :
    m'.frames.get? (ρ.frame frame) name = (m.frames.get? frame name).map (Value.rename ρ) := by
  rw [get?, get?, h.chain_eq, List.findSome?_map]
  induction m.frames.chain frame with
  | nil => rfl
  | cons i chain ih =>
      simp only [List.findSome?_cons, Function.comp_apply, h.bindings_eq, Assoc.find?_map]
      cases Assoc.find? name (m.frames.bindings i) with
      | none => exact ih
      | some v => rfl

theorem root_eq (h : m.Image ρ m') (frame : Nat) :
    m'.frames.root (ρ.frame frame) = ρ.frame (m.frames.root frame) := by
  rw [root, root, h.chain_eq, List.getLastD_eq_getLast?, List.getLastD_eq_getLast?, List.getLast?_map]
  cases (m.frames.chain frame).getLast? <;> rfl

theorem set (h : m.Image ρ m') (frame : Nat) (name : String) {v : Value} (hv : v.InScope m.frames.size) :
    Machine.Image ρ { m with frames := m.frames.set frame name v }
      { m' with frames := m'.frames.set (ρ.frame frame) name (v.rename ρ) } := by
  refine ⟨h.wellScoped.set hv, fun i => ?_, ?_, h.nextStamp, h.output⟩
  · simp only [getElem?_set, h.frames]
    by_cases hi : frame = i
    · subst hi
      simp only [if_true]
      cases m.frames.all[frame]? with
      | none => rfl
      | some f => simp [Frame.rename, Assoc.insert_map]
    · have hne : ρ.frame frame ≠ ρ.frame i := fun heq => hi (ρ.frame_inj heq)
      simp only [if_neg hi, if_neg hne]
  · simpa using h.nextFrame

theorem extend (h : m.Image ρ m') {outer : Nat} (houter : outer < m.frames.size) {pairs : List (String × Value)}
    (hpairs : ∀ pair ∈ pairs, pair.2.InScope m.frames.size) :
    Machine.Image ρ { m with frames := (m.frames.extend outer pairs).2 }
      { m' with frames := (m'.frames.extend (ρ.frame outer)
          (pairs.map fun pair => (pair.1, pair.2.rename ρ))).2 } := by
  have hnext : ρ.frame m.frames.size = m'.frames.size := h.nextFrame 0
  refine ⟨h.wellScoped.extend houter hpairs, fun i => ?_, fun j => ?_, h.nextStamp, h.output⟩
  · simp only [getElem?_extend, h.frames]
    by_cases hi : i = m.frames.size
    · simp [hi, hnext, Frame.rename, Assoc.ofPairs_map]
    · have hne : ρ.frame i ≠ m'.frames.size := fun heq => hi (ρ.frame_inj (heq.trans hnext.symm))
      simp only [if_neg hi, if_neg hne]
  · have hj := h.nextFrame (j + 1)
    simp only [size_extend]
    rw [Nat.add_assoc, Nat.add_comm 1 j, hj]
    omega

theorem freshStamp (h : m.Image ρ m') :
    Machine.Image ρ { m with stamps := m.stamps + 1 } { m' with stamps := m'.stamps + 1 } := by
  refine ⟨h.wellScoped, h.frames, h.nextFrame, fun j => ?_, h.output⟩
  have hj := h.nextStamp (j + 1)
  dsimp only
  rw [Nat.add_assoc, Nat.add_comm 1 j, hj]
  omega

theorem printLine (h : m.Image ρ m') (line : String) :
    Machine.Image ρ { m with output := m.output ++ line ++ "\n" }
      { m' with output := m'.output ++ line ++ "\n" } :=
  ⟨h.wellScoped, h.frames, h.nextFrame, h.nextStamp, by rw [h.output]⟩

end Machine.Image

end SmallLisp
