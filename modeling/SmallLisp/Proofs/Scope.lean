import SmallLisp.Proofs.Computation

/-! Scoping. Frames form one tree: the root has no frame around it and every other frame was made under an
older one. No closure is over a frame that does not exist, be it bound to a name, held inside other data or
held in code. In such a state every way outwards ends at the one root. -/

namespace SmallLisp

/-! ### Values over existing frames -/

/-- All closures in a value, however deep, are over frames with a number below `size`. -/
inductive Value.InScope (size : Nat) : Value → Prop
  | nil : InScope size .nil
  | bool (b : Bool) : InScope size (.bool b)
  | int (n : Int) : InScope size (.int n)
  | symbol (name : String) : InScope size (.symbol name)
  | text (s : String) : InScope size (.text s)
  | list {items : List Value} : (∀ v ∈ items, InScope size v) → InScope size (.list items)
  | vector {items : List Value} : (∀ v ∈ items, InScope size v) → InScope size (.vector items)
  | map {entries : List (String × Value)} :
      (∀ entry ∈ entries, InScope size entry.2) → InScope size (.map entries)
  | closure {stamp : Nat} {params : Params} {body : Value} {frame : Nat} :
      frame < size → InScope size body → InScope size (.closure stamp params body frame)
  | builtin (b : Builtin) : InScope size (.builtin b)

namespace Value

variable {size : Nat}

theorem InScope.mono {v : Value} {size' : Nat} (h : v.InScope size) (hle : size ≤ size') : v.InScope size' := by
  induction h with
  | list _ ih => exact .list ih
  | vector _ ih => exact .vector ih
  | map _ ih => exact .map ih
  | closure hframe _ ih => exact .closure (Nat.lt_of_lt_of_le hframe hle) ih
  | _ => constructor

theorem inScope_list {items : List Value} : (list items).InScope size ↔ ∀ v ∈ items, v.InScope size :=
  ⟨fun | .list h => h, .list⟩

theorem inScope_vector {items : List Value} : (vector items).InScope size ↔ ∀ v ∈ items, v.InScope size :=
  ⟨fun | .vector h => h, .vector⟩

theorem inScope_map {entries : List (String × Value)} :
    (map entries).InScope size ↔ ∀ entry ∈ entries, entry.2.InScope size :=
  ⟨fun | .map h => h, .map⟩

theorem inScope_closure {stamp frame : Nat} {params : Params} {body : Value} :
    (closure stamp params body frame).InScope size ↔ frame < size ∧ body.InScope size :=
  ⟨fun | .closure hframe hbody => ⟨hframe, hbody⟩, fun h => .closure h.1 h.2⟩

theorem InScope.elements {v : Value} {items : List Value} (h : v.InScope size)
    (hitems : v.elements? = some items) : ∀ item ∈ items, item.InScope size := by
  cases v <;> cases hitems
  · exact inScope_list.mp h
  · exact inScope_vector.mp h

end Value

/-- The value that an error carries, if it carries one, is over existing frames. -/
def Error.InScope (size : Nat) : Error → Prop
  | .thrown v => v.InScope size
  | _ => True

theorem Error.InScope.mono {e : Error} {size size' : Nat} (h : e.InScope size) (hle : size ≤ size') :
    e.InScope size' := by
  cases e with
  | thrown v => exact Value.InScope.mono h hle
  | _ => trivial

/-! ### Frames -/

namespace Frames

/-- How many frames there are. -/
abbrev size (t : Frames) : Nat := t.all.size

/-- The frames form one tree under frame zero, and all values in them are over existing frames. -/
structure WellScoped (t : Frames) : Prop where
  outermost : ∃ f : Frame, t.all[0]? = some f ∧ f.outer = none
  inner : ∀ (i : Nat) (f : Frame), t.all[i + 1]? = some f → ∃ outer, f.outer = some outer ∧ outer ≤ i
  values : ∀ (i : Nat) (f : Frame), t.all[i]? = some f → ∀ entry ∈ f.bindings, entry.2.InScope t.size

variable {t : Frames}

theorem WellScoped.size_pos (h : t.WellScoped) : 0 < t.size := by
  obtain ⟨f, hf, _⟩ := h.outermost
  exact (Array.getElem?_eq_some_iff.mp hf).1

@[simp]
theorem size_set (frame : Nat) (name : String) (value : Value) : (t.set frame name value).size = t.size :=
  Array.size_modify

@[simp]
theorem size_extend (outer : Nat) (pairs : List (String × Value)) :
    (t.extend outer pairs).2.size = t.size + 1 := Array.size_push _

theorem getElem?_set (frame : Nat) (name : String) (value : Value) (i : Nat) :
    (t.set frame name value).all[i]? =
      if frame = i then t.all[i]?.map fun f => { f with bindings := Assoc.insert name value f.bindings }
      else t.all[i]? := by
  rw [set, Array.getElem?_modify]

/-- Binding a name changes no way outwards. -/
theorem outer?_set (frame : Nat) (name : String) (value : Value) (i : Nat) :
    (t.set frame name value).outer? i = t.outer? i := by
  rw [outer?, outer?, getElem?_set]
  split
  · cases t.all[i]? <;> rfl
  · rfl

theorem bindings_set {frame : Nat} (hframe : frame < t.size) (name : String) (value : Value) :
    (t.set frame name value).bindings frame = Assoc.insert name value (t.bindings frame) := by
  have hsome : t.all[frame]? = some t.all[frame] := Array.getElem?_eq_getElem hframe
  rw [bindings, bindings, getElem?_set, if_pos rfl, hsome]
  rfl

theorem bindings_set_of_ne {frame i : Nat} (hne : frame ≠ i) (name : String) (value : Value) :
    (t.set frame name value).bindings i = t.bindings i := by
  rw [bindings, bindings, getElem?_set, if_neg hne]

theorem getElem?_extend (outer : Nat) (pairs : List (String × Value)) (i : Nat) :
    (t.extend outer pairs).2.all[i]? =
      if i = t.size then some ⟨Assoc.ofPairs pairs, some outer⟩ else t.all[i]? := by
  rw [extend, Array.getElem?_push]

theorem WellScoped.set (h : t.WellScoped) {frame : Nat} {name : String} {value : Value}
    (hvalue : value.InScope t.size) : (t.set frame name value).WellScoped := by
  have hold : ∀ (i : Nat) (f : Frame), (t.set frame name value).all[i]? = some f → ∃ g, t.all[i]? = some g ∧
      f.outer = g.outer ∧ ∀ entry ∈ f.bindings, entry = (name, value) ∨ entry ∈ g.bindings := by
    intro i f hf
    rw [getElem?_set] at hf
    split at hf
    · obtain ⟨g, hg, rfl⟩ := Option.map_eq_some_iff.mp hf
      exact ⟨g, hg, rfl, fun entry hentry => Assoc.mem_insert hentry⟩
    · exact ⟨f, hf, rfl, fun entry hentry => .inr hentry⟩
  refine ⟨?_, ?_, ?_⟩
  · obtain ⟨f, hf, houter⟩ := h.outermost
    rw [getElem?_set, hf]
    split
    · exact ⟨_, rfl, houter⟩
    · exact ⟨f, rfl, houter⟩
  · intro i f hf
    obtain ⟨g, hg, houter, _⟩ := hold _ f hf
    rw [houter]
    exact h.inner i g hg
  · intro i f hf entry hentry
    obtain ⟨g, hg, _, hbindings⟩ := hold i f hf
    rw [size_set]
    rcases hbindings entry hentry with rfl | hmem
    · exact hvalue
    · exact h.values i g hg entry hmem

theorem WellScoped.extend (h : t.WellScoped) {outer : Nat} {pairs : List (String × Value)}
    (houter : outer < t.size) (hpairs : ∀ pair ∈ pairs, pair.2.InScope t.size) :
    (t.extend outer pairs).2.WellScoped := by
  have hpos := h.size_pos
  refine ⟨?_, ?_, ?_⟩
  · obtain ⟨f, hf, hnone⟩ := h.outermost
    refine ⟨f, ?_, hnone⟩
    rw [getElem?_extend, if_neg (by omega), hf]
  · intro i f hf
    rw [getElem?_extend] at hf
    split at hf
    · cases hf
      exact ⟨outer, rfl, by omega⟩
    · exact h.inner i f hf
  · intro i f hf entry hentry
    rw [size_extend]
    rw [getElem?_extend] at hf
    split at hf
    · cases hf
      exact (hpairs entry (Assoc.mem_ofPairs hentry)).mono (Nat.le_succ _)
    · exact (h.values i f hf entry hentry).mono (Nat.le_succ _)

/-! ### The way outwards -/

theorem WellScoped.outer_lt (h : t.WellScoped) {frame outer : Nat} (houter : t.outer? frame = some outer) :
    outer < frame := by
  obtain ⟨f, hf, hfouter⟩ := Option.bind_eq_some_iff.mp houter
  cases frame with
  | zero =>
      obtain ⟨g, hg, hnone⟩ := h.outermost
      rw [hg] at hf
      cases hf
      rw [hnone] at hfouter
      cases hfouter
  | succ i =>
      obtain ⟨outer', houter', hle⟩ := h.inner i f hf
      rw [houter'] at hfouter
      cases hfouter
      omega

/-- Every frame was made under an older one. -/
def Descends (t : Frames) : Prop := ∀ frame outer : Nat, t.outer? frame = some outer → outer < frame

theorem WellScoped.descends (h : t.WellScoped) : t.Descends := fun _ _ => h.outer_lt

/-- The way outwards is the same however many steps are allowed, if only there are enough. -/
theorem Descends.chainWithin_eq (h : t.Descends) {steps frame : Nat} (hsteps : frame < steps) :
    t.chainWithin steps frame = t.chain frame := by
  have hsame : ∀ steps steps' frame : Nat, frame < steps → frame < steps' →
      t.chainWithin steps frame = t.chainWithin steps' frame := by
    intro steps
    induction steps with
    | zero => exact fun _ _ hlt _ => absurd hlt (Nat.not_lt_zero _)
    | succ steps ih =>
        intro steps' frame hlt hlt'
        cases steps' with
        | zero => omega
        | succ steps' =>
            cases houter : t.outer? frame with
            | none => simp [chainWithin, houter]
            | some outer =>
                have hless := h _ _ houter
                have htail := ih steps' outer (by omega) (by omega)
                simp [chainWithin, houter, htail]
  exact hsame _ _ frame hsteps (Nat.lt_succ_self frame)

/-- The way outwards goes on with the way from the frame around. -/
theorem Descends.chain_eq (h : t.Descends) {frame outer : Nat} (houter : t.outer? frame = some outer) :
    t.chain frame = frame :: t.chain outer := by
  rw [chain, chainWithin, houter]
  exact congrArg (frame :: ·) (h.chainWithin_eq (h _ _ houter))

theorem chain_of_outermost {frame : Nat} (h : t.outer? frame = none) : t.chain frame = [frame] := by
  rw [chain, chainWithin, h]

theorem WellScoped.mem_bindings (h : t.WellScoped) {frame : Nat} {entry : String × Value}
    (hentry : entry ∈ t.bindings frame) : entry.2.InScope t.size := by
  unfold bindings at hentry
  split at hentry
  · exact h.values frame _ ‹_› entry hentry
  · cases hentry

theorem WellScoped.get? (h : t.WellScoped) {frame : Nat} {name : String} {v : Value}
    (hv : t.get? frame name = some v) : v.InScope t.size := by
  obtain ⟨i, _, hi⟩ := List.exists_of_findSome?_eq_some hv
  exact h.mem_bindings (Assoc.mem_of_find? hi)

theorem WellScoped.getLast?_chainWithin (h : t.WellScoped) {steps frame : Nat} (hframe : frame < t.size)
    (hsteps : frame < steps) : (t.chainWithin steps frame).getLast? = some 0 := by
  induction steps generalizing frame with
  | zero => omega
  | succ steps ih =>
      obtain ⟨f, hf⟩ : ∃ f, t.all[frame]? = some f := ⟨_, Array.getElem?_eq_getElem hframe⟩
      cases frame with
      | zero =>
          obtain ⟨g, hg, hnone⟩ := h.outermost
          simp [chainWithin, outer?, hg, hnone]
      | succ i =>
          obtain ⟨outer, houter, hle⟩ := h.inner i f hf
          have hlast : (t.chainWithin steps outer).getLast? = some 0 := ih (by omega) (by omega)
          simp [chainWithin, outer?, hf, houter, List.getLast?_cons, hlast]

theorem WellScoped.chainWithin_eq (h : t.WellScoped) {steps frame : Nat} (hsteps : frame < steps) :
    t.chainWithin steps frame = t.chain frame := h.descends.chainWithin_eq hsteps

/-- Every way outwards ends at the one root. -/
theorem WellScoped.root_eq (h : t.WellScoped) {frame : Nat} (hframe : frame < t.size) : t.root frame = 0 := by
  have hlast := h.getLast?_chainWithin hframe (Nat.lt_succ_self frame)
  rw [Frames.root, chain, List.getLastD_eq_getLast?, hlast]
  rfl

/-- A name that is not the one bound stands for what it stood for. -/
theorem get?_set_of_ne {frame : Nat} {name other : String} {value : Value} (hne : name ≠ other) (start : Nat) :
    (t.set frame name value).get? start other = t.get? start other := by
  have houter : (t.set frame name value).outer? = t.outer? := funext (outer?_set frame name value)
  have hchain : ∀ steps i, (t.set frame name value).chainWithin steps i = t.chainWithin steps i := by
    intro steps
    induction steps with
    | zero => exact fun _ => rfl
    | succ steps ih =>
        intro i
        rw [chainWithin, chainWithin, houter]
        cases t.outer? i with
        | none => rfl
        | some outer => exact congrArg (i :: ·) (ih outer)
  have hfind : ∀ i, Assoc.find? other ((t.set frame name value).bindings i) =
      Assoc.find? other (t.bindings i) := by
    intro i
    rw [bindings, bindings, getElem?_set]
    by_cases hi : frame = i
    · rw [if_pos hi]
      cases t.all[i]? with
      | none => rfl
      | some f => exact (Assoc.find?_insert name other value f.bindings).trans (if_neg hne)
    · rw [if_neg hi]
  rw [get?, get?, chain, hchain, chain]
  simp only [hfind]

/-- A frame sees what it binds itself and otherwise what the frame around it sees. -/
theorem WellScoped.get?_inner (h : t.WellScoped) {frame outer : Nat}
    (houter : t.outer? frame = some outer) (name : String) :
    t.get? frame name = (Assoc.find? name (t.bindings frame)).or (t.get? outer name) := by
  rw [Frames.get?, h.descends.chain_eq houter, List.findSome?_cons, Frames.get?]
  cases Assoc.find? name (t.bindings frame) <;> rfl

section

variable (h : t.WellScoped) {outer : Nat} (houter : outer < t.size) {pairs : List (String × Value)}
  (hpairs : ∀ pair ∈ pairs, pair.2.InScope t.size)
include h houter hpairs

/-- What the frames that are there see does not change when a frame is made. -/
theorem WellScoped.get?_extend_of_lt {frame : Nat} (hframe : frame < t.size) (name : String) :
    (t.extend outer pairs).2.get? frame name = t.get? frame name := by
  induction frame using Nat.strongRecOn with
  | ind frame ih =>
      have hsame : (t.extend outer pairs).2.all[frame]? = t.all[frame]? := by
        rw [getElem?_extend, if_neg (Nat.ne_of_lt hframe)]
      have hbindings : (t.extend outer pairs).2.bindings frame = t.bindings frame := by
        rw [bindings, bindings, hsame]
      have hnext : (t.extend outer pairs).2.outer? frame = t.outer? frame := by rw [outer?, outer?, hsame]
      cases hround : t.outer? frame with
      | none =>
          rw [Frames.get?, Frames.get?, chain, chain, chainWithin, chainWithin, hnext, hround]
          simp only [hbindings, List.findSome?_cons, List.findSome?_nil]
      | some around =>
          have hlt := h.outer_lt hround
          rw [h.get?_inner hround, (h.extend houter hpairs).get?_inner (hnext.trans hround), hbindings,
            ih around hlt (Nat.lt_trans hlt hframe)]

/-- A new frame sees what it binds and otherwise what the frame around it sees. -/
theorem WellScoped.get?_extend (name : String) :
    (t.extend outer pairs).2.get? t.size name =
      (Assoc.find? name (Assoc.ofPairs pairs)).or (t.get? outer name) := by
  have hframe : (t.extend outer pairs).2.all[t.size]? = some ⟨Assoc.ofPairs pairs, some outer⟩ := by
    rw [getElem?_extend, if_pos rfl]
  have hnext : (t.extend outer pairs).2.outer? t.size = some outer := by
    rw [outer?, hframe]
    rfl
  rw [(h.extend houter hpairs).get?_inner hnext, h.get?_extend_of_lt houter hpairs houter, bindings, hframe]

end

/-- A new frame with one name sees everything else as the frame around it does. -/
theorem WellScoped.get?_extend_single (h : t.WellScoped) {outer : Nat} (houter : outer < t.size) {name : String}
    {value : Value} (hvalue : value.InScope t.size) (other : String) :
    (t.extend outer [(name, value)]).2.get? t.size other =
      if other = name then some value else t.get? outer other := by
  have hpairs : ∀ pair ∈ [(name, value)], pair.2.InScope t.size := fun pair hpair =>
    List.mem_singleton.mp hpair ▸ hvalue
  have hsingle : Assoc.ofPairs [(name, value)] = [(name, value)] := rfl
  rw [h.get?_extend houter hpairs, hsingle]
  by_cases hname : other = name
  · rw [if_pos hname, Assoc.find?, if_pos hname.symm]
    rfl
  · rw [if_neg hname, Assoc.find?, if_neg (Ne.symm hname)]
    rfl

end Frames

end SmallLisp
