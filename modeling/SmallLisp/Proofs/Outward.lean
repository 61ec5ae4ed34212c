import SmallLisp.Proofs.Scope

/-! Ways outwards. Looking a name up goes from a frame to the one around it, and so on, until a frame binds the name
or there is no further frame. A search of this kind need not end, so it is said here as a relation that holds of the
searches that do. Where every frame was made under an older one, all of them end, and `find?` and `get?` give what
they end with. -/

namespace SmallLisp

/-- The search outwards from a frame ends with the nearest frame where there is something, and with what there is, or
with nothing behind the last frame. -/
inductive Outward {α : Type} (outer? : Nat → Option Nat) (here? : Nat → Option α) : Nat → Option (Nat × α) → Prop
  | found {frame : Nat} {a : α} : here? frame = some a → Outward outer? here? frame (some (frame, a))
  | further {frame outer : Nat} {found : Option (Nat × α)} : here? frame = none → outer? frame = some outer →
      Outward outer? here? outer found → Outward outer? here? frame found
  | nowhere {frame : Nat} : here? frame = none → outer? frame = none → Outward outer? here? frame none

namespace Outward

variable {α : Type} {outer? : Nat → Option Nat} {here? : Nat → Option α} {frame : Nat}

theorem unique {r r' : Option (Nat × α)} (h : Outward outer? here? frame r) (h' : Outward outer? here? frame r') :
    r = r' := by
  induction h with
  | found hhere =>
      cases h' with
      | found hhere' => rw [Option.some.inj (hhere.symm.trans hhere')]
      | further hnone => cases hhere.symm.trans hnone
      | nowhere hnone => cases hhere.symm.trans hnone
  | further hnone houter _ ih =>
      cases h' with
      | found hhere => cases hhere.symm.trans hnone
      | further _ houter' hrest =>
          cases houter.symm.trans houter'
          exact ih hrest
      | nowhere _ hlast => cases houter.symm.trans hlast
  | nowhere hnone hlast =>
      cases h' with
      | found hhere => cases hhere.symm.trans hnone
      | further _ houter => cases houter.symm.trans hlast
      | nowhere => rfl

end Outward

namespace Frames

variable {t : Frames}

/-- The search for a name. -/
abbrev Search (t : Frames) (name : String) : Nat → Option (Nat × Value) → Prop :=
  Outward t.outer? fun i => Assoc.find? name (t.bindings i)

/-- Every search for a name ends, with the frame that `find?` gives and the value that `get?` gives. -/
theorem Descends.exists_search (h : t.Descends) (name : String) (frame : Nat) :
    ∃ found, t.Search name frame found ∧ t.find? frame name = found.map Prod.fst ∧
      t.get? frame name = found.map Prod.snd := by
  induction frame using Nat.strongRecOn with
  | ind frame ih =>
      cases houter : t.outer? frame with
      | none =>
          rw [find?, get?, chain_of_outermost houter]
          cases hhere : Assoc.find? name (t.bindings frame) with
          | some v => exact ⟨some (frame, v), .found hhere, by simp [hhere], by simp [hhere]⟩
          | none => exact ⟨none, .nowhere hhere houter, by simp [hhere], by simp [hhere]⟩
      | some outer =>
          rw [find?, get?, h.chain_eq houter]
          cases hhere : Assoc.find? name (t.bindings frame) with
          | some v => exact ⟨some (frame, v), .found hhere, by simp [hhere], by simp [hhere]⟩
          | none =>
              obtain ⟨found, hrest, hfind, hget⟩ := ih outer (h _ _ houter)
              refine ⟨found, .further hhere houter hrest, ?_, ?_⟩
              · simpa [hhere, find?] using hfind
              · simpa [hhere, get?] using hget

/-- The way outwards from a frame ends, and the frame at its end has none around it. -/
inductive EndsAt (t : Frames) : Nat → Nat → Prop
  | here {frame : Nat} : t.outer? frame = none → EndsAt t frame frame
  | further {frame outer root : Nat} : t.outer? frame = some outer → EndsAt t outer root → EndsAt t frame root

/-- Where the frames are well scoped, every way outwards ends at the one root. -/
theorem WellScoped.endsAt (h : t.WellScoped) {frame : Nat} (hframe : frame < t.size) : t.EndsAt frame 0 := by
  induction frame using Nat.strongRecOn with
  | ind frame ih =>
      cases frame with
      | zero =>
          obtain ⟨f, hf, hnone⟩ := h.outermost
          refine .here ?_
          rw [outer?, hf]
          exact hnone
      | succ i =>
          obtain ⟨f, hf⟩ : ∃ f, t.all[i + 1]? = some f := ⟨_, Array.getElem?_eq_getElem hframe⟩
          obtain ⟨outer, houter, hle⟩ := h.inner i f hf
          have hnext : t.outer? (i + 1) = some outer := by
            rw [outer?, hf]
            exact houter
          exact .further hnext (ih outer (by omega) (by omega))

end Frames

end SmallLisp
