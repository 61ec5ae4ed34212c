import SmallLisp.Proofs.Answer

/-! The shape of values. Entries are a map only as long as no key has two of them, and values are finite: each of them
nests less deep than some number of levels. -/

namespace SmallLisp.Value

/-- No map in the value binds a key twice. -/
inductive Keyed : Value → Prop
  | nil : Keyed .nil
  | bool (b : Bool) : Keyed (.bool b)
  | int (n : Int) : Keyed (.int n)
  | symbol (name : String) : Keyed (.symbol name)
  | text (s : String) : Keyed (.text s)
  | list {items : List Value} : (∀ v ∈ items, Keyed v) → Keyed (.list items)
  | vector {items : List Value} : (∀ v ∈ items, Keyed v) → Keyed (.vector items)
  | map {entries : List (String × Value)} : (entries.map Prod.fst).Nodup → (∀ entry ∈ entries, Keyed entry.2) →
      Keyed (.map entries)
  | closure {stamp : Nat} {params : Params} {body : Value} {frame : Nat} : Keyed body →
      Keyed (.closure stamp params body frame)
  | builtin (b : Builtin) : Keyed (.builtin b)

/-- The value nests less than `room` levels deep. -/
def NestsWithin : Nat → Value → Prop
  | 0, _ => False
  | room + 1, list items => ∀ v ∈ items, v.NestsWithin room
  | room + 1, vector items => ∀ v ∈ items, v.NestsWithin room
  | room + 1, map entries => ∀ entry ∈ entries, entry.2.NestsWithin room
  | _ + 1, _ => True

variable {room : Nat}

theorem hereditary_keyed : Hereditary Keyed :=
  ⟨.nil, .bool, .int, .symbol, .text, .list, .vector, .map⟩

@[simp]
theorem keyed_list {items : List Value} : (list items).Keyed ↔ ∀ v ∈ items, v.Keyed := ⟨fun | .list h => h, .list⟩

@[simp]
theorem keyed_vector {items : List Value} : (vector items).Keyed ↔ ∀ v ∈ items, v.Keyed :=
  ⟨fun | .vector h => h, .vector⟩

@[simp]
theorem keyed_map {entries : List (String × Value)} :
    (map entries).Keyed ↔ (entries.map Prod.fst).Nodup ∧ ∀ entry ∈ entries, entry.2.Keyed :=
  ⟨fun | .map hkeys h => ⟨hkeys, h⟩, fun h => .map h.1 h.2⟩

theorem Keyed.elements {v : Value} {items : List Value} (h : v.Keyed) (hitems : v.elements? = some items) :
    ∀ item ∈ items, item.Keyed := by
  cases h with
  | list h | vector h =>
      cases hitems
      exact h
  | _ => cases hitems

theorem NestsWithin.elements {v : Value} {items : List Value} (h : v.NestsWithin (room + 1))
    (hitems : v.elements? = some items) : ∀ item ∈ items, item.NestsWithin room := by
  cases v <;> cases hitems <;> exact h

/-- Every form that is read has maps for its map literals, whatever keys they repeat. -/
theorem keyed_of_readFirst {limits : Limits} {source : String} {v : Value}
    (h : readFirst limits source = .ok (some v)) : v.Keyed := by
  have hread := bears_readFirst hereditary_keyed limits source
  rw [h] at hread
  exact hread v rfl

/-- Every answer of a primitive function has maps for maps if the arguments do. -/
theorem keyed_of_run {ctx : Context} {p : Primitive} {args : List Value} {v : Value} (hargs : ∀ w ∈ args, w.Keyed)
    (h : p.run ctx args = .ok v) : v.Keyed := by
  have hrun := p.bears_run hereditary_keyed ctx hargs
  rw [h] at hrun
  exact hrun

end SmallLisp.Value
