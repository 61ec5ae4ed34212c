import Mathlib.Data.List.Perm.Subperm
import SmallLisp.Proofs.Shape
import SmallLisp.Eval.Primitive

/-! Equality as identity of contents. The content of a value is what is left of it when a vector counts as a list, a
map as a mapping without any order of its keys, and a function as nothing but itself. Values are equal exactly if
their contents are the same, so equality is an equivalence. -/

namespace SmallLisp

/-- What equality sees of a value. -/
inductive Value.Content
  | nil
  | bool (b : Bool)
  | int (n : Int)
  | symbol (name : String)
  | text (s : String)
  | sequence (items : List Content)
  | mapping (get? : String → Option Content)
  | closure (stamp : Nat)
  | builtin (b : Builtin)

namespace Value

/-- The content of a value. -/
def content : Value → Content
  | nil => .nil
  | bool b => .bool b
  | int n => .int n
  | symbol name => .symbol name
  | text s => .text s
  | list items => .sequence (items.map fun v => v.content)
  | vector items => .sequence (items.map fun v => v.content)
  | map entries => .mapping fun key => Assoc.find? key (entries.map fun entry => (entry.1, entry.2.content))
  | closure stamp _ _ _ => .closure stamp
  | builtin b => .builtin b
decreasing_by
  · decreasing_tactic
  · decreasing_tactic
  · next hentry =>
      have hlt := List.sizeOf_lt_of_mem hentry
      cases entry
      simp only [Prod.mk.sizeOf_spec] at hlt
      simp only [Value.map.sizeOf_spec]
      omega

theorem content_of_elements {v : Value} {items : List Value} (h : v.elements? = some items) :
    v.content = .sequence (items.map content) := by
  cases v <;> cases h <;> rw [content]

/-- The contents of the elements, if it is a list or vector. -/
def Content.items? : Content → Option (List Content)
  | .sequence items => some items
  | _ => none

theorem items?_content (v : Value) : v.content.items? = v.elements?.map (List.map content) := by
  cases v <;> rw [content] <;> rfl

/-- A map is taken as the mapping from its keys to the contents of their values. -/
theorem content_map (entries : List (String × Value)) :
    (map entries).content = .mapping fun key => (Assoc.find? key entries).map content := by
  rw [content]
  simp only [Assoc.find?_map]

/-! ### Comparing parts from left to right -/

/-- If each part is judged rightly, all of them are. -/
theorem allM_iff {ε γ : Type} {f : γ → Except ε Bool} {P : γ → Prop} {cs : List γ} {r : Bool}
    (hf : ∀ c ∈ cs, ∀ r, f c = .ok r → (r = true ↔ P c)) (h : cs.allM f = .ok r) : r = true ↔ ∀ c ∈ cs, P c := by
  induction cs with
  | nil =>
      cases h
      exact iff_of_true rfl nofun
  | cons c cs ih =>
      obtain ⟨hc, hcs⟩ := List.forall_mem_cons.mp hf
      rw [List.allM] at h
      rw [List.forall_mem_cons]
      cases hpassed : f c with
      | error e =>
          rw [hpassed] at h
          cases h
      | ok passed =>
          rw [hpassed] at h
          have hc := hc passed hpassed
          cases passed with
          | false =>
              cases h
              exact iff_of_false Bool.false_ne_true fun hall => Bool.false_ne_true (hc.mpr hall.1)
          | true => exact (ih hcs h).trans (and_iff_right (hc.mp rfl)).symm

theorem exists_allM {ε γ : Type} {f : γ → Except ε Bool} {cs : List γ} (h : ∀ c ∈ cs, ∃ r, f c = .ok r) :
    ∃ r, cs.allM f = .ok r := by
  induction cs with
  | nil => exact ⟨true, rfl⟩
  | cons c cs ih =>
      obtain ⟨hc, hcs⟩ := List.forall_mem_cons.mp h
      obtain ⟨passed, hc⟩ := hc
      rw [List.allM, hc]
      cases passed with
      | false => exact ⟨false, rfl⟩
      | true => exact ih hcs

theorem forall_mem_zip_iff {α β : Type} {f : α → β} {xs ys : List α} (hlength : xs.length = ys.length) :
    (∀ pair ∈ xs.zip ys, f pair.1 = f pair.2) ↔ xs.map f = ys.map f := by
  induction xs generalizing ys with
  | nil => simp [List.eq_nil_of_length_eq_zero hlength.symm]
  | cons x xs ih =>
      cases ys with
      | nil => cases hlength
      | cons y ys =>
          rw [List.zip_cons_cons, List.forall_mem_cons, ih (Nat.succ.inj hlength), List.map_cons, List.map_cons,
            List.cons.injEq]

/-! ### Maps -/

section
variable {xs ys : List (String × Value)} (hxs : (xs.map Prod.fst).Nodup) (hys : (ys.map Prod.fst).Nodup)
include hxs hys

/-- Maps have the same keys exactly if each key is bound in both or in neither. -/
theorem sameKeys_iff : sameKeys xs ys = true ↔
    ∀ key, (Assoc.find? key xs).isSome = true ↔ (Assoc.find? key ys).isSome = true := by
  have hkeys : sameKeys xs ys = true ↔ (xs.map Prod.fst).length = (ys.map Prod.fst).length ∧
      xs.map Prod.fst ⊆ ys.map Prod.fst := by
    simp only [sameKeys, Bool.and_eq_true, beq_iff_eq, List.length_map, List.all_eq_true, Assoc.isSome_find?,
      List.subset_def, List.forall_mem_map]
  simp only [hkeys, Assoc.isSome_find?]
  constructor
  · rintro ⟨hlength, hsubset⟩ key
    exact ((List.subperm_of_subset hxs hsubset).perm_of_length_le (Nat.le_of_eq hlength.symm)).mem_iff
  · intro h
    exact ⟨((List.perm_ext_iff_of_nodup hxs hys).mpr h).length_eq, fun key hkey => (h key).mp hkey⟩

/-- Maps are the same mapping exactly if they have the same keys and the one has every entry of the other. -/
theorem content_map_eq_iff : (map xs).content = (map ys).content ↔
    sameKeys xs ys = true ∧ ∀ entry ∈ xs, (Assoc.find? entry.1 ys).map content = some entry.2.content := by
  rw [content_map, content_map, Content.mapping.injEq, funext_iff, sameKeys_iff hxs hys]
  constructor
  · intro h
    refine ⟨fun key => ?_, fun entry hentry => ?_⟩
    · have hkey := congrArg Option.isSome (h key)
      rw [Option.isSome_map, Option.isSome_map] at hkey
      rw [hkey]
    · rw [← h entry.1, Assoc.find?_of_mem hxs hentry, Option.map_some]
  · rintro ⟨hkeys, hentries⟩ key
    cases hx : Assoc.find? key xs with
    | some x => exact (hentries (key, x) (Assoc.mem_of_find? hx)).symm
    | none =>
        have hy : Assoc.find? key ys = none := by
          rw [← Option.not_isSome_iff_eq_none, ← hkeys key, hx]
          exact Bool.false_ne_true
        rw [hy]

end

/-! ### What a comparison says -/

/-- If the values of maps are judged rightly, the maps are. -/
theorem equalWithin_map_iff_content {room : Nat} {xs ys : List (String × Value)} {r : Bool} (hxs : (map xs).Keyed)
    (hys : (map ys).Keyed)
    (ih : ∀ {x y : Value} {s : Bool}, x.Keyed → y.Keyed → equalWithin room x y = .ok s →
      (s = true ↔ x.content = y.content))
    (h : equalWithin (room + 1) (map xs) (map ys) = .ok r) : r = true ↔ (map xs).content = (map ys).content := by
  simp only [equalWithin, elements?] at h
  cases hxs with
  | map hkeysx hx =>
  cases hys with
  | map hkeysy hy =>
  rw [content_map_eq_iff hkeysx hkeysy]
  split at h
  · next hkeys =>
      rw [and_iff_right hkeys]
      refine allM_iff (fun entry hentry s hs => ?_) h
      cases hfound : Assoc.find? entry.1 ys with
      | none =>
          simp only [hfound] at hs
          cases hs
          exact iff_of_false Bool.false_ne_true nofun
      | some y =>
          simp only [hfound] at hs
          rw [Option.map_some, Option.some.injEq, eq_comm (a := y.content)]
          exact ih (hx entry hentry) (hy (entry.1, y) (Assoc.mem_of_find? hfound)) hs
  · next hkeys =>
      cases h
      exact iff_of_false Bool.false_ne_true fun h => hkeys h.1

/-- Whatever answer a comparison gives, it is right. -/
theorem equalWithin_iff_content {room : Nat} {a b : Value} {r : Bool} (ha : a.Keyed) (hb : b.Keyed)
    (h : equalWithin room a b = .ok r) : r = true ↔ a.content = b.content := by
  induction room generalizing a b r with
  | zero => cases h
  | succ room ih =>
      unfold equalWithin at h
      split at h
      · next xs ys hxs hys =>
          rw [content_of_elements hxs, content_of_elements hys, Content.sequence.injEq]
          split at h
          · next hlength =>
              rw [← forall_mem_zip_iff hlength]
              refine allM_iff (fun pair hpair s hs => ?_) h
              obtain ⟨hx, hy⟩ := List.of_mem_zip hpair
              exact ih (ha.elements hxs _ hx) (hb.elements hys _ hy) hs
          · next hlength =>
              cases h
              exact iff_of_false Bool.false_ne_true fun h => hlength (by simpa using congrArg List.length h)
      · next hxs hys =>
          cases a with
          | list | vector => cases hxs
          | map xs =>
              cases b with
              | map ys => exact equalWithin_map_iff_content ha hb ih h
              | list | vector => cases hys
              | _ =>
                  cases h
                  simp [content]
          | _ =>
              cases b with
              | list | vector => cases hys
              | _ =>
                  cases h
                  simp [content]
      · next hsome hnone =>
          cases h
          refine iff_of_false Bool.false_ne_true fun hcontent => ?_
          have hitems := congrArg Content.items? hcontent
          rw [items?_content, items?_content] at hitems
          cases hxs : a.elements? <;> cases hys : b.elements? <;> simp_all

/-- Values are compared to the end if one of them nests less deep than there is room. -/
theorem exists_equalWithin {room : Nat} {a b : Value} (h : a.NestsWithin room ∨ b.NestsWithin room) :
    ∃ r, equalWithin room a b = .ok r := by
  induction room generalizing a b with
  | zero => cases h <;> contradiction
  | succ room ih =>
      unfold equalWithin
      split
      · next xs ys hxs hys =>
          split
          · refine exists_allM fun pair hpair => ih ?_
            obtain ⟨hx, hy⟩ := List.of_mem_zip hpair
            exact h.imp (·.elements hxs _ hx) (·.elements hys _ hy)
          · exact ⟨false, rfl⟩
      · split
        case h_8 xs ys _ _ =>
          split
          · refine exists_allM fun entry hentry => ?_
            dsimp only
            cases hfound : Assoc.find? entry.1 ys with
            | none => exact ⟨false, rfl⟩
            | some y => exact ih (h.imp (· entry hentry) (· (entry.1, y) (Assoc.mem_of_find? hfound)))
          · exact ⟨false, rfl⟩
        all_goals exact ⟨_, rfl⟩
      · exact ⟨false, rfl⟩

/-- A value that can be compared: its maps are maps, and it nests less deep than the limit. -/
structure Comparable (limits : Limits) (v : Value) : Prop where
  keyed : v.Keyed
  nests : v.NestsWithin limits.nesting

/-- **Structural equality.** Equality of two values is answered if one of them nests less deep than the limit, and an
answer, whenever there is one, is yes exactly if the values have the same content; the function of the language gives
this answer. So on values below the limit, equality is an equivalence. -/
theorem equal_iff_content (ctx : Context) :
    (∀ a b : Value, a.NestsWithin ctx.limits.nesting ∨ b.NestsWithin ctx.limits.nesting →
      ∃ r, a.equal ctx.limits b = .ok r) ∧
    (∀ (a b : Value) (r : Bool), a.Keyed → b.Keyed → a.equal ctx.limits b = .ok r →
      (r = true ↔ a.content = b.content) ∧ Primitive.run ctx .equal [a, b] = .ok (.bool r)) ∧
    Equivalence fun a b : {v : Value // v.Comparable ctx.limits} => a.1.equal ctx.limits b.1 = .ok true := by
  have hright (a b : {v : Value // v.Comparable ctx.limits}) :
      a.1.equal ctx.limits b.1 = .ok true ↔ a.1.content = b.1.content := by
    obtain ⟨r, hr⟩ : ∃ r, a.1.equal ctx.limits b.1 = .ok r := exists_equalWithin (.inl a.2.nests)
    rw [← equalWithin_iff_content a.2.keyed b.2.keyed hr, hr, Except.ok.injEq]
  refine ⟨fun a b => exists_equalWithin, fun a b r ha hb h => ⟨equalWithin_iff_content ha hb h, ?_⟩, ?_⟩
  · rw [Primitive.run, h]
    rfl
  · simp only [hright]
    exact ⟨fun a => rfl, Eq.symm, Eq.trans⟩

/-- Neither the kind of a sequence nor the order of a map counts, at any depth; an integer is no truth value. -/
theorem equal_iff_content_mixed :
    let ctx : Context := ⟨{}, fun _ => .error .notFound⟩
    let a := map [("a", vector [int 1, list []]), ("b", nil)]
    let b := map [("b", nil), ("a", list [int 1, vector []])]
    a.content = b.content ∧ Primitive.run ctx .equal [a, b] = .ok (.bool true) ∧
      (list [bool true]).content ≠ (vector [int 1]).content := by
  intro ctx a b
  obtain ⟨-, hright, -⟩ := equal_iff_content ctx
  have ha : a.Keyed := by simp [a, Keyed.nil, Keyed.int]
  have hb : b.Keyed := by simp [b, Keyed.nil, Keyed.int]
  have htrue : (list [bool true]).Keyed := by simp [Keyed.bool]
  have hone : (vector [int 1]).Keyed := by simp [Keyed.int]
  obtain ⟨hsame, hrun⟩ := hright a b true ha hb rfl
  obtain ⟨hdiffer, -⟩ := hright (list [bool true]) (vector [int 1]) false htrue hone rfl
  exact ⟨hsame.mp rfl, hrun, fun h => Bool.false_ne_true (hdiffer.mpr h)⟩

end Value

end SmallLisp
