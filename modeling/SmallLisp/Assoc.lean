/-! Association lists that keep the order in which keys were first bound. Binding a key again changes its
value and not its place. Frames and hash maps are such lists. -/

namespace SmallLisp.Assoc

variable {α : Type}

/-- Binds a key: in place if it is bound already, else at the end. -/
def insert (key : String) (value : α) : List (String × α) → List (String × α)
  | [] => [(key, value)]
  | (k, v) :: entries => if k = key then (k, value) :: entries else (k, v) :: insert key value entries

/-- The value of a key. -/
def find? (key : String) : List (String × α) → Option α
  | [] => none
  | (k, v) :: entries => if k = key then some v else find? key entries

/-- The list that binds the given pairs from left to right. -/
def ofPairs (pairs : List (String × α)) : List (String × α) :=
  pairs.foldl (fun entries pair => insert pair.1 pair.2 entries) []

/-- Takes elements two by two; there is no such list if the last one stands alone. -/
def pairUp? {β : Type} : List β → Option (List (β × β))
  | [] => some []
  | [_] => none
  | a :: b :: rest => (pairUp? rest).map ((a, b) :: ·)

/-- A key that was just bound has its new value, and every other key the value it had. -/
theorem find?_insert (key other : String) (value : α) (entries : List (String × α)) :
    find? other (insert key value entries) = if key = other then some value else find? other entries := by
  induction entries with
  | nil => rfl
  | cons entry entries ih =>
      obtain ⟨k, v⟩ := entry
      by_cases h : k = key
      · subst h
        by_cases hk : k = other <;> simp [insert, find?, hk]
      · by_cases hk : k = other
        · subst hk
          simp [insert, find?, h, Ne.symm h]
        · simp [insert, find?, h, hk, ih]

theorem find?_map {β : Type} (f : α → β) (key : String) (entries : List (String × α)) :
    find? key (entries.map fun entry => (entry.1, f entry.2)) = (find? key entries).map f := by
  induction entries with
  | nil => rfl
  | cons entry entries ih =>
      obtain ⟨k, v⟩ := entry
      by_cases hk : k = key <;> simp [find?, hk, ih]

theorem insert_map {β : Type} (f : α → β) (key : String) (value : α) (entries : List (String × α)) :
    insert key (f value) (entries.map fun entry => (entry.1, f entry.2)) =
      (insert key value entries).map fun entry => (entry.1, f entry.2) := by
  induction entries with
  | nil => rfl
  | cons entry entries ih =>
      obtain ⟨k, v⟩ := entry
      by_cases hk : k = key <;> simp [insert, hk, ih]

theorem ofPairs_map {β : Type} (f : α → β) (pairs : List (String × α)) :
    ofPairs (pairs.map fun pair => (pair.1, f pair.2)) =
      (ofPairs pairs).map fun entry => (entry.1, f entry.2) := by
  have hfold : ∀ pairs bound : List (String × α),
      (pairs.map fun pair => (pair.1, f pair.2)).foldl (fun entries pair => insert pair.1 pair.2 entries)
          (bound.map fun entry => (entry.1, f entry.2)) =
        (pairs.foldl (fun entries pair => insert pair.1 pair.2 entries) bound).map
          fun entry => (entry.1, f entry.2) := by
    intro pairs
    induction pairs with
    | nil => exact fun bound => rfl
    | cons pair pairs ih =>
        intro bound
        rw [List.map_cons, List.foldl_cons, List.foldl_cons]
        dsimp only
        rw [insert_map, ih]
  exact hfold pairs []

theorem pairUp?_map {β γ : Type} (f : β → γ) (items : List β) :
    pairUp? (items.map f) = (pairUp? items).map (List.map (Prod.map f f)) := by
  induction items using pairUp?.induct with
  | case1 => rfl
  | case2 a => rfl
  | case3 a b rest ih =>
      simp only [List.map_cons, pairUp?, ih]
      cases pairUp? rest <;> rfl

theorem mem_of_find? {key : String} {value : α} {entries : List (String × α)}
    (h : find? key entries = some value) : (key, value) ∈ entries := by
  induction entries with
  | nil => cases h
  | cons entry entries ih =>
      obtain ⟨k, v⟩ := entry
      by_cases hk : k = key
      · subst hk
        simp only [find?, if_true] at h
        cases h
        exact List.mem_cons_self
      · simp only [find?, if_neg hk] at h
        exact List.mem_cons_of_mem _ (ih h)

theorem isSome_find? {key : String} {entries : List (String × α)} :
    (find? key entries).isSome = true ↔ key ∈ entries.map Prod.fst := by
  induction entries with
  | nil => simp [find?]
  | cons entry entries ih =>
      obtain ⟨k, v⟩ := entry
      by_cases hk : k = key
      · simp [find?, hk]
      · simp [find?, hk, Ne.symm hk, ih]

/-- Where no key is bound twice, a key has the value of every entry with this key. -/
theorem find?_of_mem {key : String} {value : α} {entries : List (String × α)}
    (hnodup : (entries.map Prod.fst).Nodup) (h : (key, value) ∈ entries) : find? key entries = some value := by
  induction entries with
  | nil => cases h
  | cons entry entries ih =>
      obtain ⟨k, v⟩ := entry
      obtain ⟨hfresh, hnodup⟩ := List.nodup_cons.mp hnodup
      rcases List.mem_cons.mp h with heq | h
      · cases heq
        exact if_pos rfl
      · have hne : k ≠ key := fun hk => hfresh (List.mem_map.mpr ⟨(key, value), h, hk.symm⟩)
        rw [find?, if_neg hne, ih hnodup h]

theorem mem_insert {key : String} {value : α} {entries : List (String × α)} {entry : String × α}
    (h : entry ∈ insert key value entries) : entry = (key, value) ∨ entry ∈ entries := by
  induction entries with
  | nil => exact .inl (List.mem_singleton.mp h)
  | cons head entries ih =>
      obtain ⟨k, v⟩ := head
      by_cases hk : k = key
      · subst hk
        simp only [insert, if_true, List.mem_cons] at h
        exact h.imp_right (List.mem_cons_of_mem _)
      · simp only [insert, if_neg hk, List.mem_cons] at h
        rcases h with rfl | h
        · exact .inr List.mem_cons_self
        · exact (ih h).imp_right (List.mem_cons_of_mem _)

/-- What is bound is among the pairs that were given. -/
theorem mem_ofPairs {pairs : List (String × α)} {entry : String × α} (h : entry ∈ ofPairs pairs) :
    entry ∈ pairs := by
  have hfold : ∀ (pairs bound : List (String × α)),
      entry ∈ pairs.foldl (fun entries pair => insert pair.1 pair.2 entries) bound →
        entry ∈ bound ∨ entry ∈ pairs := by
    intro pairs
    induction pairs with
    | nil => exact fun bound h => .inl h
    | cons pair pairs ih =>
        intro bound h
        rcases ih _ h with h | h
        · rcases mem_insert h with rfl | h
          · exact .inr List.mem_cons_self
          · exact .inl h
        · exact .inr (List.mem_cons_of_mem _ h)
  simpa using hfold pairs [] h

/-- Binding a key does not bind another one twice. -/
theorem nodup_keys_insert (key : String) (value : α) {entries : List (String × α)}
    (h : (entries.map Prod.fst).Nodup) : ((insert key value entries).map Prod.fst).Nodup := by
  induction entries with
  | nil => exact List.nodup_cons.mpr ⟨List.not_mem_nil, List.nodup_nil⟩
  | cons entry entries ih =>
      obtain ⟨k, v⟩ := entry
      obtain ⟨hfresh, hnodup⟩ := List.nodup_cons.mp h
      by_cases hk : k = key
      · simp only [insert, if_pos hk, List.map_cons]
        exact List.nodup_cons.mpr ⟨hfresh, hnodup⟩
      · simp only [insert, if_neg hk, List.map_cons]
        refine List.nodup_cons.mpr ⟨fun hmem => ?_, ih hnodup⟩
        obtain ⟨other, hother, hkey⟩ := List.mem_map.mp hmem
        rcases mem_insert hother with rfl | hother
        · exact hk hkey.symm
        · exact hfresh (List.mem_map.mpr ⟨other, hother, hkey⟩)

/-- However often a key is among the pairs, it is bound once. -/
theorem nodup_keys_ofPairs (pairs : List (String × α)) : ((ofPairs pairs).map Prod.fst).Nodup := by
  have hfold : ∀ (pairs bound : List (String × α)), (bound.map Prod.fst).Nodup →
      ((pairs.foldl (fun entries pair => insert pair.1 pair.2 entries) bound).map Prod.fst).Nodup := by
    intro pairs
    induction pairs with
    | nil => exact fun bound h => h
    | cons pair pairs ih => exact fun bound h => ih _ (nodup_keys_insert pair.1 pair.2 h)
  exact hfold pairs [] List.nodup_nil

/-- Elements are taken two by two exactly if the pairs, one after the other, are these elements. -/
theorem pairUp?_eq_some_iff {β : Type} {items : List β} {pairs : List (β × β)} :
    pairUp? items = some pairs ↔ items = pairs.flatMap fun pair => [pair.1, pair.2] := by
  constructor
  · intro h
    induction items using pairUp?.induct generalizing pairs with
    | case1 =>
        cases h
        rfl
    | case2 a => cases h
    | case3 a b rest ih =>
        obtain ⟨tail, htail, rfl⟩ := Option.map_eq_some_iff.mp h
        rw [ih htail]
        rfl
  · rintro rfl
    induction pairs with
    | nil => rfl
    | cons pair pairs ih => simp [pairUp?, ih]

/-- Both members of a pair are among the elements that were paired up. -/
theorem mem_pairUp? {β : Type} {items : List β} {pairs : List (β × β)} (h : pairUp? items = some pairs) :
    ∀ pair ∈ pairs, pair.1 ∈ items ∧ pair.2 ∈ items := by
  rw [pairUp?_eq_some_iff.mp h]
  intro pair hpair
  constructor <;> exact List.mem_flatMap.mpr ⟨pair, hpair, by simp⟩

/-- Binding a key leaves the keys in front as they are. -/
theorem keys_insert (key : String) (value : α) (entries : List (String × α)) :
    entries.map Prod.fst <+: (insert key value entries).map Prod.fst := by
  induction entries with
  | nil => exact List.nil_prefix
  | cons entry entries ih =>
      obtain ⟨k, v⟩ := entry
      by_cases hk : k = key
      · simp only [insert, if_pos hk, List.map_cons]
        exact List.prefix_refl _
      · simp only [insert, if_neg hk, List.map_cons]
        exact List.cons_prefix_cons.mpr ⟨rfl, ih⟩

theorem insert_of_not_mem {key : String} (value : α) {entries : List (String × α)}
    (h : key ∉ entries.map Prod.fst) : insert key value entries = entries ++ [(key, value)] := by
  induction entries with
  | nil => rfl
  | cons entry entries ih =>
      obtain ⟨k, v⟩ := entry
      have hne : k ≠ key := fun hk => h (hk ▸ List.mem_cons_self)
      have hrest := ih fun hmem => h (List.mem_cons_of_mem _ hmem)
      rw [insert, if_neg hne, hrest, List.cons_append]

/-- Pairs without a double key are bound as they stand. -/
theorem ofPairs_of_nodup {pairs : List (String × α)} (h : (pairs.map Prod.fst).Nodup) :
    ofPairs pairs = pairs := by
  have hfold : ∀ pairs bound : List (String × α), ((bound ++ pairs).map Prod.fst).Nodup →
      pairs.foldl (fun entries pair => insert pair.1 pair.2 entries) bound = bound ++ pairs := by
    intro pairs
    induction pairs with
    | nil => exact fun bound _ => (List.append_nil bound).symm
    | cons pair pairs ih =>
        intro bound hnodup
        have hfresh : pair.1 ∉ bound.map Prod.fst := by
          rw [List.map_append, List.map_cons, List.nodup_append] at hnodup
          exact fun hmem => hnodup.2.2 _ hmem _ List.mem_cons_self rfl
        rw [List.foldl_cons, insert_of_not_mem pair.2 hfresh, ih _ (by simpa using hnodup)]
        simp
  exact hfold pairs [] h

end SmallLisp.Assoc
