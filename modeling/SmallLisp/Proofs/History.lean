import SmallLisp.Proofs.Outward

/-! Histories of frames. Frames grow from one root by operations that make a frame, bind a name, bind several names to
as many values, or bind the entries of a mapping; an operation that fails has bound what came in front of the fault.
Read as a history, a list of operations says by itself which frames there are, what was stored in each and when.
Replayed, it gives frames that answer every lookup with what the history says: the value stored last under the name in
the nearest frame where one was ever stored. -/

namespace SmallLisp.Frames

/-- What can be done to frames. A name is a value here, because not every value is one. -/
inductive Operation
  | newChild (outer : Nat)
  | set (frame : Nat) (name value : Value)
  | bind (frame : Nat) (names values : List Value)
  | update (frame : Nat) (entries : List (Value × Value))

namespace Operation

/-- The frame that an operation is done to. -/
def frame : Operation → Nat
  | newChild outer => outer
  | set frame _ _ => frame
  | bind frame _ _ => frame
  | update frame _ => frame

/-- Does an operation. A fault leaves what was done in front of it. -/
def run (limits : Limits) (t : Frames) : Operation → Except Error Unit × Frames
  | newChild outer => (.ok (), (t.child outer).2)
  | set frame name value =>
    match nameOf limits name with
    | .ok name => (.ok (), t.set frame name value)
    | .error e => (.error e, t)
  | bind frame names values => t.bind limits frame names values
  | update frame entries => Frames.update limits frame entries t

end Operation

/-- The frames after operations on a single root, whether they fail or not. -/
def replay (limits : Limits) (ops : List Operation) : Frames :=
  ops.foldl (fun t op => (op.run limits t).2) .single

/-! ### What a history says -/

/-- A value that was stored in a frame under a name. -/
structure Stored where
  frame : Nat
  name : String
  value : Value

/-- The pairs in front of the first one with a first member that is no name. -/
def namedFront : List (Value × Value) → List (String × Value)
  | [] => []
  | (name, value) :: pairs =>
    match name.boundName? with
    | some name => (name, value) :: namedFront pairs
    | none => []

/-- What an operation stores. -/
def Operation.stores : Operation → List Stored
  | newChild _ => []
  | set frame name value => (namedFront [(name, value)]).map fun pair => ⟨frame, pair.1, pair.2⟩
  | bind frame names values =>
    if names.length = values.length then (namedFront (names.zip values)).map fun pair => ⟨frame, pair.1, pair.2⟩
    else []
  | update frame entries => (namedFront entries).map fun pair => ⟨frame, pair.1, pair.2⟩

/-- The value stored last in a frame under a name. -/
def lastOf (stored : List Stored) (frame : Nat) (name : String) : Option Value :=
  (stored.filter fun s => s.frame = frame ∧ s.name = name).getLast?.map Stored.value

/-- The frames under which the frames of a history were made, in the order in which that was done. -/
def outersOf (ops : List Operation) : List Nat :=
  ops.filterMap fun
    | .newChild outer => some outer
    | _ => none

/-- How many frames there are after a history. -/
def countAfter (ops : List Operation) : Nat := (outersOf ops).length + 1

/-- The frame that a frame of a history was made under. -/
def outerIn? (ops : List Operation) : Nat → Option Nat
  | 0 => none
  | frame + 1 => (outersOf ops)[frame]?

/-- The value stored last in a frame under a name, in the course of a history. -/
def lastIn? (ops : List Operation) (name : String) (frame : Nat) : Option Value :=
  lastOf (ops.flatMap Operation.stores) frame name

/-- Each operation of a history is done to a frame that there is by then. -/
inductive Grown : List Operation → Prop
  | root : Grown []
  | next {ops : List Operation} {op : Operation} : Grown ops → op.frame < countAfter ops → Grown (ops ++ [op])

/-! ### What an operation does -/

variable {t : Frames}

/-- The frames with a value stored. -/
def store (t : Frames) (s : Stored) : Frames := t.set s.frame s.name s.value

theorem nameOf_of_boundName? {limits : Limits} {v : Value} {name : String} (h : v.boundName? = some name) :
    nameOf limits v = .ok name := by
  rw [nameOf, h]

theorem exists_nameOf_error (limits : Limits) {v : Value} (h : v.boundName? = none) :
    ∃ e, nameOf limits v = .error e := by
  rw [nameOf, h]
  cases v.describe limits with
  | ok shown => exact ⟨.notName shown, rfl⟩
  | error limit => exact ⟨.overrun limit, rfl⟩

theorem update_snd (limits : Limits) (frame : Nat) (pairs : List (Value × Value)) :
    (Frames.update limits frame pairs t).2 =
      ((namedFront pairs).map fun pair => ⟨frame, pair.1, pair.2⟩).foldl store t := by
  induction pairs generalizing t with
  | nil => rfl
  | cons pair pairs ih =>
      obtain ⟨name, value⟩ := pair
      rw [Frames.update, namedFront]
      cases hname : name.boundName? with
      | some key =>
          rw [nameOf_of_boundName? hname]
          exact ih
      | none =>
          obtain ⟨e, he⟩ := exists_nameOf_error limits hname
          rw [he]
          rfl

/-- A pair without a name stops an update; the pairs in front of it are bound and those behind it are not. -/
theorem update_stopped (limits : Limits) (frame : Nat) {front : List (Value × Value)} {name value : Value} {e : Error}
    (hfront : ∀ pair ∈ front, pair.1.boundName?.isSome) (he : nameOf limits name = .error e)
    (rest : List (Value × Value)) :
    Frames.update limits frame (front ++ (name, value) :: rest) t =
      (.error e, (Frames.update limits frame front t).2) := by
  induction front generalizing t with
  | nil => simp only [List.nil_append, Frames.update, he]
  | cons pair front ih =>
      obtain ⟨key, hkey⟩ := Option.isSome_iff_exists.mp (hfront pair List.mem_cons_self)
      rw [List.cons_append, Frames.update, Frames.update, nameOf_of_boundName? hkey]
      exact ih fun pair hpair => hfront pair (List.mem_cons_of_mem _ hpair)

/-- An operation that makes no frame stores what the history says that it stores, and does nothing else. -/
theorem run_snd (limits : Limits) {op : Operation} (hop : ∀ outer, op ≠ .newChild outer) :
    (op.run limits t).2 = op.stores.foldl store t := by
  cases op with
  | newChild outer => exact absurd rfl (hop outer)
  | set frame name value =>
      rw [Operation.run, Operation.stores, ← update_snd limits, Frames.update]
      cases nameOf limits name <;> rfl
  | bind frame names values =>
      rw [Operation.run, Operation.stores, Frames.bind]
      split
      · exact update_snd ..
      · rfl
  | update frame entries => exact update_snd ..

theorem frame_of_mem_stores {op : Operation} {s : Stored} (h : s ∈ op.stores) : s.frame = op.frame := by
  cases op with
  | newChild outer => cases h
  | bind frame names values =>
      rw [Operation.stores] at h
      split at h
      · obtain ⟨pair, _, rfl⟩ := List.mem_map.mp h
        rfl
      · cases h
  | set frame name value | update frame entries =>
      obtain ⟨pair, _, rfl⟩ := List.mem_map.mp h
      rfl

theorem lastOf_append (before after : List Stored) (frame : Nat) (name : String) :
    lastOf (before ++ after) frame name = (lastOf after frame name).or (lastOf before frame name) := by
  rw [lastOf, lastOf, lastOf, List.filter_append, List.getLast?_append, Option.map_or]

theorem lastOf_cons (s : Stored) (stored : List Stored) (frame : Nat) (name : String) :
    lastOf (s :: stored) frame name =
      (lastOf stored frame name).or (if s.frame = frame ∧ s.name = name then some s.value else none) := by
  rw [← List.singleton_append, lastOf_append]
  congr 1
  by_cases h : s.frame = frame ∧ s.name = name <;> simp [lastOf, h]

/-- The name stands for the value in the frame. -/
theorem find?_store {s : Stored} (hs : s.frame < t.size) (name : String) (frame : Nat) :
    Assoc.find? name ((t.store s).bindings frame) =
      (if s.frame = frame ∧ s.name = name then some s.value else none).or (Assoc.find? name (t.bindings frame)) := by
  by_cases hframe : s.frame = frame
  · subst hframe
    rw [store, bindings_set hs, Assoc.find?_insert]
    by_cases hname : s.name = name <;> simp [hname]
  · rw [store, bindings_set_of_ne hframe, if_neg fun h => hframe h.1]
    rfl

/-- Storing changes neither the number of the frames nor their order. -/
theorem shape_foldl_store (stored : List Stored) :
    (stored.foldl store t).size = t.size ∧ ∀ i, (stored.foldl store t).outer? i = t.outer? i := by
  induction stored generalizing t with
  | nil => exact ⟨rfl, fun _ => rfl⟩
  | cons s stored ih =>
      obtain ⟨hsize, houter⟩ := @ih (t.store s)
      exact ⟨hsize.trans (size_set ..), fun i => (houter i).trans (outer?_set ..)⟩

theorem find?_foldl_store {stored : List Stored} (hstored : ∀ s ∈ stored, s.frame < t.size) (name : String)
    (frame : Nat) :
    Assoc.find? name ((stored.foldl store t).bindings frame) =
      (lastOf stored frame name).or (Assoc.find? name (t.bindings frame)) := by
  induction stored generalizing t with
  | nil => rfl
  | cons s stored ih =>
      have hsize : (t.store s).size = t.size := size_set ..
      have hrest : ∀ s' ∈ stored, s'.frame < (t.store s).size := fun s' h =>
        hsize ▸ hstored s' (List.mem_cons_of_mem _ h)
      rw [List.foldl_cons, ih hrest, find?_store (hstored s List.mem_cons_self), lastOf_cons, Option.or_assoc]

/-! ### Replayed histories -/

/-- The frames are those that the history speaks of, and hold what was stored last. -/
structure Follows (ops : List Operation) (t : Frames) : Prop where
  size : t.size = countAfter ops
  outer : ∀ i, t.outer? i = outerIn? ops i
  last : ∀ name i, Assoc.find? name (t.bindings i) = lastIn? ops name i

theorem follows_root : Follows [] .single where
  size := rfl
  outer i := by
    cases i <;> rfl
  last name i := by
    cases i <;> rfl

theorem replay_append (limits : Limits) (ops : List Operation) (op : Operation) :
    replay limits (ops ++ [op]) = (op.run limits (replay limits ops)).2 := by
  rw [replay, List.foldl_append]
  rfl

theorem outersOf_append (ops : List Operation) (op : Operation) :
    outersOf (ops ++ [op]) = outersOf ops ++ outersOf [op] := List.filterMap_append

theorem lastIn?_append (ops : List Operation) (op : Operation) (name : String) (frame : Nat) :
    lastIn? (ops ++ [op]) name frame = (lastOf op.stores frame name).or (lastIn? ops name frame) := by
  rw [lastIn?, List.flatMap_append, lastOf_append, List.flatMap_singleton]
  rfl

/-- A new frame is the last one, and nothing is stored in it yet. -/
theorem Follows.newChild {ops : List Operation} (h : Follows ops t) (outer : Nat) :
    Follows (ops ++ [.newChild outer]) (t.child outer).2 := by
  have houters : outersOf (ops ++ [.newChild outer]) = outersOf ops ++ [outer] := outersOf_append ..
  have hsize : t.size = (outersOf ops).length + 1 := h.size
  refine ⟨?_, fun i => ?_, fun name i => ?_⟩
  · rw [child, size_extend, h.size, countAfter, countAfter, houters, List.length_append]
    rfl
  · have hi := h.outer i
    rw [child, outer?, getElem?_extend]
    by_cases hnew : i = t.size
    · rw [if_pos hnew, hnew, hsize, outerIn?, houters, List.getElem?_concat_length]
      rfl
    · rw [if_neg hnew, ← outer?, hi]
      cases i with
      | zero => rfl
      | succ j =>
          have hne : j ≠ (outersOf ops).length := fun heq => hnew (by omega)
          rw [outerIn?, outerIn?, houters, List.getElem?_append]
          split
          · rfl
          · rw [List.getElem?_eq_none (by omega), List.getElem?_eq_none (by simp; omega)]
  · have hlast : lastIn? (ops ++ [.newChild outer]) name i = lastIn? ops name i := lastIn?_append ..
    rw [hlast, ← h.last, child, bindings, bindings, getElem?_extend]
    by_cases hnew : i = t.size
    · rw [if_pos hnew, hnew, Array.getElem?_eq_none (Nat.le_refl _)]
      rfl
    · rw [if_neg hnew]

theorem Follows.stored {ops : List Operation} (h : Follows ops t) {op : Operation}
    (hop : ∀ outer, op ≠ .newChild outer) (hframe : op.frame < countAfter ops) :
    Follows (ops ++ [op]) (op.stores.foldl store t) := by
  have houters : outersOf (ops ++ [op]) = outersOf ops := by
    cases op with
    | newChild outer => exact absurd rfl (hop outer)
    | _ => exact (outersOf_append ..).trans (List.append_nil _)
  obtain ⟨hsize, houter⟩ := @shape_foldl_store t op.stores
  refine ⟨?_, fun i => ?_, fun name i => ?_⟩
  · rw [hsize, h.size, countAfter, countAfter, houters]
  · rw [houter, h.outer]
    cases i with
    | zero => rfl
    | succ j => rw [outerIn?, outerIn?, houters]
  · have hstored : ∀ s ∈ op.stores, s.frame < t.size := fun s hs =>
      frame_of_mem_stores hs ▸ h.size ▸ hframe
    rw [find?_foldl_store hstored, h.last, lastIn?_append]

/-- Every step of a history keeps the frames in step with it. -/
theorem Grown.follows (limits : Limits) {ops : List Operation} (h : Grown ops) : Follows ops (replay limits ops) := by
  induction h with
  | root => exact follows_root
  | @next ops op _ hframe ih =>
      rw [replay_append]
      by_cases hchild : ∃ outer, op = .newChild outer
      · obtain ⟨outer, rfl⟩ := hchild
        exact ih.newChild outer
      · have hop : ∀ outer, op ≠ .newChild outer := fun outer heq => hchild ⟨outer, heq⟩
        rw [run_snd limits hop]
        exact ih.stored hop hframe

/-- Frames of a history are made under older ones. -/
theorem Grown.outer_lt {ops : List Operation} (h : Grown ops) (i outer : Nat) (houter : outerIn? ops i = some outer) :
    outer < i := by
  induction h with
  | root => cases i <;> cases houter
  | @next ops op _ hframe ih =>
      cases i with
      | zero => cases houter
      | succ j =>
          rw [outerIn?, outersOf_append, List.getElem?_append] at houter
          split at houter
          · exact ih houter
          · next hj =>
              -- the frame that is made last is made under one of those in front of it
              have hmem : outer ∈ outersOf [op] := List.mem_of_getElem? houter
              cases op with
              | newChild outer' =>
                  have heq : outer = outer' := List.mem_singleton.mp hmem
                  have hlt : outer' < (outersOf ops).length + 1 := hframe
                  omega
              | _ => cases hmem

/-! ### Lookups -/

/-- **Lookups follow the history.** After whatever operations, in whatever order, on whatever frames that there were by
then, a symbol and a text of one name stand for the same; the search for it, among what was stored last in the frame
itself, then in the frame that it was made under, and so on, ends with one frame and value, which are those that are
found and got, or with nothing, and then no frame is found and the name is unbound. Nothing is stored by a `bind` with
unequal numbers of names and values. A `bind` with equal numbers does what an update with the pairs does, and `set`
what an update with a single entry does; an update that comes to what is neither a symbol nor a text fails there, with
the frames that an update with the entries in front of it gives. -/
theorem replay_lookups (limits : Limits) {ops : List Operation} (hops : Grown ops) :
    (∀ frame name key, Value.boundName? name = some key → nameOf limits name = .ok key ∧
      ∃ found, (∀ other, Outward (outerIn? ops) (lastIn? ops key) frame other ↔ other = found) ∧
        (replay limits ops).find? frame key = found.map Prod.fst ∧
        (replay limits ops).get? frame key = found.map Prod.snd ∧
        ∀ ctx m, m.frames = replay limits ops →
          EvalM.lookup frame key ctx m = some ((found.map Prod.snd).elim (.error (.unbound key)) .ok, m)) ∧
    (∀ t frame names values, (Operation.bind frame names values).run limits t =
      if names.length = values.length then (Operation.update frame (names.zip values)).run limits t
      else (.error (.argumentCount names.length values.length), t)) ∧
    (∀ t frame name value,
      (Operation.set frame name value).run limits t = (Operation.update frame [(name, value)]).run limits t) ∧
    ∀ t frame front name value rest, (∀ pair ∈ front, pair.1.boundName?.isSome) → Value.boundName? name = none →
      ∃ e, nameOf limits name = .error e ∧
        (Operation.update frame (front ++ (name, value) :: rest)).run limits t =
          (.error e, ((Operation.update frame front).run limits t).2) := by
  have hfollows := hops.follows limits
  have houter : (replay limits ops).outer? = outerIn? ops := funext hfollows.outer
  have hdescends : (replay limits ops).Descends := fun i outer h => hops.outer_lt i outer (houter ▸ h)
  refine ⟨fun frame name key hname => ⟨nameOf_of_boundName? hname, ?_⟩, fun t frame names values => rfl,
    fun t frame name value => ?_, fun t frame front name value rest hfront hname => ?_⟩
  · obtain ⟨found, hsearch, hfind, hget⟩ := hdescends.exists_search key frame
    have hlast : (fun i => Assoc.find? key ((replay limits ops).bindings i)) = lastIn? ops key :=
      funext (hfollows.last key)
    rw [Search, houter, hlast] at hsearch
    refine ⟨found, fun other => ⟨fun h => h.unique hsearch, fun h => h ▸ hsearch⟩, hfind, hget, fun ctx m hm => ?_⟩
    rw [EvalM.lookup_apply, hm, hget]
  · cases hname : nameOf limits name with
    | ok key => simp only [Operation.run, Frames.update, hname]
    | error e => simp only [Operation.run, Frames.update, hname]
  · obtain ⟨e, he⟩ := exists_nameOf_error limits hname
    exact ⟨e, he, update_stopped limits frame hfront he rest⟩

/-- A frame is made before its outer one binds `x` and `y`, then binds `x` twice at once, and the outer one is updated
up to a number in place of a name. -/
def shadowingHistory : List Operation := [
  .newChild 0,
  .set 0 (.symbol "x") (.int 1),
  .bind 1 [.symbol "x", .text "x"] [.int 2, .int 3],
  .update 0 [(.text "x", .int 4), (.symbol "y", .int 5), (.int 6, .int 7), (.symbol "y", .int 8)]]

theorem grown_shadowingHistory : Grown shadowingHistory := by
  have hnil : Grown [] := .root
  exact (((hnil.next (by decide)).next (by decide)).next (by decide)).next (by decide)

/-- From the inner frame, `x` is the second value that was bound to it there, `y` is what the outer frame was given
later, and `z` is unbound. -/
theorem replay_lookups_shadowing :
    (replay {} shadowingHistory).find? 1 "x" = some 1 ∧ (replay {} shadowingHistory).get? 1 "x" = some (.int 3) ∧
      (replay {} shadowingHistory).find? 1 "y" = some 0 ∧ (replay {} shadowingHistory).get? 1 "y" = some (.int 5) ∧
      (replay {} shadowingHistory).find? 1 "z" = none := by
  obtain ⟨hlookups, -⟩ := replay_lookups {} grown_shadowingHistory
  obtain ⟨-, x, hx, hfindx, hgetx, -⟩ := hlookups 1 (.text "x") "x" rfl
  obtain ⟨-, y, hy, hfindy, hgety, -⟩ := hlookups 1 (.symbol "y") "y" rfl
  obtain ⟨-, z, hz, hfindz, -⟩ := hlookups 1 (.symbol "z") "z" rfl
  have hx' : some (1, .int 3) = x := (hx _).mp (.found rfl)
  have hy' : some (0, .int 5) = y := (hy _).mp (.further rfl rfl (.found rfl))
  have hz' : none = z := (hz _).mp (.further rfl rfl (.nowhere rfl rfl))
  subst hx' hy' hz'
  exact ⟨hfindx, hgetx, hfindy, hgety, hfindz⟩

end SmallLisp.Frames
