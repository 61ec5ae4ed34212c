import SmallLisp.Proofs.Answer

/-! Renumbering. Frames and closures have numbers only so that they can be told apart. A renumbering gives frames
and closures other numbers; values, errors and tasks are renumbered by renumbering the closures in them. Nothing
that a primitive function does with values depends on the numbers: it prints, compares and answers the same. -/

namespace SmallLisp

/-- Other numbers for frames and other stamps for closures. The root keeps its number, and no frame gets a lower
one. -/
structure Renumbering where
  frame : Nat → Nat
  stamp : Nat → Nat
  frame_inj : ∀ {i j : Nat}, frame i = frame j → i = j
  stamp_inj : ∀ {i j : Nat}, stamp i = stamp j → i = j
  frame_zero : frame 0 = 0
  le_frame : ∀ i, i ≤ frame i

/-- The numbers as they are. -/
def Renumbering.same : Renumbering := ⟨id, id, id, id, rfl, Nat.le_refl⟩

/-- All frames from a positive number on have a number that is higher by one. -/
def Renumbering.skip (k : Nat) (hk : 0 < k) : Renumbering where
  frame i := if i < k then i else i + 1
  stamp := id
  frame_inj {i j} h := by
    split at h <;> split at h <;> omega
  stamp_inj := id
  frame_zero := if_pos hk
  le_frame i := by split <;> omega

variable (ρ : Renumbering)

/-- The value with all closures in it renumbered. -/
def Value.rename : Value → Value
  | .list items => .list (items.map fun v => v.rename)
  | .vector items => .vector (items.map fun v => v.rename)
  | .map entries => .map (entries.map fun entry => (entry.1, entry.2.rename))
  | .closure stamp params body frame => .closure (ρ.stamp stamp) params body.rename (ρ.frame frame)
  | v => v
decreasing_by
  · decreasing_tactic
  · decreasing_tactic
  · next hentry =>
      have hlt := List.sizeOf_lt_of_mem hentry
      cases entry
      simp only [Prod.mk.sizeOf_spec] at hlt
      simp only [Value.map.sizeOf_spec]
      omega
  · decreasing_tactic

/-- An error with the value that it carries renumbered. -/
def Error.rename : Error → Error
  | .thrown v => .thrown (v.rename ρ)
  | e => e

/-- A result over renumbered values: an error is renumbered itself, a value by a function of its own. -/
def renameResult {α β : Type} (f : α → β) : Except Error α → Except Error β
  | .ok a => .ok (f a)
  | .error e => .error (e.rename ρ)

namespace Value

variable {ρ}

@[simp]
theorem rename_list (items : List Value) : (list items).rename ρ = .list (items.map (rename ρ)) := by
  rw [rename]

@[simp]
theorem rename_vector (items : List Value) : (vector items).rename ρ = .vector (items.map (rename ρ)) := by
  rw [rename]

@[simp]
theorem rename_map (entries : List (String × Value)) :
    (map entries).rename ρ = .map (entries.map fun entry => (entry.1, entry.2.rename ρ)) := by
  rw [rename]

@[simp]
theorem rename_closure (stamp frame : Nat) (params : Params) (body : Value) :
    (closure stamp params body frame).rename ρ =
      .closure (ρ.stamp stamp) params (body.rename ρ) (ρ.frame frame) := by
  rw [rename]

@[simp] theorem rename_nil : rename ρ nil = nil := by rw [rename] <;> simp

@[simp] theorem rename_bool (b : Bool) : rename ρ (bool b) = bool b := by rw [rename] <;> simp

@[simp] theorem rename_int (n : Int) : rename ρ (int n) = int n := by rw [rename] <;> simp

@[simp] theorem rename_symbol (name : String) : rename ρ (symbol name) = symbol name := by rw [rename] <;> simp

@[simp] theorem rename_text (s : String) : rename ρ (text s) = text s := by rw [rename] <;> simp

@[simp] theorem rename_builtin (b : Builtin) : rename ρ (builtin b) = builtin b := by rw [rename] <;> simp

/-- A value is as it was if its closures keep their numbers. -/
theorem InScope.rename_eq {v : Value} {size : Nat} (h : v.InScope size)
    (hsame : ∀ stamp frame, frame < size → ρ.stamp stamp = stamp ∧ ρ.frame frame = frame) :
    v.rename ρ = v := by
  induction h with
  | list _ ih => rw [rename_list, List.map_congr_left ih, List.map_id']
  | vector _ ih => rw [rename_vector, List.map_congr_left ih, List.map_id']
  | map _ ih =>
      have hentry : ∀ entry ∈ _, (entry.1, rename ρ entry.2) = entry := fun entry hmem => by rw [ih entry hmem]
      rw [rename_map, List.map_congr_left hentry, List.map_id']
  | @closure stamp _ _ _ hlt _ ih => rw [rename_closure, ih, (hsame stamp _ hlt).1, (hsame stamp _ hlt).2]
  | _ => simp

/-- A value without closures is as it was. -/
theorem InScope.rename_closed {v : Value} (h : v.InScope 0) : v.rename ρ = v :=
  h.rename_eq fun _ _ hlt => absurd hlt (Nat.not_lt_zero _)

/-! ### What does not depend on numbers -/

@[simp]
theorem elements?_rename (v : Value) : (v.rename ρ).elements? = v.elements?.map (List.map (rename ρ)) := by
  cases v <;> simp [elements?]

@[simp]
theorem isTruthy_rename (v : Value) : (v.rename ρ).isTruthy = v.isTruthy := by
  cases v <;> simp [isTruthy]

@[simp]
theorem passes_rename (question : Test) (v : Value) : (v.rename ρ).passes question = v.passes question := by
  cases question <;> cases v <;> simp [passes]

@[simp]
theorem size?_rename (v : Value) : (v.rename ρ).size? = v.size? := by
  cases v <;> simp [size?]

@[simp]
theorem specialForm?_rename (v : Value) : (v.rename ρ).specialForm? = v.specialForm? := by
  cases v <;> simp [specialForm?]

@[simp]
theorem printWithin_rename (digits : Nat) (style : PrintStyle) (room : Nat) (v : Value) :
    printWithin digits style room (v.rename ρ) = printWithin digits style room v := by
  induction room generalizing v with
  | zero => rfl
  | succ room ih => cases v <;> simp [printWithin, ih, Function.comp_def]

@[simp]
theorem print_rename (limits : Limits) (style : PrintStyle) (v : Value) :
    (v.rename ρ).print limits style = v.print limits style := printWithin_rename ..

@[simp]
theorem printAll_rename (limits : Limits) (style : PrintStyle) (separator : String) (vs : List Value) :
    printAll limits style separator (vs.map (rename ρ)) = printAll limits style separator vs := by
  simp [printAll, Function.comp_def]

theorem describeWithin_rename (limits : Limits) (room : Nat) (v : Value) :
    describeWithin limits room (v.rename ρ) = describeWithin limits room v := by
  induction room generalizing v with
  | zero => rfl
  | succ room ih => cases v <;> simp [describeWithin, ih, Function.comp_def, closureText]

@[simp]
theorem describe_rename (limits : Limits) (v : Value) : (v.rename ρ).describe limits = v.describe limits :=
  describeWithin_rename ..

theorem allM_map {α β : Type} (f : α → β) (p : β → Except Overrun Bool) (as : List α) :
    (as.map f).allM p = as.allM fun a => p (f a) := by
  induction as with
  | nil => rfl
  | cons a as ih => rw [List.map_cons, List.allM, List.allM, ih]

theorem sameKeys_rename (a b : List (String × Value)) :
    sameKeys (a.map fun entry => (entry.1, entry.2.rename ρ)) (b.map fun entry => (entry.1, entry.2.rename ρ)) =
      sameKeys a b := by
  simp [sameKeys, Assoc.find?_map, Function.comp_def]

theorem equalWithin_rename (room : Nat) (a b : Value) :
    equalWithin room (a.rename ρ) (b.rename ρ) = equalWithin room a b := by
  induction room generalizing a b with
  | zero => rfl
  | succ room ih =>
      have hstamp : ∀ i j, (ρ.stamp i == ρ.stamp j) = (i == j) := by
        intro i j
        have hiff : ρ.stamp i = ρ.stamp j ↔ i = j := ⟨ρ.stamp_inj, congrArg ρ.stamp⟩
        rw [Bool.eq_iff_iff, beq_iff_eq, beq_iff_eq, hiff]
      unfold equalWithin
      simp only [elements?_rename]
      cases a.elements? with
      | some xs =>
          cases b.elements? with
          | some ys => simp [List.zip_map, allM_map, Prod.map, ih]
          | none => rfl
      | none =>
          cases b.elements? with
          | some ys => rfl
          | none =>
              simp only [Option.map_none]
              cases a with
              | map xs =>
                  cases b with
                  | map ys =>
                      simp only [rename_map, sameKeys_rename, allM_map, Assoc.find?_map]
                      congr 2
                      funext entry
                      cases Assoc.find? entry.1 ys <;> simp [ih]
                  | _ => simp
              | _ => cases b <;> simp [hstamp]

@[simp]
theorem equal_rename (limits : Limits) (a b : Value) :
    (a.rename ρ).equal limits (b.rename ρ) = a.equal limits b := equalWithin_rename ..

@[simp]
theorem integers?_rename (args : List Value) : integers? (args.map (rename ρ)) = integers? args := by
  rw [integers?, List.mapM_map]
  congr 1
  funext v
  cases v <;> simp

end Value

/-! ### Results -/

variable {ρ}

@[simp]
theorem renameResult_ok {α β : Type} (f : α → β) (a : α) :
    renameResult ρ f (Except.ok a) = .ok (f a) := rfl

@[simp]
theorem renameResult_pure {α β : Type} (f : α → β) (a : α) :
    renameResult ρ f (pure a : Except Error α) = pure (f a) := rfl

@[simp]
theorem renameResult_error {α β : Type} (f : α → β) (e : Error) :
    renameResult ρ f (Except.error e : Except Error α) = .error (e.rename ρ) := rfl

theorem renameResult_bind {α β γ δ : Type} {f : α → β} {g : γ → δ} (r : Except Error α)
    {h : α → Except Error γ} {h' : β → Except Error δ} (hh : ∀ a, h' (f a) = renameResult ρ g (h a)) :
    renameResult ρ f r >>= h' = renameResult ρ g (r >>= h) := by
  cases r with
  | ok a => exact hh a
  | error e => rfl

theorem Error.InScope.rename_closed {e : Error} (h : e.InScope 0) : e.rename ρ = e := by
  cases e with
  | thrown v => exact congrArg Error.thrown (Value.InScope.rename_closed h)
  | _ => rfl

/-- A result without closures is as it was. -/
theorem Safe.rename_closed {α : Type} {good : α → Prop} {r : Except Error α} (h : Safe 0 good r) {f : α → α}
    (hf : ∀ a, good a → f a = a) : renameResult ρ f r = r := by
  cases r with
  | ok a => exact congrArg Except.ok (hf a h)
  | error e => exact congrArg Except.error (Error.InScope.rename_closed h)

/-- A result without closures may be what others go on from. -/
theorem Safe.renameResult_bind {α γ δ : Type} {good : α → Prop} {g : γ → δ} {r : Except Error α}
    (hr : Safe 0 good r) {h : α → Except Error γ} {h' : α → Except Error δ}
    (hh : ∀ a, h' a = renameResult ρ g (h a)) : r >>= h' = renameResult ρ g (r >>= h) := by
  have hsame : renameResult ρ (fun a => a) r = r := hr.rename_closed fun _ _ => rfl
  rw [← SmallLisp.renameResult_bind r hh, hsame]

theorem renameResult_mapM {α β γ δ : Type} {f : γ → δ} {g : α → β} {h : γ → Except Error α}
    {h' : δ → Except Error β} (hh : ∀ c, h' (f c) = renameResult ρ g (h c)) (cs : List γ) :
    (cs.map f).mapM h' = renameResult ρ (List.map g) (cs.mapM h) := by
  induction cs with
  | nil => rfl
  | cons c cs ih =>
      rw [List.map_cons, List.mapM_cons, List.mapM_cons, hh, ih]
      exact renameResult_bind _ fun a => renameResult_bind _ fun as => rfl

theorem Params.ofForm_rename (form : Value) : ofForm (form.rename ρ) = ofForm form := by
  have hnames : ∀ items : List Value, symbolNames? (items.map (Value.rename ρ)) = symbolNames? items := by
    intro items
    rw [symbolNames?, List.mapM_map]
    congr 1
    funext v
    cases v <;> simp
  rw [ofForm, ofForm, Value.elements?_rename]
  cases form.elements? with
  | none => rfl
  | some items => simp only [Option.map_some, hnames]

theorem Params.assign_rename (params : Params) (args : List Value) :
    params.assign (args.map (Value.rename ρ)) =
      renameResult ρ (List.map fun pair => (pair.1, pair.2.rename ρ)) (params.assign args) := by
  simp only [assign, List.length_map]
  cases params.rest with
  | none =>
      simp only
      split
      · simp [List.zip_map_right]
      · rfl
  | some rest =>
      simp only
      split
      · rfl
      · simp [← List.map_take, List.zip_map_right]

theorem Primitive.integers_rename (p : Primitive) (args : List Value) :
    p.integers (args.map (Value.rename ρ)) = p.integers args := by
  rw [integers, integers, Value.integers?_rename]

theorem Arith.run_rename (op : Arith) (args : List Value) : op.run (args.map (Value.rename ρ)) = op.run args := by
  have hintegers : Primitive.integers (.arith op) (args.map (Value.rename ρ)) =
      Primitive.integers (.arith op) args := Primitive.integers_rename ..
  cases op with
  | add => rw [run, hintegers, run]
  | mul => rw [run, hintegers, run]
  | sub =>
      cases args with
      | nil => rfl
      | cons first rest =>
          simp only [List.map_cons] at hintegers ⊢
          rw [run, hintegers, run]
  | div =>
      rcases args with _ | ⟨first, _ | ⟨second, rest⟩⟩
      · rfl
      · rfl
      · simp only [List.map_cons] at hintegers ⊢
        rw [run, hintegers, run]

theorem Value.ofKeysAndValues_rename (args : List Value) :
    ofKeysAndValues (args.map (rename ρ)) = renameResult ρ (rename ρ) (ofKeysAndValues args) := by
  rw [ofKeysAndValues, ofKeysAndValues, Assoc.pairUp?_map]
  cases Assoc.pairUp? args with
  | none => simp [Primitive.miscounted, Error.rename]
  | some pairs =>
      dsimp only [Option.map_some]
      rw [renameResult_mapM (fun pair => ?_)]
      · refine renameResult_bind _ fun entries => ?_
        rw [Assoc.ofPairs_map (rename ρ) entries]
        simp
      · -- the check of an entry asks for a text as the key, and a text does not change
        obtain ⟨key, v⟩ := pair
        cases key <;> simp [Error.rename]

theorem firstForm_rename (ctx : Context) (source : String) :
    renameResult ρ (Value.rename ρ) (firstForm ctx source) = firstForm ctx source :=
  (safe_firstForm ctx 0 source).rename_closed fun _ hv => hv.rename_closed

/-- The answer of a primitive to renumbered arguments is its answer renumbered. -/
theorem Primitive.run_rename (ctx : Context) (p : Primitive) (args : List Value) :
    p.run ctx (args.map (Value.rename ρ)) = renameResult ρ (Value.rename ρ) (p.run ctx args) := by
  cases p with
  | arith op =>
      rw [run, run, Arith.run_rename]
      exact (Arith.safe_run 0 op args).renameResult_bind fun n => by simp
  | order op =>
      rcases args with _ | ⟨a, _ | ⟨b, _ | ⟨c, rest⟩⟩⟩
      · rfl
      · rfl
      · have hintegers : (order op).integers [a.rename ρ, b.rename ρ] = (order op).integers [a, b] :=
          integers_rename _ [a, b]
        simp only [List.map_cons, List.map_nil]
        rw [run, run, hintegers]
        refine (safe_integers 0 _ _).renameResult_bind fun ns => ?_
        split <;> simp
      · simp [run, miscounted, Error.rename]
  | test question =>
      rcases args with _ | ⟨v, _ | ⟨w, rest⟩⟩
      · rfl
      · simp [run]
      · simp [run, miscounted, Error.rename]
  | equal =>
      rcases args with _ | ⟨a, _ | ⟨b, _ | ⟨c, rest⟩⟩⟩
      · rfl
      · rfl
      · simp only [List.map_cons, List.map_nil, run, Value.equal_rename]
        exact (Safe.withinLimits _).renameResult_bind fun n => by simp
      · simp [run, miscounted, Error.rename]
  | list => simp [run]
  | vector => simp [run]
  | hashMap => exact Value.ofKeysAndValues_rename args
  | isEmpty =>
      rcases args with _ | ⟨v, _ | ⟨w, rest⟩⟩
      · rfl
      · simp only [List.map_cons, List.map_nil, run, Value.size?_rename]
        cases v.size? <;> simp [Error.rename]
      · simp [run, miscounted, Error.rename]
  | count =>
      rcases args with _ | ⟨v, _ | ⟨w, rest⟩⟩
      · rfl
      · simp only [List.map_cons, List.map_nil, run, Value.size?_rename]
        cases v.size? <;> simp [Error.rename]
      · simp [run, miscounted, Error.rename]
  | keyword =>
      rcases args with _ | ⟨v, _ | ⟨w, rest⟩⟩
      · rfl
      · cases v <;> simp [run, Error.rename]
      · simp [run, miscounted, Error.rename]
  | prStr =>
      rw [run, run, Value.printAll_rename]
      exact (Safe.withinLimits _).renameResult_bind fun s => by simp
  | str =>
      rw [run, run, Value.printAll_rename]
      exact (Safe.withinLimits _).renameResult_bind fun s => by simp
  | readString =>
      rcases args with _ | ⟨v, _ | ⟨w, rest⟩⟩
      · rfl
      · cases v with
        | text source =>
            simp only [List.map_cons, List.map_nil, Value.rename_text, run]
            split
            · rfl
            · exact (firstForm_rename ctx source).symm
        | _ => simp [run, Error.rename]
      · simp [run, miscounted, Error.rename]
  | slurp =>
      rcases args with _ | ⟨v, _ | ⟨w, rest⟩⟩
      · rfl
      · cases v with
        | text path =>
            simp only [List.map_cons, List.map_nil, Value.rename_text, run]
            split
            · rfl
            · exact (safe_fileText ctx 0 path).renameResult_bind fun s => by simp
        | _ => simp [run, Error.rename]
      · simp [run, miscounted, Error.rename]
  | throw =>
      rcases args with _ | ⟨v, _ | ⟨w, rest⟩⟩
      · rfl
      · rfl
      · simp [run, miscounted, Error.rename]

end SmallLisp
