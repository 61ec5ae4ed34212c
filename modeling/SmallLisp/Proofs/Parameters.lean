import SmallLisp.Proofs.Grammar
import SmallLisp.Proofs.Scope

/-! Parameters and arguments. A form describes parameters if it is a list or vector of symbols and the marker, where it
is among them, stands there once and as the last but one; no other form does. A closure takes one argument for each
of its fixed names, and any number of further ones if it has a name for them. A call with another number of arguments
makes no frame. The frame that a call makes is under the captured one and binds the names of the parameters and
nothing else, each to the argument in its last place. -/

namespace SmallLisp

open SmallLisp.Computation Frames

/-- A name that stands in no later pair is bound to the value that it is paired with. -/
theorem LastWins.find?_zip {names : List String} {values : List Value} {entries : List (String × Value)}
    (h : LastWins (names.zip values) entries) {i : Nat} {name : String} {v : Value} (hname : names[i]? = some name)
    (hv : values[i]? = some v) (hlater : ∀ j > i, names[j]? ≠ some name) : Assoc.find? name entries = some v := by
  have hpair : (names.zip values)[i]? = some (name, v) := List.getElem?_zip_eq_some.mpr ⟨hname, hv⟩
  obtain ⟨hi, hget⟩ := List.getElem?_eq_some_iff.mp hpair
  refine h.last ((names.zip values).take i) name v ((names.zip values).drop (i + 1)) ?_ fun hmem => ?_
  · rw [← hget, ← List.drop_eq_getElem_cons hi, List.take_append_drop]
  · obtain ⟨pair, hlate, rfl⟩ := List.mem_map.mp hmem
    obtain ⟨j, hj⟩ := List.mem_iff_getElem?.mp hlate
    rw [List.getElem?_drop] at hj
    exact hlater (i + 1 + j) (by omega) (List.getElem?_zip_eq_some.mp hj).1

namespace Params

/-! ### Describing parameters -/

/-- The marker is not among the names, or it is among them once, as the last but one. -/
def WellMarked (names : List String) : Prop :=
  restMarker ∉ names ∨ names.count restMarker = 1 ∧ ∃ front last, names = front ++ [restMarker, last]

/-- The parameters can be written down: the marker is no name among them. -/
def Proper (params : Params) : Prop := restMarker ∉ params.fixed ∧ params.rest ≠ some restMarker

/-- Parameters are described by the names that they are written with. -/
theorem ofNames_names {params : Params} (h : params.Proper) : ofNames params.names = .ok params := by
  obtain ⟨fixed, rest⟩ := params
  obtain ⟨hfixed, hrest⟩ := h
  have hplain : ∀ name ∈ fixed, decide (name ≠ restMarker) = true := fun name hname =>
    decide_eq_true fun h => hfixed (h ▸ hname)
  have htake (tail : List String) : (fixed ++ tail).takeWhile (· ≠ restMarker) =
      fixed ++ tail.takeWhile (· ≠ restMarker) := List.takeWhile_append_of_pos hplain
  have hdrop (tail : List String) : (fixed ++ tail).dropWhile (· ≠ restMarker) =
      tail.dropWhile (· ≠ restMarker) := List.dropWhile_append_of_pos hplain
  cases rest with
  | none =>
      have htake := htake []
      have hdrop := hdrop []
      simp only [List.append_nil, List.takeWhile_nil, List.dropWhile_nil] at htake hdrop
      simp only [ofNames, names, htake, hdrop]
  | some rest =>
      have hne : rest ≠ restMarker := fun h => hrest (congrArg some h)
      have hstop : ([restMarker, rest].takeWhile (· ≠ restMarker)) = [] ∧
          [restMarker, rest].dropWhile (· ≠ restMarker) = [restMarker, rest] := by simp
      have htake := htake [restMarker, rest]
      have hdrop := hdrop [restMarker, rest]
      rw [hstop.1, List.append_nil] at htake
      rw [hstop.2] at hdrop
      change ofNames (fixed ++ [restMarker, rest]) = _
      simp only [ofNames, htake, hdrop, if_neg hne]

/-- Names describe exactly the parameters that are written with these names. -/
theorem ofNames_eq_ok_iff {names : List String} {params : Params} :
    ofNames names = .ok params ↔ params.names = names ∧ params.Proper := by
  refine ⟨fun h => ?_, fun ⟨hnames, hproper⟩ => hnames ▸ ofNames_names hproper⟩
  have hsplit := List.takeWhile_append_dropWhile (p := (· ≠ restMarker)) (l := names)
  have hfixed : restMarker ∉ names.takeWhile (· ≠ restMarker) := fun hmem => by
    simpa using List.all_eq_true.mp (List.all_takeWhile (p := (· ≠ restMarker)) (l := names)) _ hmem
  unfold ofNames at h
  split at h
  · next hdrop =>
      cases h
      rw [hdrop, List.append_nil] at hsplit
      exact ⟨hsplit, hfixed, nofun⟩
  · next marker rest hdrop =>
      split at h
      · cases h
      · next hrest =>
          cases h
          have hmarker : marker = restMarker := by
            have hhead := List.head?_dropWhile_not (· ≠ restMarker) names
            rw [hdrop] at hhead
            simpa using hhead
          rw [hdrop, hmarker] at hsplit
          exact ⟨hsplit, hfixed, fun h => hrest (Option.some.inj h)⟩
  · cases h

/-- Names describe parameters exactly if they are well marked. -/
theorem exists_ofNames_iff {names : List String} : (∃ params, ofNames names = .ok params) ↔ WellMarked names := by
  constructor
  · rintro ⟨params, h⟩
    obtain ⟨rfl, hfixed, hrest⟩ := ofNames_eq_ok_iff.mp h
    obtain ⟨fixed, rest⟩ := params
    cases rest with
    | none => exact .inl hfixed
    | some rest =>
        have hne : rest ≠ restMarker := fun h => hrest (congrArg some h)
        refine .inr ⟨?_, fixed, rest, rfl⟩
        change (fixed ++ [restMarker, rest]).count restMarker = 1
        simp [List.count_eq_zero.mpr hfixed, hne]
  · rintro (hnone | ⟨hcount, front, last, rfl⟩)
    · exact ⟨⟨names, none⟩, ofNames_eq_ok_iff.mpr ⟨rfl, hnone, nofun⟩⟩
    · have honce : front.count restMarker = 0 ∧ last ≠ restMarker := by
        by_cases hlast : last = restMarker
        · simp [hlast] at hcount
        · simpa [hlast] using hcount
      refine ⟨⟨front, some last⟩, ofNames_eq_ok_iff.mpr ⟨rfl, List.count_eq_zero.mp honce.1, ?_⟩⟩
      exact fun h => honce.2 (Option.some.inj h)

theorem symbolNames?_eq_some_iff {items : List Value} {names : List String} :
    symbolNames? items = some names ↔ items = names.map .symbol := by
  constructor
  · intro h
    induction items generalizing names with
    | nil =>
        cases h
        rfl
    | cons item items ih =>
        rw [symbolNames?, List.mapM_cons] at h
        obtain ⟨name, hname, h⟩ := Option.bind_eq_some_iff.mp h
        obtain ⟨rest, hrest, h⟩ := Option.bind_eq_some_iff.mp h
        cases h
        rw [List.map_cons, ← ih hrest]
        cases item with
        | symbol s =>
            cases hname
            rfl
        | _ => cases hname
  · rintro rfl
    induction names with
    | nil => rfl
    | cons name names ih =>
        rw [symbolNames?] at ih ⊢
        rw [List.map_cons, List.mapM_cons, ih]
        rfl

/-- A form describes parameters that are written with the names of its symbols, in their order. -/
theorem ofForm_eq_ok_iff {form : Value} {params : Params} :
    ofForm form = .ok params ↔ form.elements? = some (params.names.map .symbol) ∧ params.Proper := by
  unfold ofForm
  cases helements : form.elements? with
  | none => exact ⟨nofun, fun h => nomatch h.1⟩
  | some items =>
      dsimp only
      cases hnames : symbolNames? items with
      | none =>
          refine ⟨nofun, fun ⟨hitems, _⟩ => ?_⟩
          rw [symbolNames?_eq_some_iff.mpr (Option.some.inj hitems)] at hnames
          cases hnames
      | some names =>
          rw [symbolNames?_eq_some_iff] at hnames
          dsimp only
          rw [ofNames_eq_ok_iff, hnames, Option.some.injEq,
            List.map_inj_right fun _ _ h => Value.symbol.inj h, eq_comm]

theorem exists_ofForm_iff {form : Value} :
    (∃ params, ofForm form = .ok params) ↔
      ∃ names, form.elements? = some (names.map .symbol) ∧ WellMarked names := by
  constructor
  · rintro ⟨params, h⟩
    obtain ⟨hform, hproper⟩ := ofForm_eq_ok_iff.mp h
    exact ⟨params.names, hform, exists_ofNames_iff.mp ⟨params, ofNames_eq_ok_iff.mpr ⟨rfl, hproper⟩⟩⟩
  · rintro ⟨names, hform, hmarked⟩
    obtain ⟨params, hparams⟩ := exists_ofNames_iff.mpr hmarked
    obtain ⟨rfl, hproper⟩ := ofNames_eq_ok_iff.mp hparams
    exact ⟨params, ofForm_eq_ok_iff.mpr ⟨hform, hproper⟩⟩

/-! ### Taking arguments -/

/-- The parameters take so many arguments. -/
def Takes (params : Params) (count : Nat) : Prop :=
  match params.rest with
  | none => count = params.fixed.length
  | some _ => params.fixed.length ≤ count

/-- The complaint about another number of arguments. -/
def miscounted (params : Params) (count : Nat) : Error :=
  match params.rest with
  | none => .argumentCount params.fixed.length count
  | some _ => .tooFewArguments params.fixed.length count

/-- The names of the parameters in their order, without the marker. -/
def bound (params : Params) : List String := params.fixed ++ params.rest.toList

/-- What the names stand for: the first arguments, and the list of the further ones for the last name. -/
def values (params : Params) (args : List Value) : List Value :=
  args.take params.fixed.length ++ params.rest.toList.map fun _ => .list (args.drop params.fixed.length)

variable {params : Params} {args : List Value}

theorem Takes.length_le {count : Nat} (h : params.Takes count) : params.fixed.length ≤ count := by
  unfold Takes at h
  split at h <;> omega

theorem length_values (h : params.Takes args.length) : (params.values args).length = params.bound.length := by
  simp [values, bound, h.length_le]

theorem assign_of_takes (h : params.Takes args.length) :
    params.assign args = .ok (params.bound.zip (params.values args)) := by
  obtain ⟨fixed, rest⟩ := params
  cases rest with
  | none =>
      have hcount : args.length = fixed.length := h
      simp [assign, bound, values, ← hcount]
  | some rest =>
      have hcount : fixed.length ≤ args.length := h
      have hlength : fixed.length = (args.take fixed.length).length := by simp [hcount]
      have hzip := @List.zip_append _ _ fixed [rest] (args.take fixed.length) [.list (args.drop fixed.length)] hlength
      simpa [assign, bound, values, Nat.not_lt.mpr hcount] using hzip.symm

theorem assign_of_not_takes (h : ¬params.Takes args.length) :
    params.assign args = .error (params.miscounted args.length) := by
  obtain ⟨fixed, rest⟩ := params
  cases rest with
  | none => exact if_neg h
  | some rest => exact if_pos (Nat.lt_of_not_le h)

/-! ### The frame of a call -/

/-- A name that no later fixed name repeats, nor the one for the rest, is bound to the argument in its place. -/
theorem find?_fixed {entries : List (String × Value)} (hwins : LastWins (params.bound.zip (params.values args)) entries)
    (hle : params.fixed.length ≤ args.length) {i : Nat} {name : String} (hname : params.fixed[i]? = some name)
    (hlater : ∀ j > i, params.fixed[j]? ≠ some name) (hrest : params.rest ≠ some name) :
    ∃ v, args[i]? = some v ∧ Assoc.find? name entries = some v := by
  obtain ⟨hi, -⟩ := List.getElem?_eq_some_iff.mp hname
  obtain ⟨v, hv⟩ : ∃ v, args[i]? = some v := ⟨_, List.getElem?_eq_getElem (Nat.lt_of_lt_of_le hi hle)⟩
  refine ⟨v, hv, hwins.find?_zip (i := i) ?_ ?_ fun j hj hother => ?_⟩
  · rw [bound, List.getElem?_append_left hi, hname]
  · rw [values, List.getElem?_append_left (by simp; omega), List.getElem?_take_of_lt hi, hv]
  · rw [bound] at hother
    by_cases hlt : j < params.fixed.length
    · exact hlater j hj (by rwa [List.getElem?_append_left hlt] at hother)
    · rw [List.getElem?_append_right (by omega)] at hother
      exact hrest (Option.mem_toList.mp (List.mem_of_getElem? hother))

/-- The name for the rest is bound to all arguments behind those of the fixed names. -/
theorem find?_rest {entries : List (String × Value)} (hwins : LastWins (params.bound.zip (params.values args)) entries)
    (hle : params.fixed.length ≤ args.length) {name : String} (hname : params.rest = some name) :
    Assoc.find? name entries = some (.list (args.drop params.fixed.length)) := by
  refine hwins.find?_zip (i := params.fixed.length) ?_ ?_ fun j hj hother => ?_
  · simp [bound, hname]
  · simp [values, hname, hle]
  · have hj := (List.getElem?_eq_some_iff.mp hother).1
    simp [bound, hname] at hj
    omega

theorem Takes.drop_eq_nil (h : params.Takes args.length) (hnone : params.rest = none) :
    args.drop params.fixed.length = [] := by
  unfold Takes at h
  rw [hnone] at h
  exact List.drop_eq_nil_of_le (Nat.le_of_eq h)

/-- The frames `t'` are the frames `t` and the frame of a call with these arguments. -/
structure Entered (params : Params) (captured : Nat) (args : List Value) (t t' : Frames) : Prop where
  size : t'.size = t.size + 1
  kept : ∀ i < t.size, t'.all[i]? = t.all[i]?
  outer : t'.outer? t.size = some captured
  /-- The frame binds the names of the parameters and no other, each of them once. -/
  keys : (t'.bindings t.size).map Prod.fst = params.bound.eraseDups
  /-- A name stands for the argument in the last place that it has among the fixed names. -/
  last : ∀ (i : Nat) (name : String), params.fixed[i]? = some name → (∀ j > i, params.fixed[j]? ≠ some name) →
    params.rest ≠ some name → ∃ v, args[i]? = some v ∧ Assoc.find? name (t'.bindings t.size) = some v
  /-- The name for the rest stands for the list of all arguments behind those of the fixed names. -/
  rest : ∀ name, params.rest = some name →
    Assoc.find? name (t'.bindings t.size) = some (.list (args.drop params.fixed.length))
  /-- Under distinct names, the arguments are bound in their order, and none is lost. -/
  distinct : params.bound.Nodup → ∃ given more, args = given ++ more ∧ given.length = params.fixed.length ∧
    (params.rest = none → more = []) ∧
      t'.bindings t.size = params.bound.zip (given ++ params.rest.toList.map fun _ => .list more)

theorem entered (h : params.Takes args.length) (captured : Nat) (t : Frames) :
    Entered params captured args t (t.extend captured (params.bound.zip (params.values args))).2 := by
  have hkeys : (params.bound.zip (params.values args)).map Prod.fst = params.bound :=
    List.map_fst_zip (Nat.le_of_eq (length_values h).symm)
  have hframe : (t.extend captured (params.bound.zip (params.values args))).2.all[t.size]? =
      some ⟨Assoc.ofPairs (params.bound.zip (params.values args)), some captured⟩ := by
    rw [getElem?_extend, if_pos rfl]
  have hbindings : (t.extend captured (params.bound.zip (params.values args))).2.bindings t.size =
      Assoc.ofPairs (params.bound.zip (params.values args)) := by rw [bindings, hframe]
  have hwins := LastWins.ofPairs (params.bound.zip (params.values args))
  rw [← hbindings] at hwins
  refine ⟨size_extend _ _, fun i hi => ?_, ?_, ?_, fun i name => find?_fixed hwins h.length_le,
    fun name => find?_rest hwins h.length_le, fun hnodup => ?_⟩
  · rw [getElem?_extend, if_neg (Nat.ne_of_lt hi)]
  · rw [outer?, hframe]
    rfl
  · rw [hwins.keys, hkeys]
  · refine ⟨args.take params.fixed.length, args.drop params.fixed.length, (List.take_append_drop _ _).symm,
      List.length_take_of_le h.length_le, h.drop_eq_nil, ?_⟩
    rw [hbindings, Assoc.ofPairs_of_nodup (hkeys.symm ▸ hnodup)]
    rfl

theorem enter_of_takes (h : params.Takes args.length) (captured : Nat) (t : Frames) :
    ∃ t', params.enter captured args t = .ok (t.size, t') ∧ Entered params captured args t t' := by
  refine ⟨_, ?_, entered h captured t⟩
  rw [enter, assign_of_takes h]
  rfl

theorem enter_of_not_takes (h : ¬params.Takes args.length) (captured : Nat) (t : Frames) :
    params.enter captured args t = .error (params.miscounted args.length) := by
  rw [enter, assign_of_not_takes h]
  rfl

end Params

/-! ### Closures -/

theorem makeClosure_apply (form body : Value) (frame : Nat) (ctx : Context) (m : Machine) :
    makeClosure form body frame ctx m = match Params.ofForm form with
      | .ok params => some (.ok (.closure m.stamps params body frame), { m with stamps := m.stamps + 1 })
      | .error fault => some (.error (.params fault), m) := by
  unfold makeClosure
  cases Params.ofForm form <;> rfl

/-- A call of a closure makes the frame for its body and changes nothing else, or it fails and changes nothing. -/
theorem applyStep_closure (nested : Nested) (stamp captured : Nat) (params : Params) (body : Value)
    (args : List Value) (caller : Nat) (ctx : Context) (m : Machine) :
    applyStep nested (.closure stamp params body captured) args caller ctx m =
      match params.enter captured args m.frames with
      | .ok (frame, frames) => some (.ok (.next body frame), { m with frames := frames })
      | .error e => some (.error e, m) := by
  have hassign : (ofExcept (params.assign args) : EvalM _) ctx m = some (params.assign args, m) :=
    ofExcept_apply ..
  simp only [applyStep, Params.enter]
  cases hpairs : params.assign args with
  | error e =>
      rw [hpairs] at hassign
      exact bind_of_error hassign
  | ok pairs =>
      rw [hpairs] at hassign
      exact (bind_of_ok hassign).trans rfl

/-- **Parameters and arguments.** A closure can be made with a form for its parameters exactly if the form is a list
or vector of symbols among which the marker does not occur, or occurs once and as the last but one. A closure that
was made so has the names of the form for its parameters, those in front of the marker as fixed names and the one
behind it for the rest, so that the marker is no parameter itself; it has the frame that it was made in, and a stamp
of its own. It takes as many arguments as it has fixed names, or any larger number if it has a name for the rest; a
call with these makes the one frame that `Entered` describes and goes on with the body there. Any other number of
arguments is an error that says so, and such a call changes nothing. -/
theorem makeClosure_calls (form body : Value) (frame : Nat) (ctx : Context) (m : Machine) :
    ((∃ v m', makeClosure form body frame ctx m = some (.ok v, m')) ↔
      ∃ names, form.elements? = some (names.map .symbol) ∧ Params.WellMarked names) ∧
    ((∀ v m', makeClosure form body frame ctx m ≠ some (.ok v, m')) →
      ∃ fault, makeClosure form body frame ctx m = some (.error (.params fault), m)) ∧
    ∀ v m', makeClosure form body frame ctx m = some (.ok v, m') →
      ∃ params, v = .closure m.stamps params body frame ∧ form.elements? = some (params.names.map .symbol) ∧
        params.Proper ∧ m' = { m with stamps := m.stamps + 1 } ∧
        ∀ (nested : Nested) (args : List Value) (caller : Nat) (ctx : Context) (n : Machine),
          (params.Takes args.length → ∃ frames, params.enter frame args n.frames = .ok (n.frames.size, frames) ∧
            applyStep nested v args caller ctx n =
              some (.ok (.next body n.frames.size), { n with frames := frames }) ∧
            Params.Entered params frame args n.frames frames) ∧
          (¬params.Takes args.length →
            params.enter frame args n.frames = .error (params.miscounted args.length) ∧
              applyStep nested v args caller ctx n = some (.error (params.miscounted args.length), n)) := by
  rw [makeClosure_apply, ← Params.exists_ofForm_iff]
  cases hform : Params.ofForm form with
  | error fault => exact ⟨⟨fun ⟨_, _, h⟩ => (nomatch h), fun ⟨_, h⟩ => (nomatch h)⟩, fun _ => ⟨fault, rfl⟩, nofun⟩
  | ok params =>
      refine ⟨⟨fun _ => ⟨params, rfl⟩, fun _ => ⟨_, _, rfl⟩⟩, fun hnone => absurd rfl (hnone _ _), fun v m' h => ?_⟩
      cases h
      obtain ⟨helements, hproper⟩ := Params.ofForm_eq_ok_iff.mp hform
      refine ⟨params, rfl, helements, hproper, rfl, fun nested args caller ctx n => ⟨?_, ?_⟩⟩
      · intro htakes
        obtain ⟨frames, henter, hentered⟩ := Params.enter_of_takes htakes frame n.frames
        refine ⟨frames, henter, ?_, hentered⟩
        rw [applyStep_closure, henter]
      · intro htakes
        have henter := Params.enter_of_not_takes htakes frame n.frames
        exact ⟨henter, by rw [applyStep_closure, henter]⟩

/-- A name that is given twice, the second time for the rest, stands for the rest; a call without arguments changes
nothing. -/
theorem makeClosure_calls_repeatedName :
    let ctx : Context := ⟨{}, fun _ => .error .notFound⟩
    let m : Machine := ⟨.single, "", 0⟩
    let fn : Value := .closure 0 ⟨["x"], some "x"⟩ (.symbol "x") 0
    makeClosure (.vector [.symbol "x", .symbol "&", .symbol "x"]) (.symbol "x") 0 ctx m =
        some (.ok fn, { m with stamps := 1 }) ∧
      (∃ frames, applyStep (fun _ => EvalM.outOfSteps) fn [.int 1, .int 2] 0 ctx m =
          some (.ok (.next (.symbol "x") 1), { m with frames := frames }) ∧
        Assoc.find? "x" (frames.bindings 1) = some (.list [.int 2])) ∧
      applyStep (fun _ => EvalM.outOfSteps) fn [] 0 ctx m = some (.error (.tooFewArguments 1 0), m) := by
  intro ctx m fn
  obtain ⟨-, -, hmade⟩ :=
    makeClosure_calls (.vector [.symbol "x", .symbol "&", .symbol "x"]) (.symbol "x") 0 ctx m
  obtain ⟨params, hfn, -, -, -, hcalls⟩ := hmade fn { m with stamps := 1 } rfl
  obtain ⟨-, rfl, -, -⟩ := Value.closure.inj hfn
  obtain ⟨frames, -, hstep, hentered⟩ :=
    (hcalls (fun _ => EvalM.outOfSteps) [.int 1, .int 2] 0 ctx m).1 (by decide : 1 ≤ 2)
  have hfew := (hcalls (fun _ => EvalM.outOfSteps) [] 0 ctx m).2 (by decide : ¬1 ≤ 0)
  exact ⟨rfl, ⟨frames, hstep, hentered.rest "x" rfl⟩, hfew.2⟩

end SmallLisp
