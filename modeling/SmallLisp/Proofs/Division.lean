import Mathlib.Algebra.BigOperators.Ring.List
import Mathlib.Algebra.Ring.Int.Defs
import SmallLisp.Proofs.Application

/-! Division. The function `/` divides by one integer after the other, and rounds toward zero each time: it divides
absolute values and then gives the sign back. Rounding at every step comes to the same as rounding once, so dividing
by several integers is dividing by their product. -/

namespace SmallLisp

open EvalM SmallLisp.Computation

/-! ### The quotient of two integers -/

/-- Dividing the first integer by the second one gives this quotient: what remains is smaller than the divisor, and
it is zero or has the sign of the dividend. -/
def HasQuotient (n d q : Int) : Prop :=
  ∃ r, n = q * d + r ∧ r.natAbs < d.natAbs ∧ (r = 0 ∨ r.sign = n.sign)

section

variable {n d q : Int}

theorem quotient_eq_tdiv (n d : Int) : quotient n d = n.tdiv d := by
  have hsize : ((n.natAbs / d.natAbs : Nat) : Int) = (n.tdiv d).natAbs := by
    rw [Int.natAbs_tdiv]
    rfl
  unfold quotient
  simp only [hsize]
  split
  · next hsigns =>
      apply Int.natAbs_of_nonneg
      by_cases hn : 0 ≤ n
      · exact Int.tdiv_nonneg hn (Int.le_of_lt (hsigns.mp hn))
      · rw [← Int.neg_tdiv_neg]
        exact Int.tdiv_nonneg (by omega) (by omega)
  · next hsigns =>
      have hnonpos : 0 ≤ -n.tdiv d := by
        by_cases hn : 0 ≤ n
        · rw [← Int.tdiv_neg]
          exact Int.tdiv_nonneg hn (by omega)
        · rw [← Int.neg_tdiv]
          exact Int.tdiv_nonneg (by omega) (by omega)
      omega

/-- There is exactly one such quotient. -/
theorem hasQuotient_iff (hd : d ≠ 0) : HasQuotient n d q ↔ q = n.tdiv d := by
  constructor
  · rintro ⟨r, hn, hsmall, hsign⟩
    have hdivision : r + d * q = n := by rw [hn, Int.mul_comm, Int.add_comm]
    have hr : 0 ≤ r.sign ↔ 0 ≤ r := Int.sign_nonneg_iff
    have hr' : r.sign ≤ 0 ↔ r ≤ 0 := Int.sign_nonpos_iff
    rcases Int.le_total 0 n with hle | hle
    · have hnsign : 0 ≤ n.sign := Int.sign_nonneg_iff.mpr hle
      exact ((Int.tdiv_tmod_unique hle hd).mpr ⟨hdivision, by omega, by omega⟩).1.symm
    · have hnsign : n.sign ≤ 0 := Int.sign_nonpos_iff.mpr hle
      exact ((Int.tdiv_tmod_unique' hle hd).mpr ⟨hdivision, by omega, by omega⟩).1.symm
  · rintro rfl
    refine ⟨n.tmod d, (Int.tdiv_mul_add_tmod n d).symm, ?_, ?_⟩
    · rw [Int.natAbs_tmod]
      exact Nat.mod_lt _ (Int.natAbs_pos.mpr hd)
    · by_cases hdvd : d ∣ n
      · exact .inl (Int.tmod_eq_zero_of_dvd hdvd)
      · exact .inr ((Int.sign_tmod n d).trans (if_neg hdvd))

/-- Rounding twice is rounding once: the absolute values are divided by one another without regard to signs. -/
theorem tdiv_tdiv (n d e : Int) : (n.tdiv d).tdiv e = n.tdiv (d * e) := by
  have hnat : ∀ a b c : Nat, ((a : Int).tdiv b).tdiv c = (a : Int).tdiv (b * c) := by
    intro a b c
    rw [← Int.ofNat_tdiv, ← Int.ofNat_tdiv, Nat.div_div_eq_div_mul, Int.ofNat_tdiv, Int.natCast_mul]
  obtain ⟨a, rfl | rfl⟩ := n.eq_nat_or_neg <;> obtain ⟨b, rfl | rfl⟩ := d.eq_nat_or_neg <;>
    obtain ⟨c, rfl | rfl⟩ := e.eq_nat_or_neg <;>
      simp only [Int.neg_tdiv, Int.tdiv_neg, Int.neg_mul, Int.mul_neg, Int.neg_neg, hnat]

/-- Dividing by several integers fails exactly at a zero among them, and else is dividing by their product. -/
theorem divideBy_eq (n : Int) (ds : List Int) :
    divideBy n ds = if 0 ∈ ds then .error .divisionByZero else .ok (n.tdiv ds.prod) := by
  induction ds generalizing n with
  | nil => simp [divideBy]
  | cons d ds ih =>
      by_cases hd : d = 0
      · simp [divideBy, hd]
      · have hzero : 0 ∈ d :: ds ↔ 0 ∈ ds := by simp [Ne.symm hd]
        simp only [divideBy, if_neg hd, ih, quotient_eq_tdiv, tdiv_tdiv, hzero, List.prod_cons]

end

/-! ### The functions on integers -/

namespace Value

theorem integers?_ints (ns : List Int) : integers? (ns.map .int) = some ns := by
  induction ns with
  | nil => rfl
  | cons n ns ih =>
      rw [integers?] at ih
      rw [integers?, List.map_cons, List.mapM_cons, ih]
      rfl

theorem integers?_eq_none {args : List Value} {v : Value} (hv : v ∈ args) (hne : ∀ n, v ≠ .int n) :
    integers? args = none := by
  induction args with
  | nil => cases hv
  | cons arg args ih =>
      rw [integers?, List.mapM_cons]
      rcases List.mem_cons.mp hv with rfl | hv
      · cases v with
        | int n => exact absurd rfl (hne n)
        | _ => rfl
      · have hrest := ih hv
        rw [integers?] at hrest
        rw [hrest]
        cases arg <;> rfl

end Value

namespace Primitive

variable {ctx : Context}

theorem run_div (n : Int) {ds : List Int} (hds : ds ≠ []) :
    run ctx (.arith .div) ((n :: ds).map .int) =
      if 0 ∈ ds then .error .divisionByZero else .ok (.int (n.tdiv ds.prod)) := by
  obtain ⟨d, ds, rfl⟩ := List.exists_cons_of_ne_nil hds
  have hints : integers (.arith .div) ((n :: d :: ds).map .int) = .ok (n :: d :: ds) := by
    rw [integers, Value.integers?_ints]
  have hrun : Arith.run .div ((n :: d :: ds).map .int) = divideBy n (d :: ds) := by
    simp only [List.map_cons] at hints
    simp only [List.map_cons, Arith.run, hints]
    rfl
  rw [run, hrun, divideBy_eq]
  split <;> rfl

/-- Dividing by one integer after the other is dividing by their product. -/
theorem run_div_prod (n : Int) {ds : List Int} (hds : ds ≠ []) :
    run ctx (.arith .div) [.int n, .int ds.prod] = run ctx (.arith .div) ((n :: ds).map .int) := by
  have hzero : 0 ∈ [ds.prod] ↔ 0 ∈ ds := by
    rw [List.mem_singleton, eq_comm]
    exact List.prod_eq_zero_iff
  rw [run_div n hds]
  refine (run_div n (List.cons_ne_nil ds.prod [])).trans ?_
  simp only [hzero, List.prod_singleton]

theorem run_mul (ns : List Int) : run ctx (.arith .mul) (ns.map .int) = .ok (.int ns.prod) := by
  have hints : integers (.arith .mul) (ns.map .int) = .ok ns := by rw [integers, Value.integers?_ints]
  simp only [run, Arith.run, hints, List.prod_eq_foldl]
  rfl

theorem run_div_of_length {args : List Value} (hargs : args.length < 2) :
    run ctx (.arith .div) args = .error (.builtinArity (.primitive (.arith .div)) args.length) := by
  match args, hargs with
  | [], _ => rfl
  | [_], _ => rfl

/-- The kinds of all the arguments are looked at before the first division is made. -/
theorem run_div_of_mem {args : List Value} {v : Value} (hargs : 2 ≤ args.length) (hv : v ∈ args)
    (hne : ∀ n, v ≠ .int n) :
    run ctx (.arith .div) args = .error (.argumentType (.primitive (.arith .div))) := by
  have hints : integers (.arith .div) args = .error (.argumentType (.primitive (.arith .div))) := by
    rw [integers, Value.integers?_eq_none hv hne]
  match args, hargs with
  | first :: second :: rest, _ =>
      simp only [run, Arith.run, hints]
      rfl

end Primitive

/-! ### Applications to integers -/

/-- Integers are their own values. -/
theorem finds_ints {ctx : Context} {m : Machine} {frame room : Nat} (ns : List Int) (steps : Nat) :
    List.Forall₂ (Finds (run (steps + 1) room) ctx m frame) (ns.map .int) (ns.map .int) := by
  induction ns with
  | nil => exact .nil
  | cons n ns ih => exact .cons rfl ih

/-- **Division composes and truncates.** Fewer than two arguments are a wrong number, and among two or more, anything
that is no integer is reported whatever the others are. An integer divided by one or more integers is an error exactly
if one of these is zero, and else is the one quotient that it has by their product. So the application of `/` to an
integer and others ends as the one to this integer and the product of the others does, and neither does anything
else. -/
theorem division_composes (ctx : Context) :
    (∀ args : List Value, args.length < 2 →
      Primitive.run ctx (.arith .div) args = .error (.builtinArity (.primitive (.arith .div)) args.length)) ∧
    (∀ args : List Value, 2 ≤ args.length → (∃ v ∈ args, ∀ n, v ≠ .int n) →
      Primitive.run ctx (.arith .div) args = .error (.argumentType (.primitive (.arith .div)))) ∧
    ∀ (n : Int) (ds : List Int), ds ≠ [] →
      ((∃ e, Primitive.run ctx (.arith .div) ((n :: ds).map .int) = .error e ∧ e.message = "Division by zero") ↔
        0 ∈ ds) ∧
      (0 ∉ ds → ∃ q, Primitive.run ctx (.arith .div) ((n :: ds).map .int) = .ok (.int q) ∧
        ∀ q', HasQuotient n ds.prod q' ↔ q' = q) ∧
      ∀ (m : Machine) (frame : Nat), m.frames.get? frame "/" = some (.builtin (.primitive (.arith .div))) →
        m.frames.get? frame "*" = some (.builtin (.primitive (.arith .mul))) →
          Ends (evaluate (.list (.symbol "/" :: (n :: ds).map .int)) frame) ctx m
            (Primitive.run ctx (.arith .div) ((n :: ds).map .int), m) ∧
          Ends (evaluate (.list [.symbol "/", .int n, .list (.symbol "*" :: ds.map .int)]) frame) ctx m
            (Primitive.run ctx (.arith .div) ((n :: ds).map .int), m) := by
  refine ⟨fun args => Primitive.run_div_of_length, fun args hargs ⟨v, hv, hne⟩ => Primitive.run_div_of_mem hargs hv hne,
    fun n ds hds => ⟨⟨?_, ?_⟩, ?_, fun m frame hdiv hmul => ⟨?_, ?_⟩⟩⟩
  · rintro ⟨e, he, -⟩
    by_contra hzero
    rw [Primitive.run_div n hds, if_neg hzero] at he
    cases he
  · intro hzero
    exact ⟨.divisionByZero, by rw [Primitive.run_div n hds, if_pos hzero], rfl⟩
  · intro hzero
    refine ⟨n.tdiv ds.prod, by rw [Primitive.run_div n hds, if_neg hzero], fun q' => ?_⟩
    exact hasQuotient_iff (List.prod_ne_zero hzero)
  · refine .of_surplus 1 2 fun depth steps => ?_
    rw [evaluate, perform_allowing]
    exact run_primitive_application rfl hdiv (finds_ints (n :: ds) steps)
  · refine .of_surplus 2 3 fun depth steps => ?_
    have hproduct : Finds (run (steps + 2) (depth + 1)) ctx m frame (.list (.symbol "*" :: ds.map .int))
        (.int ds.prod) := by
      rw [Finds, run_primitive_application rfl hmul (finds_ints ds steps), Primitive.run_mul]
    have hargs : List.Forall₂ (Finds (run (steps + 2) (depth + 1)) ctx m frame)
        [.int n, .list (.symbol "*" :: ds.map .int)] [.int n, .int ds.prod] := .cons rfl (.cons hproduct .nil)
    rw [evaluate, perform_allowing, run_primitive_application rfl hdiv hargs, Primitive.run_div_prod n hds]

/-- In a new session, `(/ -7 2 -2)` is `1`, and so is `(/ -7 (* 2 -2))`. One argument is not enough, and a truth value
is reported although a zero comes before it. -/
theorem division_composes_signs :
    Ends (evaluate (.list [.symbol "/", .int (-7), .int 2, .int (-2)]) Session.rootFrame) Session.noFiles
      Session.initial.machine (.ok (.int 1), Session.initial.machine) ∧
    Ends (evaluate (.list [.symbol "/", .int (-7), .list [.symbol "*", .int 2, .int (-2)]]) Session.rootFrame)
      Session.noFiles Session.initial.machine (.ok (.int 1), Session.initial.machine) ∧
    Primitive.run Session.noFiles (.arith .div) [.int 4] = .error (.builtinArity (.primitive (.arith .div)) 1) ∧
    Primitive.run Session.noFiles (.arith .div) [.int 4, .int 0, .bool true] =
      .error (.argumentType (.primitive (.arith .div))) := by
  have hbound : Session.initial.machine.frames.get? Session.rootFrame "/" = some (.builtin (.primitive (.arith .div))) ∧
      Session.initial.machine.frames.get? Session.rootFrame "*" = some (.builtin (.primitive (.arith .mul))) := by
    decide +kernel
  obtain ⟨hcount, hkinds, hintegers⟩ := division_composes Session.noFiles
  obtain ⟨hdirect, hproduct⟩ := (hintegers (-7) [2, -2] (List.cons_ne_nil 2 [-2])).2.2
    Session.initial.machine Session.rootFrame hbound.1 hbound.2
  exact ⟨hdirect, hproduct, hcount [.int 4] (by decide),
    hkinds [.int 4, .int 0, .bool true] (by decide) ⟨.bool true, by decide, nofun⟩⟩

end SmallLisp
