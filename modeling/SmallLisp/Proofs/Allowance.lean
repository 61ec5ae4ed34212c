import SmallLisp.Proofs.Computation

/-! Allowances. The limits on the depth and the number of evaluation steps say how long an evaluation may go
on, and nothing else depends on them: what a single step does is the same under all of them. Leaving these
limits aside means asking for the outcome that a computation has under every allowance from some point on. -/

namespace SmallLisp

/-- The limits with other ones on the depth and the number of steps. -/
def Limits.allowing (limits : Limits) (depth steps : Nat) : Limits := { limits with depth, steps }

/-- The context with other limits on the depth and the number of steps. -/
def Context.allowing (ctx : Context) (depth steps : Nat) : Context :=
  { ctx with limits := ctx.limits.allowing depth steps }

@[simp]
theorem Context.limits_allowing (ctx : Context) (depth steps : Nat) :
    (ctx.allowing depth steps).limits = ctx.limits.allowing depth steps := rfl

namespace Computation

variable {σ α β : Type}

/-- A computation ends with this outcome when the limits on depth and steps are left aside: it does so under
every allowance that is high enough. -/
def Ends (x : Computation σ α) (ctx : Context) (s : σ) (outcome : Except Error α × σ) : Prop :=
  ∃ n, ∀ depth ≥ n, ∀ steps ≥ n, x (ctx.allowing depth steps) s = some outcome

/-- No two different outcomes are left when the limits are left aside. -/
theorem Ends.unique {x : Computation σ α} {ctx : Context} {s : σ} {a b : Except Error α × σ}
    (ha : Ends x ctx s a) (hb : Ends x ctx s b) : a = b := by
  obtain ⟨n, hn⟩ := ha
  obtain ⟨k, hk⟩ := hb
  have h := hn (max n k) (Nat.le_max_left _ _) (max n k) (Nat.le_max_left _ _)
  rw [hk (max n k) (Nat.le_max_right _ _) (max n k) (Nat.le_max_right _ _)] at h
  exact (Option.some.inj h).symm

/-- It is enough to know the outcome under allowances that leave something over. -/
theorem Ends.of_surplus {x : Computation σ α} {ctx : Context} {s : σ} {outcome : Except Error α × σ} (j k : Nat)
    (h : ∀ depth steps, x (ctx.allowing (depth + j) (steps + k)) s = some outcome) : Ends x ctx s outcome := by
  refine ⟨j + k, fun depth hdepth steps hsteps => ?_⟩
  obtain ⟨depth, rfl⟩ : ∃ d, depth = d + j := ⟨depth - j, by omega⟩
  obtain ⟨steps, rfl⟩ : ∃ n, steps = n + k := ⟨steps - k, by omega⟩
  exact h depth steps

/-- Computations that agree as soon as each has enough of its own end in the same ways. -/
theorem ends_congr {x y : Computation σ α} {ctx : Context} {s : σ} {j k j' k' : Nat}
    (h : ∀ depth steps, x (ctx.allowing (depth + j) (steps + k)) s = y (ctx.allowing (depth + j') (steps + k')) s)
    (outcome : Except Error α × σ) : Ends x ctx s outcome ↔ Ends y ctx s outcome := by
  constructor
  · rintro ⟨n, hn⟩
    refine .of_surplus (n + j') (n + k') fun depth steps => ?_
    have hsame := h (depth + n) (steps + n)
    rw [← Nat.add_assoc, ← Nat.add_assoc, ← hsame]
    exact hn _ (by omega) _ (by omega)
  · rintro ⟨n, hn⟩
    refine .of_surplus (n + j) (n + k) fun depth steps => ?_
    have hsame := h (depth + n) (steps + n)
    rw [← Nat.add_assoc, ← Nat.add_assoc, hsame]
    exact hn _ (by omega) _ (by omega)

/-- The computation is the same under every allowance. -/
def LimitFree (x : Computation σ α) : Prop := ∀ ctx depth steps, x (ctx.allowing depth steps) = x ctx

theorem LimitFree.bind {x : Computation σ α} {f : α → Computation σ β} (hx : LimitFree x)
    (hf : ∀ a, LimitFree (f a)) : LimitFree (x >>= f) := by
  intro ctx depth steps
  funext s
  rw [bind_apply, bind_apply, hx ctx depth steps]
  split
  · rw [hf _ ctx depth steps]
  · rfl
  · rfl

theorem LimitFree.mapM {γ : Type} {f : γ → Computation σ α} (hf : ∀ c, LimitFree (f c)) (cs : List γ) :
    LimitFree (cs.mapM f) := by
  induction cs with
  | nil => exact fun _ _ _ => rfl
  | cons c cs ih =>
      rw [List.mapM_cons]
      exact (hf c).bind fun _ => ih.bind fun _ _ _ _ => rfl

end Computation

/-! ### Describing, printing, comparing and reading -/

section

variable (limits : Limits) (depth steps : Nat)

theorem Value.describeWithin_allowing :
    describeWithin (limits.allowing depth steps) = describeWithin limits := by
  funext room
  induction room with
  | zero => rfl
  | succ room ih =>
      funext v
      cases v <;> simp only [describeWithin, ih] <;> rfl

@[simp]
theorem Value.describe_allowing (v : Value) : v.describe (limits.allowing depth steps) = v.describe limits :=
  congrFun (congrFun (describeWithin_allowing limits depth steps) limits.nesting) v

@[simp]
theorem Value.literalKey_allowing (v : Value) :
    v.literalKey (limits.allowing depth steps) = v.literalKey limits := by
  cases v <;> simp only [literalKey, describe_allowing]

theorem Progress.accept_allowing (opened : List OpenForm) (token : Token) :
    accept (limits.allowing depth steps) opened token = accept limits opened token := by
  have hitems : Value.ofItems (limits.allowing depth steps) = Value.ofItems limits := by
    funext bracket items
    cases bracket <;> simp only [Value.ofItems, Value.ofMapLiteral, Value.literalKey_allowing]
  cases hk : token.kind with
  | closer bracket => cases opened <;> simp only [accept, hk, close, hitems]
  | _ => simp only [accept, hk] <;> rfl

theorem readForm_allowing (opened : List OpenForm) (tokens : List Token) :
    readForm (limits.allowing depth steps) opened tokens = readForm limits opened tokens := by
  induction tokens generalizing opened with
  | nil => rfl
  | cons token tokens ih => simp only [readForm, Progress.accept_allowing, ih]

theorem readForms_allowing (opened : List OpenForm) (tokens : List Token) :
    readForms (limits.allowing depth steps) opened tokens = readForms limits opened tokens := by
  induction tokens generalizing opened with
  | nil => rfl
  | cons token tokens ih => simp only [readForms, Progress.accept_allowing, ih]

@[simp]
theorem readFirst_allowing (source : String) :
    readFirst (limits.allowing depth steps) source = readFirst limits source := by
  simp only [readFirst, TokenStream.nextForm?, TokenStream.form, TokenStream.resume, readForm_allowing]

@[simp]
theorem readPrefix_allowing (source : String) :
    readPrefix (limits.allowing depth steps) source = readPrefix limits source := by
  simp only [readPrefix, TokenStream.forms, readForms_allowing]

end

/-- A primitive answers the same under every allowance. -/
@[simp]
theorem Primitive.run_allowing (ctx : Context) (depth steps : Nat) (p : Primitive) (args : List Value) :
    p.run (ctx.allowing depth steps) args = p.run ctx args := by
  have hfirst : firstForm (ctx.allowing depth steps) = firstForm ctx := by
    funext source
    simp only [firstForm, Context.limits_allowing, readFirst_allowing]
  unfold run
  rw [hfirst]
  rfl

end SmallLisp
