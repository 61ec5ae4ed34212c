import SmallLisp.Session

/-! Computations, seen from outside: what each of them does to a state, and how the outcome of a sequence of
them comes from the outcomes of its parts. A computation has no outcome, or a value or an error together with
the state that it leaves. -/

namespace SmallLisp

/-- A computation on states of some type. Those of the evaluator and those of a session are both of this kind. -/
abbrev Computation (σ : Type) := ReaderT Context (ExceptT Error (StateT σ Option))

theorem eq_ok_of_toOption {ε α : Type} {r : Except ε α} {a : α} (h : r.toOption = some a) : r = .ok a := by
  cases r with
  | ok b => exact congrArg Except.ok (Option.some.inj h)
  | error e => cases h

namespace Computation

variable {σ α β : Type}

theorem pure_apply (a : α) (ctx : Context) (s : σ) : (pure a : Computation σ α) ctx s = some (.ok a, s) := rfl

theorem throw_apply (e : Error) (ctx : Context) (s : σ) :
    (throw e : Computation σ α) ctx s = some (.error e, s) := rfl

theorem read_apply (ctx : Context) (s : σ) : (read : Computation σ Context) ctx s = some (.ok ctx, s) := rfl

theorem get_apply (ctx : Context) (s : σ) : (get : Computation σ σ) ctx s = some (.ok s, s) := rfl

theorem ofExcept_apply (r : Except Error α) (ctx : Context) (s : σ) :
    (ofExcept r : Computation σ α) ctx s = some (r, s) := by
  cases r <;> rfl

/-- A sequence stops at the first part that has no outcome or an error. -/
theorem bind_apply (x : Computation σ α) (f : α → Computation σ β) (ctx : Context) (s : σ) :
    (x >>= f) ctx s = match x ctx s with
      | some (.ok a, s) => f a ctx s
      | some (.error e, s) => some (.error e, s)
      | none => none := by
  have h : (x >>= f) ctx s = (x ctx s).bind fun p => ExceptT.bindCont (fun a => f a ctx) p.1 p.2 := rfl
  rw [h]
  rcases x ctx s with _ | ⟨_ | _, _⟩ <;> rfl

theorem bind_of_ok {x : Computation σ α} {f : α → Computation σ β} {ctx : Context} {s t : σ} {a : α}
    (h : x ctx s = some (.ok a, t)) : (x >>= f) ctx s = f a ctx t := by
  rw [bind_apply, h]

theorem bind_of_error {x : Computation σ α} {f : α → Computation σ β} {ctx : Context} {s t : σ} {e : Error}
    (h : x ctx s = some (.error e, t)) : (x >>= f) ctx s = some (.error e, t) := by
  rw [bind_apply, h]

/-- The two ways in which a sequence comes to an end. -/
theorem bind_eq_some {x : Computation σ α} {f : α → Computation σ β} {ctx : Context} {s : σ}
    {outcome : Except Error β × σ} (h : (x >>= f) ctx s = some outcome) :
    (∃ a t, x ctx s = some (.ok a, t) ∧ f a ctx t = some outcome) ∨
      ∃ e t, x ctx s = some (.error e, t) ∧ outcome = (.error e, t) := by
  rw [bind_apply] at h
  split at h
  · exact .inl ⟨_, _, ‹_›, h⟩
  · exact .inr ⟨_, _, ‹_›, (Option.some.inj h).symm⟩
  · cases h

end Computation

namespace EvalM

open SmallLisp.Computation

theorem lookup_apply (frame : Nat) (name : String) (ctx : Context) (m : Machine) :
    lookup frame name ctx m = some ((m.frames.get? frame name).elim (.error (.unbound name)) .ok, m) := by
  unfold lookup
  rw [bind_apply, get_apply]
  cases h : m.frames.get? frame name <;> simp [h, pure_apply, throw_apply]

theorem bindName_apply (frame : Nat) (name : String) (value : Value) (ctx : Context) (m : Machine) :
    bindName frame name value ctx m = some (.ok (), { m with frames := m.frames.set frame name value }) := rfl

theorem extendFrame_apply (outer : Nat) (pairs : List (String × Value)) (ctx : Context) (m : Machine) :
    extendFrame outer pairs ctx m =
      some (.ok m.frames.all.size, { m with frames := (m.frames.extend outer pairs).2 }) := rfl

theorem freshStamp_apply (ctx : Context) (m : Machine) :
    freshStamp ctx m = some (.ok m.stamps, { m with stamps := m.stamps + 1 }) := rfl

theorem printLine_apply (line : String) (ctx : Context) (m : Machine) :
    printLine line ctx m = some (.ok (), { m with output := m.output ++ line ++ "\n" }) := rfl

theorem printed_apply (style : PrintStyle) (separator : String) (vs : List Value) (ctx : Context)
    (m : Machine) :
    printed style separator vs ctx m =
      some (withinLimits (Value.printAll ctx.limits style separator vs), m) := by
  unfold printed
  rw [bind_apply, read_apply]
  exact ofExcept_apply ..

theorem described_apply (v : Value) (ctx : Context) (m : Machine) :
    described v ctx m = some (withinLimits (v.describe ctx.limits), m) := by
  unfold described
  rw [bind_apply, read_apply]
  exact ofExcept_apply ..

end EvalM

end SmallLisp
