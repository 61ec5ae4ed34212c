import SmallLisp.Proofs.Computation

/-! Who can pass the depth limit. Reading, printing, comparing and the primitive functions go as deep as data nests,
and may pass the limits on nesting and on digits. How deep evaluations are inside one another is none of their
business, so the depth limit is passed by nested evaluations and by nothing else. -/

namespace SmallLisp

/-- The result is not this error. -/
def Avoids {ε α : Type} (e : ε) (r : Except ε α) : Prop := r ≠ .error e

namespace Avoids

variable {ε α β γ : Type} {e : ε}

theorem ok (a : α) : Avoids e (.ok a : Except ε α) := nofun

theorem error {e' : ε} (h : e' ≠ e) : Avoids e (.error e' : Except ε α) := fun heq => h (Except.error.inj heq)

theorem bind {r : Except ε α} {f : α → Except ε β} (hr : Avoids e r) (hf : ∀ a, Avoids e (f a)) :
    Avoids e (r >>= f) := by
  cases r with
  | ok a => exact hf a
  | error e' => exact error fun h => hr (congrArg Except.error h)

theorem mapM {f : γ → Except ε α} (hf : ∀ c, Avoids e (f c)) (cs : List γ) : Avoids e (cs.mapM f) := by
  induction cs with
  | nil => exact ok []
  | cons c cs ih =>
      rw [List.mapM_cons]
      exact (hf c).bind fun a => ih.bind fun as => ok (a :: as)

theorem allM {f : γ → Except ε Bool} (hf : ∀ c, Avoids e (f c)) (cs : List γ) : Avoids e (cs.allM f) := by
  induction cs with
  | nil => exact ok true
  | cons c cs ih =>
      refine (hf c).bind fun b => ?_
      cases b with
      | true => exact ih
      | false => exact ok false

theorem withinLimits {limit : Overrun} {r : Except Overrun α} (hr : Avoids limit r) :
    Avoids (.overrun limit) (withinLimits r) := by
  cases r with
  | ok a => exact ok a
  | error limit' => exact error fun h => hr (congrArg Except.error (Error.overrun.inj h))

end Avoids

/-! ### Printing, describing and comparing -/

theorem avoids_decimalText (digits : Nat) (n : Int) : Avoids .depth (decimalText digits n) := by
  unfold decimalText
  split <;> nofun

namespace Value

theorem avoids_printWithin (digits : Nat) (style : PrintStyle) (room : Nat) (v : Value) :
    Avoids .depth (printWithin digits style room v) := by
  induction room generalizing v with
  | zero => nofun
  | succ room ih =>
      cases v with
      | int n => exact avoids_decimalText digits n
      | list items | vector items => exact (Avoids.mapM ih items).bind fun parts => .ok _
      | map entries =>
          exact (Avoids.mapM (fun entry => (ih entry.2).bind fun shown => .ok _) entries).bind fun parts => .ok _
      | _ => nofun

theorem avoids_describeWithin (limits : Limits) (room : Nat) (v : Value) :
    Avoids .depth (describeWithin limits room v) := by
  induction room generalizing v with
  | zero => nofun
  | succ room ih =>
      cases v with
      | int n => exact avoids_decimalText limits.digits n
      | list items | vector items => exact (Avoids.mapM ih items).bind fun parts => .ok _
      | map entries =>
          exact (Avoids.mapM (fun entry => (ih entry.2).bind fun shown => .ok _) entries).bind fun parts => .ok _
      | closure stamp params body frame =>
          exact ((avoids_printWithin _ _ _ body).bind fun shown => .ok _).bind fun text => .ok _
      | _ => nofun

theorem avoids_printAll (limits : Limits) (style : PrintStyle) (separator : String) (vs : List Value) :
    Avoids .depth (printAll limits style separator vs) :=
  (Avoids.mapM (avoids_printWithin _ _ _) vs).bind fun _ => .ok _

/-- Comparing passes no limit but that on nesting. -/
theorem avoids_equalWithin {limit : Overrun} (hlimit : limit ≠ .nesting) (room : Nat) (a b : Value) :
    Avoids limit (equalWithin room a b) := by
  induction room generalizing a b with
  | zero => exact .error hlimit.symm
  | succ room ih =>
      unfold equalWithin
      split
      · split
        · exact .allM (fun pair => ih _ _) _
        · exact .ok false
      · split
        case h_8 xs ys =>
          split
          · refine .allM (fun entry => ?_) _
            dsimp only
            split
            · exact ih _ _
            · exact .ok false
          · exact .ok false
        all_goals exact .ok _
      · exact .ok false

end Value

/-! ### Reading -/

theorem Value.avoids_ofAtom (limits : Limits) (word : String) : Avoids .depth (ofAtom limits word) := by
  unfold ofAtom
  split
  · next numeral _ =>
      refine .bind ?_ fun n => .ok _
      unfold Numeral.toInt
      split <;> nofun
  · exact .ok _

theorem Value.avoids_ofItems (limits : Limits) (bracket : Bracket) (items : List Value) :
    Avoids (.overrun .depth) (ofItems limits bracket items) := by
  have hkey : ∀ v : Value, Avoids (.overrun .depth) (v.literalKey limits) := by
    intro v
    cases v with
    | text s => exact .ok s
    | _ => exact (avoids_describeWithin limits _ _).withinLimits.bind fun shown => nofun
  cases bracket with
  | round | square => exact .ok _
  | curly =>
      simp only [ofItems, ofMapLiteral]
      split
      · nofun
      · exact (Avoids.mapM (fun pair : Value × Value => (hkey pair.1).bind fun _ => .ok _) _).bind fun _ => .ok _

theorem Progress.avoids_accept (limits : Limits) (opened : List OpenForm) (token : Token) :
    Avoids (.overrun .depth) (accept limits opened token) := by
  have henter : ∀ form, Avoids (.overrun .depth) (enter limits opened form) := by
    intro form
    unfold enter
    split <;> nofun
  cases hkind : token.kind with
  | opener bracket =>
      simp only [accept, hkind]
      exact henter _
  | closer bracket =>
      simp only [accept, hkind]
      unfold close
      split
      · split
        · exact (Value.avoids_ofItems limits bracket _).bind fun v => .ok _
        · nofun
      · nofun
  | shorthand =>
      simp only [accept, hkind]
      split
      · exact henter _
      · nofun
  | string =>
      simp only [accept, hkind]
      exact .ok _
  | atom =>
      simp only [accept, hkind]
      exact (Value.avoids_ofAtom limits _).withinLimits.bind fun v => .ok _
  | other kind =>
      simp only [accept, hkind]
      nofun

theorem avoids_readForm (limits : Limits) (opened : List OpenForm) (tokens rest : List Token) :
    readForm limits opened tokens ≠ .error (.fault (.overrun .depth) rest) := by
  induction tokens generalizing opened with
  | nil =>
      intro h
      cases h
  | cons token tokens ih =>
      rw [readForm]
      cases haccept : Progress.accept limits opened token with
      | error e =>
          intro h
          cases h
          exact Progress.avoids_accept limits opened token haccept
      | ok p =>
          cases p with
          | complete v =>
              intro h
              cases h
          | within opened' => exact ih opened'

theorem avoids_readFirst (limits : Limits) (source : String) :
    Avoids (.overrun .depth) (readFirst limits source) := by
  have hfault : ∀ e, (lex source).fault? = some e → e ≠ .overrun .depth := by
    intro e he
    unfold Lexed.fault? at he
    split at he <;> cases he
    nofun
  rw [readFirst_eq]
  split
  · cases h : (lex source).fault? with
    | none => exact .ok none
    | some e => exact .error (hfault e h)
  · split
    · exact .ok _
    · next halt hread =>
        refine .error ?_
        cases halt with
        | fault e rest =>
            rintro rfl
            exact avoids_readForm _ _ _ _ hread
        | outOfTokens opened =>
            cases h : (lex source).fault? with
            | none => nofun
            | some e => exact hfault e h

/-! ### Functions -/

/-- The error is one of the language: no limit is passed, and nothing is wrong with what is outside of it. -/
def Error.isOwn : Error → Bool
  | .mapInName | .nulInPath | .undecodable _ | .overrun _ => false
  | _ => true

theorem Avoids.own {α : Type} {e e' : Error} (he : e.isOwn = false) (he' : e'.isOwn = true) :
    Avoids e (.error e' : Except Error α) := by
  refine error fun h => ?_
  rw [h, he] at he'
  cases he'

section

variable {e : Error} (he : e.isOwn = false)
include he

theorem Primitive.avoids_integers (p : Primitive) (args : List Value) : Avoids e (p.integers args) := by
  unfold integers
  split
  · exact .ok _
  · exact .own he rfl

theorem Arith.avoids_run (op : Arith) (args : List Value) : Avoids e (op.run args) := by
  have hdivide : ∀ (ds : List Int) (n : Int), Avoids e (divideBy n ds) := by
    intro ds
    induction ds with
    | nil => exact fun n => .ok n
    | cons d ds ih =>
        intro n
        unfold divideBy
        split
        · exact .own he rfl
        · exact ih _
  unfold run
  split
  · exact (Primitive.avoids_integers he _ _).bind fun ns => .ok _
  · exact (Primitive.avoids_integers he _ _).bind fun ns => .ok _
  · refine (Primitive.avoids_integers he _ _).bind fun ns => ?_
    split <;> exact .ok _
  · refine (Primitive.avoids_integers he _ _).bind fun ns => ?_
    split
    · exact hdivide _ _
    · exact .ok _
  · exact .own he rfl

theorem Value.avoids_ofKeysAndValues (args : List Value) : Avoids e (ofKeysAndValues args) := by
  unfold ofKeysAndValues
  split
  · exact .own he rfl
  · refine (Avoids.mapM (fun pair => ?_) _).bind fun _ => .ok _
    split
    · exact .ok _
    · exact .own he rfl

end

theorem Primitive.avoids_run (ctx : Context) (p : Primitive) (args : List Value) :
    Avoids (.overrun .depth) (p.run ctx args) := by
  have hfirst : ∀ source, Avoids (.overrun .depth) (firstForm ctx source) := by
    intro source
    refine (avoids_readFirst ctx.limits source).bind fun form? => ?_
    cases form? <;> exact .ok _
  have hfile : ∀ path, Avoids (.overrun .depth) (fileText ctx path) := by
    intro path
    unfold fileText
    repeat' split
    all_goals nofun
  have hlimit : Overrun.depth ≠ .nesting := nofun
  unfold run
  split
  · exact (Arith.avoids_run rfl _ _).bind fun n => .ok _
  · refine (avoids_integers rfl _ _).bind fun ns => ?_
    split <;> exact .ok _
  · exact .ok _
  · exact (Value.avoids_equalWithin hlimit _ _ _).withinLimits.bind fun b => .ok _
  · exact .ok _
  · exact .ok _
  · exact Value.avoids_ofKeysAndValues rfl args
  · split <;> nofun
  · split <;> nofun
  · split <;> nofun
  · exact (Value.avoids_printAll _ _ _ _).withinLimits.bind fun _ => .ok _
  · exact (Value.avoids_printAll _ _ _ _).withinLimits.bind fun _ => .ok _
  · split
    · split
      · nofun
      · exact hfirst _
    · nofun
  · split
    · split
      · nofun
      · exact (hfile _).bind fun _ => .ok _
    · nofun
  · nofun
  · nofun

theorem Params.avoids_assign (params : Params) (args : List Value) :
    Avoids (.overrun .depth) (params.assign args) := by
  unfold assign
  dsimp only
  split
  · split <;> nofun
  · split <;> nofun

end SmallLisp
