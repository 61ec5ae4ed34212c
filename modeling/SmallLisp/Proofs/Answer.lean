import SmallLisp.Proofs.Scope

/-! Answers made of what was given. A form that is read from text is made of data and symbols alone, and a primitive
function gives nothing back that it was not given: whatever property of values data has, and passes on to the
collections of what has it, its answer has that property if its arguments do, and so does the value that it throws. Thus
an answer is over the same frames as the arguments, and a form that was read is over no frame at all. -/

namespace SmallLisp

/-- A result that is good, or an error that carries nothing beyond the existing frames. -/
def Safe (size : Nat) {α : Type} (good : α → Prop) : Except Error α → Prop
  | .ok a => good a
  | .error e => e.InScope size

/-- A property that all data has, and every collection of values that have it; a map binds no key twice. -/
structure Value.Hereditary (P : Value → Prop) : Prop where
  nil : P .nil
  bool : ∀ b, P (.bool b)
  int : ∀ n, P (.int n)
  symbol : ∀ name, P (.symbol name)
  text : ∀ s, P (.text s)
  list : ∀ {items}, (∀ v ∈ items, P v) → P (.list items)
  vector : ∀ {items}, (∀ v ∈ items, P v) → P (.vector items)
  map : ∀ {entries : List (String × Value)}, (entries.map Prod.fst).Nodup → (∀ entry ∈ entries, P entry.2) →
    P (.map entries)

theorem Value.hereditary_inScope (size : Nat) : Hereditary (InScope size) :=
  ⟨.nil, .bool, .int, .symbol, .text, .list, .vector, fun _ => .map⟩

/-- The value that an error carries, if it carries one, has a property. -/
def Error.Carries (P : Value → Prop) : Error → Prop
  | .thrown v => P v
  | _ => True

/-- A result that is good, or an error that carries nothing without the property. -/
def Bears (P : Value → Prop) {α : Type} (good : α → Prop) : Except Error α → Prop
  | .ok a => good a
  | .error e => e.Carries P

namespace Bears

variable {P : Value → Prop} {α β γ : Type} {good : α → Prop} {better : β → Prop}

theorem bind {r : Except Error α} {f : α → Except Error β} (hr : Bears P good r)
    (hf : ∀ a, good a → Bears P better (f a)) : Bears P better (r >>= f) := by
  cases r with
  | ok a => exact hf a hr
  | error e => exact hr

theorem mapM (good : α → Prop) {f : γ → Except Error α} {cs : List γ} (hf : ∀ c ∈ cs, Bears P good (f c)) :
    Bears P (fun as => ∀ a ∈ as, good a) (cs.mapM f) := by
  induction cs with
  | nil => exact fun a ha => nomatch ha
  | cons c cs ih =>
      rw [List.mapM_cons]
      refine (hf c List.mem_cons_self).bind fun a ha => ?_
      refine (ih fun c hc => hf c (List.mem_cons_of_mem _ hc)).bind fun as has => ?_
      exact fun b hb => (List.mem_cons.mp hb).elim (fun h => h ▸ ha) (has b)

theorem withinLimits (r : Except Overrun α) : Bears P (fun _ => True) (withinLimits r) := by
  cases r <;> trivial

theorem safe {size : Nat} {r : Except Error α} (h : Bears (Value.InScope size) good r) : Safe size good r := by
  cases r with
  | ok a => exact h
  | error e => cases e <;> exact h

end Bears

theorem Safe.withinLimits {size : Nat} {α : Type} (r : Except Overrun α) :
    Safe size (fun _ => True) (withinLimits r) := (Bears.withinLimits r).safe

section

variable {P : Value → Prop}

/-! ### Reading -/

/-- The forms read so far in an open form have the property. -/
def OpenForm.Holding (P : Value → Prop) : OpenForm → Prop
  | .sequence _ items => ∀ v ∈ items, P v
  | .noted note => P note
  | _ => True

/-- A complete form, or what is read of the open ones, has the property. -/
def Progress.Holding (P : Value → Prop) : Progress → Prop
  | .complete v => P v
  | .within opened => ∀ form ∈ opened, form.Holding P

variable (hP : Value.Hereditary P)
include hP

theorem Progress.holding_settle {opened : List OpenForm} {v : Value} (hopened : ∀ form ∈ opened, form.Holding P)
    (hv : P v) : (settle opened v).Holding P := by
  induction opened generalizing v with
  | nil => exact hv
  | cons form outer ih =>
      have houter : ∀ form ∈ outer, form.Holding P := fun form h => hopened form (List.mem_cons_of_mem _ h)
      have hform := hopened form List.mem_cons_self
      cases form with
      | sequence bracket items =>
          intro form hmem
          rcases List.mem_cons.mp hmem with rfl | hmem
          · exact fun w hw => (List.mem_cons.mp hw).elim (fun h => h ▸ hv) (hform w)
          · exact houter form hmem
      | shorthand name =>
          refine ih houter (hP.list fun w hw => ?_)
          simp only [List.mem_cons, List.not_mem_nil, or_false] at hw
          rcases hw with rfl | rfl
          · exact hP.symbol name
          · exact hv
      | unnoted =>
          intro form hmem
          rcases List.mem_cons.mp hmem with rfl | hmem
          · exact hv
          · exact houter form hmem
      | noted note =>
          refine ih houter (hP.list fun w hw => ?_)
          simp only [List.mem_cons, List.not_mem_nil, or_false] at hw
          rcases hw with rfl | rfl | rfl
          · exact hP.symbol _
          · exact hv
          · exact hform

theorem Value.bears_ofItems (limits : Limits) (bracket : Bracket) {items : List Value}
    (hitems : ∀ v ∈ items, P v) : Bears P P (ofItems limits bracket items) := by
  cases bracket with
  | round => exact hP.list hitems
  | square => exact hP.vector hitems
  | curly =>
      simp only [ofItems, ofMapLiteral]
      split
      · trivial
      · next pairs hpairs =>
          have hkey : ∀ pair ∈ pairs, Bears P (fun entry : String × Value => P entry.2)
              (do return (← pair.1.literalKey limits, pair.2)) := by
            intro pair hpair
            have hliteral : Bears P (fun _ => True) (pair.1.literalKey limits) := by
              unfold literalKey
              split
              · trivial
              · exact (Bears.withinLimits _).bind fun shown _ => trivial
            exact hliteral.bind fun key _ => hitems _ (Assoc.mem_pairUp? hpairs pair hpair).2
          refine (Bears.mapM _ hkey).bind fun entries hentries => ?_
          exact hP.map (Assoc.nodup_keys_ofPairs entries) fun entry hentry => hentries entry (Assoc.mem_ofPairs hentry)

theorem Value.Hereditary.ofAtom {limits : Limits} {atom : String} {v : Value}
    (h : Value.ofAtom limits atom = .ok v) : P v := by
  unfold Value.ofAtom at h
  split at h
  · next numeral _ =>
      cases hint : numeral.toInt limits.digits <;> rw [hint] at h <;> cases h
      exact hP.int _
  · cases h
    unfold ofWord
    split
    · exact hP.nil
    · exact hP.bool _
    · exact hP.bool _
    · split
      · exact hP.text _
      · exact hP.symbol _

theorem Progress.bears_accept (limits : Limits) {opened : List OpenForm} (token : Token)
    (hopened : ∀ form ∈ opened, form.Holding P) : Bears P (Holding P) (accept limits opened token) := by
  have henter : ∀ form : OpenForm, form.Holding P → Bears P (Holding P) (enter limits opened form) := by
    intro form hform
    unfold enter
    split
    · exact fun f hf => (List.mem_cons.mp hf).elim (fun h => h ▸ hform) (hopened f)
    · trivial
  unfold accept
  split
  · exact henter _ fun v hv => nomatch hv
  · unfold close
    split
    · split
      · have hitems := hopened _ List.mem_cons_self
        refine (Value.bears_ofItems hP limits _ fun v hv => hitems v (List.mem_reverse.mp hv)).bind fun v hv => ?_
        exact holding_settle hP (fun f hf => hopened f (List.mem_cons_of_mem _ hf)) hv
      · trivial
    · trivial
  · split
    · next form hform =>
        refine henter form ?_
        unfold OpenForm.ofShorthand? at hform
        split at hform <;> cases hform <;> trivial
    · trivial
  · exact holding_settle hP hopened (hP.text _)
  · have hword : Bears P P (SmallLisp.withinLimits (Value.ofAtom limits token.text)) := by
      cases hatom : Value.ofAtom limits token.text with
      | ok v => exact hP.ofAtom hatom
      | error limit => trivial
    exact hword.bind fun v hv => holding_settle hP hopened hv
  · trivial

theorem bears_readForm (limits : Limits) (opened : List OpenForm) (tokens : List Token)
    (hopened : ∀ form ∈ opened, form.Holding P) :
    (∀ v rest, readForm limits opened tokens = .ok (v, rest) → P v) ∧
      ∀ e rest, readForm limits opened tokens = .error (.fault e rest) → e.Carries P := by
  induction tokens generalizing opened with
  | nil => constructor <;> intro _ _ h <;> cases h
  | cons token tokens ih =>
      have haccept := Progress.bears_accept hP limits token hopened
      unfold readForm
      cases hp : Progress.accept limits opened token with
      | error e =>
          rw [hp] at haccept
          constructor <;> intro _ _ h <;> cases h
          exact haccept
      | ok progress =>
          rw [hp] at haccept
          cases progress with
          | complete v =>
              constructor <;> intro _ _ h <;> cases h
              exact haccept
          | within opened => exact ih opened haccept

theorem bears_readForms (limits : Limits) (opened : List OpenForm) (tokens : List Token)
    (hopened : ∀ form ∈ opened, form.Holding P) :
    (∀ v ∈ (readForms limits opened tokens).1, P v) ∧
      ∀ e rest, (readForms limits opened tokens).2 = .fault e rest → e.Carries P := by
  induction tokens generalizing opened with
  | nil => exact ⟨fun v hv => (nomatch hv), fun _ _ h => (nomatch h)⟩
  | cons token tokens ih =>
      have haccept := Progress.bears_accept hP limits token hopened
      unfold readForms
      cases hp : Progress.accept limits opened token with
      | error e =>
          rw [hp] at haccept
          refine ⟨fun v hv => (nomatch hv), fun e' rest h => ?_⟩
          cases h
          exact haccept
      | ok progress =>
          rw [hp] at haccept
          cases progress with
          | complete v =>
              have htail := ih [] fun form hform => nomatch hform
              exact ⟨fun w hw => (List.mem_cons.mp hw).elim (fun h => h ▸ haccept) (htail.1 w), htail.2⟩
          | within opened => exact ih opened haccept

omit hP in
theorem Lexed.carries_fault? {lexed : Lexed} {e : Error} (h : lexed.fault? = some e) : e.Carries P := by
  unfold fault? at h
  split at h <;> cases h
  trivial

omit hP in
theorem Halt.carries_error {fault : Option Error} (hfault : ∀ e ∈ fault, e.Carries P) {halt : Halt}
    (h : ∀ e rest, halt = .fault e rest → e.Carries P) : (halt.error fault).Carries P := by
  cases halt with
  | fault e rest => exact h e rest rfl
  | outOfTokens opened =>
      cases fault with
      | none => trivial
      | some e => exact hfault e rfl

/-- The first form of a text has every property that data has. -/
theorem bears_readFirst (limits : Limits) (source : String) :
    Bears P (fun form? => ∀ v ∈ form?, P v) (readFirst limits source) := by
  have hfault : ∀ e ∈ (lex source).fault?, e.Carries P := fun e => Lexed.carries_fault?
  have hform := bears_readForm hP limits [] (lex source).tokens fun form h => nomatch h
  rw [readFirst_eq]
  split
  · cases h : (lex source).fault? with
    | some e => exact hfault e h
    | none => exact fun v hv => nomatch hv
  · split
    · next v rest h => exact fun w hw => Option.some.inj hw ▸ hform.1 v rest h
    · next halt h =>
        exact Halt.carries_error hfault fun e rest hhalt => hform.2 e rest (hhalt ▸ h)

/-- The forms of a text have every property that data has. -/
theorem bears_readPrefix (limits : Limits) (source : String) :
    (∀ v ∈ (readPrefix limits source).1, P v) ∧ ∀ e ∈ (readPrefix limits source).2, e.Carries P := by
  have hfault : ∀ e ∈ (lex source).fault?, e.Carries P := fun e => Lexed.carries_fault?
  have hforms := bears_readForms hP limits [] (lex source).tokens fun form h => nomatch h
  rw [readPrefix_eq]
  split
  · next forms h =>
      rw [h] at hforms
      exact ⟨hforms.1, hfault⟩
  · next forms halt _ h =>
      rw [h] at hforms
      exact ⟨hforms.1, fun e he => Option.some.inj he ▸ Halt.carries_error hfault hforms.2⟩

/-! ### Primitive functions -/

theorem bears_firstForm (ctx : Context) (source : String) : Bears P P (firstForm ctx source) := by
  have hread := bears_readFirst hP ctx.limits source
  unfold firstForm
  cases h : readFirst ctx.limits source with
  | error e =>
      rw [h] at hread
      exact hread
  | ok form? =>
      rw [h] at hread
      cases form? with
      | none => exact hP.nil
      | some form => exact hread form rfl

theorem Value.bears_ofKeysAndValues {args : List Value} (hargs : ∀ v ∈ args, P v) :
    Bears P P (ofKeysAndValues args) := by
  unfold ofKeysAndValues
  split
  · trivial
  · next pairs hpairs =>
      refine (Bears.mapM (fun entry : String × Value => P entry.2) ?_).bind fun entries h => ?_
      · intro pair hpair
        have hvalue := hargs _ (Assoc.mem_pairUp? hpairs pair hpair).2
        split
        · exact hvalue
        · trivial
      · exact hP.map (Assoc.nodup_keys_ofPairs entries) fun entry hentry => h entry (Assoc.mem_ofPairs hentry)

omit hP in
theorem bears_integers (p : Primitive) (args : List Value) : Bears P (fun _ => True) (p.integers args) := by
  unfold Primitive.integers
  split <;> trivial

omit hP in
theorem bears_divideBy (n : Int) (ds : List Int) : Bears P (fun _ => True) (divideBy n ds) := by
  induction ds generalizing n with
  | nil => trivial
  | cons d ds ih =>
      unfold divideBy
      split
      · trivial
      · exact ih _

omit hP in
theorem Arith.bears_run (op : Arith) (args : List Value) : Bears P (fun _ => True) (op.run args) := by
  unfold run
  split
  · exact (bears_integers _ _).bind fun _ _ => trivial
  · exact (bears_integers _ _).bind fun _ _ => trivial
  · refine (bears_integers _ _).bind fun ns _ => ?_
    split <;> trivial
  · refine (bears_integers _ _).bind fun ns _ => ?_
    split
    · exact bears_divideBy _ _
    · trivial
  · trivial

omit hP in
theorem bears_fileText (ctx : Context) (path : String) : Bears P (fun _ => True) (fileText ctx path) := by
  unfold fileText
  split
  · trivial
  · split
    · trivial
    · split <;> trivial

/-- A primitive answers with a value that has the property if its arguments have it. -/
theorem Primitive.bears_run (ctx : Context) (p : Primitive) {args : List Value} (hargs : ∀ v ∈ args, P v) :
    Bears P P (p.run ctx args) := by
  unfold run
  split
  · exact (Arith.bears_run _ args).bind fun n _ => hP.int n
  · refine (bears_integers _ _).bind fun ns _ => ?_
    split <;> exact hP.bool _
  · exact hP.bool _
  · exact (Bears.withinLimits _).bind fun b _ => hP.bool b
  · exact hP.list hargs
  · exact hP.vector hargs
  · exact Value.bears_ofKeysAndValues hP hargs
  · split
    · exact hP.bool _
    · trivial
  · split
    · exact hP.int _
    · trivial
  · split
    · exact hP.text _
    · trivial
  · exact (Bears.withinLimits _).bind fun s _ => hP.text s
  · exact (Bears.withinLimits _).bind fun s _ => hP.text s
  · split
    · split
      · trivial
      · exact bears_firstForm hP ctx _
    · trivial
  · split
    · split
      · trivial
      · exact (bears_fileText ctx _).bind fun text _ => hP.text text
    · trivial
  · exact hargs _ (List.mem_singleton_self _)
  · trivial

/-- What the arguments of a call are bound to is among them, or a list of them. -/
theorem Params.bears_assign (params : Params) {args : List Value} (hargs : ∀ v ∈ args, P v) :
    Bears P (fun pairs => ∀ pair ∈ pairs, P pair.2) (params.assign args) := by
  simp only [assign]
  split
  · split
    · exact fun pair hpair => hargs _ (List.of_mem_zip hpair).2
    · trivial
  · split
    · trivial
    · intro pair hpair
      rcases List.mem_append.mp hpair with hpair | hpair
      · exact hargs _ (List.mem_of_mem_take (List.of_mem_zip hpair).2)
      · rw [List.mem_singleton.mp hpair]
        exact hP.list fun v hv => hargs v (List.mem_of_mem_drop hv)

end

/-! ### Answers over existing frames -/

theorem Error.inScope_of_carries {size : Nat} {e : Error} (h : e.Carries (Value.InScope size)) : e.InScope size := by
  cases e <;> exact h

/-- The first form of a text holds no closure. -/
theorem safe_readFirst (limits : Limits) (source : String) :
    Safe 0 (fun form? => ∀ v ∈ form?, v.InScope 0) (readFirst limits source) :=
  (bears_readFirst (Value.hereditary_inScope 0) limits source).safe

/-- The next form of a stream holds no closure. -/
theorem TokenStream.inScope_of_nextForm? {limits : Limits} {s s' : TokenStream} {v : Value}
    (h : s.nextForm? limits = (.ok (some v), s')) : v.InScope 0 := by
  obtain ⟨rest, hread, -⟩ := readForm_of_nextForm? h
  exact (bears_readForm (Value.hereditary_inScope 0) limits [] s.unread fun _ h => nomatch h).1 v rest hread

/-- The forms of a text hold no closure. -/
theorem safe_readPrefix (limits : Limits) (source : String) :
    (∀ v ∈ (readPrefix limits source).1, v.InScope 0) ∧ ∀ e ∈ (readPrefix limits source).2, e.InScope 0 := by
  have hread := bears_readPrefix (Value.hereditary_inScope 0) limits source
  exact ⟨hread.1, fun e he => Error.inScope_of_carries (hread.2 e he)⟩

theorem safe_firstForm (ctx : Context) (size : Nat) (source : String) :
    Safe size (Value.InScope size) (firstForm ctx source) :=
  (bears_firstForm (Value.hereditary_inScope size) ctx source).safe

theorem safe_integers (size : Nat) (p : Primitive) (args : List Value) :
    Safe size (fun _ => True) (p.integers args) := (bears_integers p args).safe

theorem Arith.safe_run (size : Nat) (op : Arith) (args : List Value) :
    Safe size (fun _ => True) (op.run args) := (op.bears_run args).safe

theorem safe_fileText (ctx : Context) (size : Nat) (path : String) :
    Safe size (fun _ => True) (fileText ctx path) := (bears_fileText ctx path).safe

/-- A primitive answers with values over the frames that its arguments are over. -/
theorem Primitive.safe_run (ctx : Context) (size : Nat) (p : Primitive) {args : List Value}
    (hargs : ∀ v ∈ args, v.InScope size) : Safe size (Value.InScope size) (p.run ctx args) :=
  (p.bears_run (Value.hereditary_inScope size) ctx hargs).safe

theorem Params.safe_assign {size : Nat} (params : Params) {args : List Value}
    (hargs : ∀ v ∈ args, v.InScope size) :
    Safe size (fun pairs => ∀ pair ∈ pairs, pair.2.InScope size) (params.assign args) :=
  (params.bears_assign (Value.hereditary_inScope size) hargs).safe

end SmallLisp
