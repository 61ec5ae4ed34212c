import SmallLisp.Proofs.Grammar

/-! Reading a text inside brackets. A text can be put behind an opening bracket and a word if a newline, and
not just a bracket, closes it off: the newline ends a comment and an atom, and only a string that the text
leaves open would go on behind it. Then the forms of the text are read as the items between the brackets, one
level deeper than they are read by themselves. -/

namespace SmallLisp

/-! ### Tokens -/

namespace LexMode

/-- A newline finishes whatever is not inside a string. -/
theorem scan_newline {m : LexMode} (hm : m.inString = false) (cs : List Char) :
    m.scan ('\n' :: cs) = (m.finish ++ (between.scan cs).1, (between.scan cs).2) := by
  have hfeed : m.feed '\n' = (m.finish, between) := by
    cases m with
    | string | escaped => cases hm
    | _ => rfl
  rw [scan_cons, hfeed]

/-- Inside a string, characters that are no quotes complete nothing and stay inside the string. -/
theorem scan_inString {m : LexMode} (hm : m.inString = true) {cs : List Char} (hcs : '"' ∉ cs) :
    (m.scan cs).1 = [] ∧ (m.scan cs).2.inString = true := by
  induction cs generalizing m with
  | nil => exact ⟨rfl, hm⟩
  | cons c cs ih =>
      have hc : c ≠ '"' := fun h => hcs (h ▸ List.mem_cons_self)
      have hfeed : (m.feed c).1 = [] ∧ (m.feed c).2.inString = true := by
        cases m with
        | string reversed =>
            by_cases hslash : c = '\\'
            · simp [feed, hslash, inString]
            · simp [feed, hslash, hc, inString]
        | escaped reversed => exact ⟨rfl, rfl⟩
        | _ => cases hm
      obtain ⟨hnone, hstays⟩ := ih hfeed.2 fun h => hcs (List.mem_cons_of_mem _ h)
      rw [scan_cons, hfeed.1, hnone]
      exact ⟨rfl, hstays⟩

theorem finish_inString {m : LexMode} (hm : m.inString = true) : m.finish = [] := by
  cases m with
  | string | escaped => rfl
  | _ => cases hm

end LexMode

theorem Lexed.fault?_eq_none {lexed : Lexed} : lexed.fault? = none ↔ lexed.unclosed = false := by
  cases h : lexed.unclosed <;> simp [fault?, h]

/-- A text that closes its strings and a further text, with a newline between them, are lexed by themselves. -/
theorem lex_newline {source : String} (hclosed : (lex source).unclosed = false) (tail : String) :
    lex (source ++ "\n" ++ tail) = ⟨(lex source).tokens ++ (lex tail).tokens, (lex tail).unclosed⟩ := by
  rw [lex_eq] at hclosed
  have hchars : (source ++ "\n" ++ tail).toList = source.toList ++ '\n' :: tail.toList := by simp
  rw [lex_eq, hchars, LexMode.scan_append, LexMode.scan_newline hclosed, lex_eq source, lex_eq tail]
  simp

/-- Behind a text that leaves a string open, whatever has no quotes goes on with that string. -/
theorem lex_unclosed {source tail : String} (hopen : (lex source).unclosed = true) (htail : '"' ∉ tail.toList) :
    lex (source ++ tail) = lex source := by
  rw [lex_eq] at hopen
  have hopen : (LexMode.between.scan source.toList).2.inString = true := hopen
  obtain ⟨hnone, hstays⟩ := LexMode.scan_inString hopen htail
  rw [lex_eq, lex_eq, String.toList_append, LexMode.scan_append]
  dsimp only
  rw [hnone, hstays, hopen, LexMode.finish_inString hstays, LexMode.finish_inString hopen, List.append_nil]

theorem lex_nilLine {source : String} (hclosed : (lex source).unclosed = false) :
    lex (source ++ "\nnil") = ⟨(lex source).tokens ++ [⟨.atom, "nil"⟩], false⟩ := by
  have hnil : lex "nil" = ⟨[⟨.atom, "nil"⟩], false⟩ := by decide
  have hline : source ++ "\nnil" = source ++ "\n" ++ "nil" := by rw [String.append_assoc]; rfl
  rw [hline, lex_newline hclosed, hnil]

/-- The tokens of a text with `(do ` in front of it and `nil)` on a line behind it, which counts if the text leaves
no string open. -/
theorem lex_enclosed (source : String) :
    lex ("(do " ++ source ++ "\nnil)") =
      ⟨.single (.opener .round) '(' :: ⟨.atom, "do"⟩ :: ((lex source).tokens ++
        if (lex source).unclosed then [] else [⟨.atom, "nil"⟩, .single (.closer .round) ')']),
        (lex source).unclosed⟩ := by
  have hfront : LexMode.between.scan "(do ".toList =
      ([.single (.opener .round) '(', ⟨.atom, "do"⟩], .between) := by decide
  have hdo : ∀ text : String, lex ("(do " ++ text) =
      ⟨.single (.opener .round) '(' :: ⟨.atom, "do"⟩ :: (lex text).tokens, (lex text).unclosed⟩ := by
    intro text
    rw [lex_eq, String.toList_append, LexMode.scan_append, hfront, lex_eq text]
    rfl
  rw [String.append_assoc, hdo]
  cases hopen : (lex source).unclosed with
  | true =>
      have htail : '"' ∉ "\nnil)".toList := by decide
      rw [lex_unclosed hopen htail, if_pos rfl, List.append_nil, hopen]
  | false =>
      have hback : lex "nil)" = ⟨[⟨.atom, "nil"⟩, .single (.closer .round) ')'], false⟩ := by decide
      have hline : source ++ "\nnil)" = source ++ "\n" ++ "nil)" := by rw [String.append_assoc]; rfl
      rw [hline, lex_newline hopen, hback, if_neg Bool.false_ne_true]

/-! ### Forms -/

/-- Progress inside forms, as it is inside further forms around them. -/
def Progress.around (base : List OpenForm) : Progress → Progress
  | .complete v => settle base v
  | .within opened => .within (opened ++ base)

namespace Progress

theorem settle_append (opened base : List OpenForm) (v : Value) :
    settle (opened ++ base) v = (settle opened v).around base := by
  induction opened generalizing v with
  | nil => rfl
  | cons form opened ih =>
      cases form with
      | sequence bracket items => rfl
      | shorthand name => exact ih _
      | unnoted => rfl
      | noted note => exact ih _

theorem around_nil (p : Progress) : p.around [] = p := by
  cases p with
  | complete v => rfl
  | within opened => rw [around, List.append_nil]

end Progress

/-! ### Limits on nesting -/

theorem mapM_eq_ok {ε α γ : Type} {f g : γ → Except ε α} (hfg : ∀ c a, f c = .ok a → g c = .ok a)
    {cs : List γ} {as : List α} (h : cs.mapM f = .ok as) : cs.mapM g = .ok as := by
  induction cs generalizing as with
  | nil => exact h
  | cons c cs ih =>
      rw [List.mapM_cons] at h ⊢
      obtain ⟨a, hc, h⟩ := bind_eq_ok h
      obtain ⟨as', hcs, h⟩ := bind_eq_ok h
      rw [hfg c a hc, ih hcs]
      exact h

/-- What is printed with some room is printed with more room. -/
theorem Value.printWithin_mono {digits : Nat} {style : PrintStyle} {room more : Nat} (hroom : room ≤ more)
    {v : Value} {shown : String} (h : printWithin digits style room v = .ok shown) :
    printWithin digits style more v = .ok shown := by
  induction room generalizing more v shown with
  | zero => cases h
  | succ room ih =>
      obtain ⟨more, rfl⟩ : ∃ more', more = more' + 1 := ⟨more - 1, by omega⟩
      have hmore : ∀ w text, printWithin digits style room w = .ok text →
          printWithin digits style more w = .ok text := fun w text => ih (by omega)
      cases v with
      | list items | vector items =>
          obtain ⟨parts, hparts, h⟩ := bind_eq_ok h
          rw [printWithin, mapM_eq_ok hmore hparts]
          exact h
      | map entries =>
          obtain ⟨parts, hparts, h⟩ := bind_eq_ok h
          rw [printWithin, mapM_eq_ok (fun entry part hentry => ?_) hparts]
          · exact h
          · obtain ⟨shown, hshown, hentry⟩ := bind_eq_ok hentry
            dsimp only
            rw [hmore _ _ hshown]
            exact hentry
      | _ => exact h

section

variable {limits : Limits} {n : Nat}

/-- What is described under a limit on nesting is described in the same way under a higher one. -/
theorem Value.describeWithin_mono (hn : n ≤ limits.nesting) {room more : Nat} (hroom : room ≤ more)
    {v : Value} {shown : String} (h : describeWithin { limits with nesting := n } room v = .ok shown) :
    describeWithin limits more v = .ok shown := by
  induction room generalizing more v shown with
  | zero => cases h
  | succ room ih =>
      obtain ⟨more, rfl⟩ : ∃ more', more = more' + 1 := ⟨more - 1, by omega⟩
      have hmore : ∀ w text, describeWithin { limits with nesting := n } room w = .ok text →
          describeWithin limits more w = .ok text := fun w text => ih (by omega)
      cases v with
      | list items | vector items =>
          obtain ⟨parts, hparts, h⟩ := bind_eq_ok h
          rw [describeWithin, mapM_eq_ok hmore hparts]
          exact h
      | map entries =>
          obtain ⟨parts, hparts, h⟩ := bind_eq_ok h
          rw [describeWithin, mapM_eq_ok (fun entry part hentry => ?_) hparts]
          · exact h
          · obtain ⟨shown, hshown, hentry⟩ := bind_eq_ok hentry
            dsimp only
            rw [hmore _ _ hshown]
            exact hentry
      | closure stamp params body frame =>
          obtain ⟨text, htext, h⟩ := bind_eq_ok h
          obtain ⟨printed, hprinted, htext⟩ := bind_eq_ok htext
          have hprint : body.print limits .readable = .ok printed := printWithin_mono hn hprinted
          rw [describeWithin, closureText, hprint]
          cases htext
          exact h
      | _ => exact h

/-- The second result is the image of the first one, unless that is a limit that was passed. -/
def UnlessOverrun {α β : Type} (f : α → β) (r : Except Error α) (r' : Except Error β) : Prop :=
  r' = r.map f ∨ ∃ limit, r = .error (.overrun limit)

namespace UnlessOverrun

variable {α β γ δ : Type} {f : α → β}

theorem of_ok {a : α} {r' : Except Error β} (h : UnlessOverrun f (.ok a) r') : r' = .ok (f a) := by
  obtain h | ⟨limit, h⟩ := h
  · exact h
  · cases h

theorem of_read {fault : ReadFault} {r' : Except Error β} (h : UnlessOverrun f (.error (.read fault)) r') :
    r' = .error (.read fault) := by
  obtain h | ⟨limit, h⟩ := h
  · exact h
  · cases h

theorem refl (r : Except Error α) : UnlessOverrun id r r := .inl (by cases r <;> rfl)

theorem bind {g : γ → δ} {r : Except Error α} {r' : Except Error β} {k : α → Except Error γ}
    {k' : β → Except Error δ} (h : UnlessOverrun f r r') (hk : ∀ a, UnlessOverrun g (k a) (k' (f a))) :
    UnlessOverrun g (r >>= k) (r' >>= k') := by
  obtain rfl | ⟨limit, rfl⟩ := h
  · cases r with
    | error e => exact .inl rfl
    | ok a => exact hk a
  · exact .inr ⟨limit, rfl⟩

theorem mapM {k k' : γ → Except Error α} (h : ∀ c, UnlessOverrun id (k c) (k' c)) (cs : List γ) :
    UnlessOverrun id (cs.mapM k) (cs.mapM k') := by
  induction cs with
  | nil => exact .inl rfl
  | cons c cs ih =>
      rw [List.mapM_cons, List.mapM_cons]
      exact (h c).bind fun a => ih.bind fun as => .refl _

end UnlessOverrun

theorem Value.literalKey_nesting (hn : n ≤ limits.nesting) (v : Value) :
    UnlessOverrun id (v.literalKey { limits with nesting := n }) (v.literalKey limits) := by
  have hdescribe : UnlessOverrun id (withinLimits (v.describe { limits with nesting := n }))
      (withinLimits (v.describe limits)) := by
    cases hshown : v.describe { limits with nesting := n } with
    | error limit => exact .inr ⟨limit, rfl⟩
    | ok shown =>
        have hmore : v.describe limits = .ok shown := describeWithin_mono hn hn hshown
        rw [hmore]
        exact .refl _
  cases v with
  | text s => exact .refl _
  | _ => exact hdescribe.bind fun shown => .refl _

/-- A form that is complete under one limit on nesting is the same, or at fault in the same way, under a higher
one. -/
theorem Value.ofItems_nesting (hn : n ≤ limits.nesting) (bracket : Bracket) (items : List Value) :
    UnlessOverrun id (ofItems { limits with nesting := n } bracket items) (ofItems limits bracket items) := by
  cases bracket with
  | round | square => exact .refl _
  | curly =>
      simp only [ofItems, ofMapLiteral]
      cases Assoc.pairUp? items with
      | none => exact .refl _
      | some pairs =>
          refine (UnlessOverrun.mapM (fun pair => ?_) pairs).bind fun entries => .refl _
          exact (literalKey_nesting hn pair.1).bind fun key => .refl _

/-- A token does the same inside further forms, if these leave room and are not what it closes. -/
theorem Progress.accept_around {opened base : List OpenForm} {token : Token}
    (hroom : n + base.length ≤ limits.nesting)
    (hinside : opened ≠ [] ∨ ∀ bracket, token.kind ≠ .closer bracket) :
    UnlessOverrun (·.around base) (accept { limits with nesting := n } opened token)
      (accept limits (opened ++ base) token) := by
  have hn : n ≤ limits.nesting := by omega
  have henter : ∀ form, UnlessOverrun (·.around base) (enter { limits with nesting := n } opened form)
      (enter limits (opened ++ base) form) := by
    intro form
    unfold enter
    split
    · next hlt =>
        have hlt : opened.length < n := hlt
        rw [if_pos (by rw [List.length_append]; omega)]
        exact .inl rfl
    · exact .inr ⟨.nesting, rfl⟩
  cases hkind : token.kind with
  | opener bracket =>
      simp only [accept, hkind]
      exact henter _
  | closer bracket =>
      obtain ⟨form, outer, rfl⟩ := List.exists_cons_of_ne_nil (hinside.resolve_right fun h => h bracket hkind)
      simp only [accept, hkind, List.cons_append]
      cases form with
      | sequence b items =>
          simp only [close]
          split
          · refine (Value.ofItems_nesting hn bracket _).bind fun v => .inl ?_
            exact congrArg Except.ok (settle_append outer base v)
          · exact .inl rfl
      | _ => exact .inl rfl
  | shorthand =>
      simp only [accept, hkind]
      split
      · exact henter _
      · exact .inl rfl
  | string =>
      simp only [accept, hkind, settle_append]
      exact .inl rfl
  | atom =>
      simp only [accept, hkind]
      refine (UnlessOverrun.refl _).bind fun v => .inl ?_
      exact congrArg Except.ok (settle_append opened base v)
  | other kind =>
      simp only [accept, hkind]
      exact .inl rfl

theorem Progress.accept_around_ok {opened base : List OpenForm} {token : Token} {p : Progress}
    (hroom : n + base.length ≤ limits.nesting)
    (h : accept { limits with nesting := n } opened token = .ok p) :
    accept limits (opened ++ base) token = .ok (p.around base) := by
  have hinside : opened ≠ [] ∨ ∀ bracket, token.kind ≠ .closer bracket := by
    by_contra houtside
    push Not at houtside
    obtain ⟨rfl, bracket, hkind⟩ := houtside
    simp only [accept, hkind, close] at h
    cases h
  have haround := @accept_around limits n opened base token hroom hinside
  rw [h] at haround
  exact haround.of_ok

/-- What can be read by itself up to some open forms is read so inside an open sequence that leaves room for it,
and the whole forms become the next items of the sequence. -/
theorem leads_enclosed {bracket : Bracket} {opened opened' : List OpenForm} {reversed forms : List Value}
    {tokens : List Token} (hroom : n + 1 ≤ limits.nesting)
    (h : readForms { limits with nesting := n } opened tokens = (forms, .outOfTokens opened')) :
    Leads limits (opened ++ [.sequence bracket reversed]) tokens
      (.within (opened' ++ [.sequence bracket (forms.reverse ++ reversed)])) := by
  induction tokens generalizing opened reversed forms with
  | nil =>
      cases h
      exact .done _
  | cons token tokens ih =>
      rw [readForms] at h
      cases haccept : Progress.accept { limits with nesting := n } opened token with
      | error e =>
          rw [haccept] at h
          cases h
      | ok p =>
          rw [haccept] at h
          have haround : ∀ reversed, Progress.accept limits (opened ++ [.sequence bracket reversed]) token =
              .ok (p.around [.sequence bracket reversed]) :=
            fun reversed => Progress.accept_around_ok hroom haccept
          cases p with
          | complete v =>
              obtain ⟨more, halt, hmore⟩ : ∃ more halt, readForms { limits with nesting := n } [] tokens =
                (more, halt) := ⟨_, _, rfl⟩
              rw [hmore] at h
              cases h
              simpa using Leads.cons (haround reversed) (ih hmore)
          | within opened'' => exact .cons (haround reversed) (ih h)

/-- Forms that can be read under a limit on nesting can be read under a higher one. -/
theorem readForms_nesting {opened : List OpenForm} {forms : List Value} {tokens : List Token}
    (hroom : n ≤ limits.nesting)
    (h : readForms { limits with nesting := n } opened tokens = (forms, .outOfTokens [])) :
    readForms limits opened tokens = (forms, .outOfTokens []) := by
  induction tokens generalizing opened forms with
  | nil => exact h
  | cons token tokens ih =>
      rw [readForms] at h ⊢
      cases haccept : Progress.accept { limits with nesting := n } opened token with
      | error e =>
          rw [haccept] at h
          cases h
      | ok p =>
          have haround := @Progress.accept_around_ok limits n opened [] token p hroom haccept
          rw [List.append_nil, Progress.around_nil] at haround
          rw [haccept] at h
          rw [haround]
          cases p with
          | complete v =>
              obtain ⟨more, halt, hmore⟩ : ∃ more halt, readForms { limits with nesting := n } [] tokens =
                (more, halt) := ⟨_, _, rfl⟩
              rw [hmore] at h
              cases h
              dsimp only
              rw [ih hmore]
          | within opened' => exact ih h

end

/-! ### Texts -/

/-- Forms are read one after the other, so what is behind some tokens is read from where these have led to. -/
theorem readForms_append {limits : Limits} {opened opened' : List OpenForm} {front : List Token}
    {forms : List Value} (h : readForms limits opened front = (forms, .outOfTokens opened')) (back : List Token) :
    readForms limits opened (front ++ back) =
      (forms ++ (readForms limits opened' back).1, (readForms limits opened' back).2) := by
  induction front generalizing opened forms with
  | nil =>
      cases h
      rfl
  | cons token front ih =>
      rw [readForms] at h
      rw [List.cons_append, readForms]
      cases haccept : Progress.accept limits opened token with
      | error e =>
          rw [haccept] at h
          cases h
      | ok p =>
          rw [haccept] at h
          cases p with
          | complete v =>
              obtain ⟨more, halt, hmore⟩ : ∃ more halt, readForms limits [] front = (more, halt) := ⟨_, _, rfl⟩
              rw [hmore] at h
              cases h
              dsimp only
              rw [ih hmore]
              rfl
          | within opened'' => exact ih h

/-- All forms of a text can be read if no string is left open and no fault is met on the way. -/
theorem readAll_eq_ok_iff {limits : Limits} {source : String} {forms : List Value} :
    readAll limits source = .ok forms ↔
      readForms limits [] (lex source).tokens = (forms, .outOfTokens []) ∧ (lex source).unclosed = false := by
  rw [readAll, readPrefix_eq, ← Lexed.fault?_eq_none]
  constructor
  · intro h
    split at h
    · next forms' hprefix =>
        cases h
        split at hprefix
        · next hforms =>
            obtain ⟨rfl, hfault⟩ := Prod.mk.inj hprefix
            exact ⟨hforms, hfault⟩
        · cases hprefix
    · cases h
  · rintro ⟨hforms, hfault⟩
    rw [hforms, hfault]

/-- A last line with `nil` adds that form. -/
theorem readAll_nil {limits : Limits} {source : String} {forms : List Value}
    (h : readAll limits source = .ok forms) : readAll limits (source ++ "\nnil") = .ok (forms ++ [.nil]) := by
  obtain ⟨hforms, hclosed⟩ := readAll_eq_ok_iff.mp h
  rw [readAll_eq_ok_iff, lex_nilLine hclosed]
  exact ⟨readForms_append hforms _, rfl⟩

section

variable {limits : Limits} {n : Nat} {source : String} {forms : List Value}

theorem readPrefix_of_readAll (h : readAll { limits with nesting := n } source = .ok forms)
    (hn : n ≤ limits.nesting) : readPrefix limits source = (forms, none) := by
  obtain ⟨hforms, hclosed⟩ := readAll_eq_ok_iff.mp h
  rw [readPrefix_eq, readForms_nesting hn hforms, Lexed.fault?_eq_none.mpr hclosed]

/-- What can be read by itself is read, as far as it goes, inside the sequence that it is put into. -/
theorem leads_sequence {tokens : List Token} {opened : List OpenForm} (hn : n < limits.nesting)
    (h : readForms { limits with nesting := n } [] tokens = (forms, .outOfTokens opened)) :
    Leads limits [] (.single (.opener .round) '(' :: ⟨.atom, "do"⟩ :: tokens)
      (.within (opened ++ [.sequence .round (forms.reverse ++ [.symbol "do"])])) := by
  have hopen : Progress.accept limits [] (.single (.opener .round) '(') = .ok (.within [.sequence .round []]) :=
    if_pos (Nat.lt_of_le_of_lt (Nat.zero_le n) hn)
  exact .cons hopen (.cons rfl (@leads_enclosed limits n .round [] opened [.symbol "do"] forms tokens hn h))

/-- A closing bracket behind whole forms closes the collection that they are put into. -/
theorem readForm_bracketed {bracket : Bracket} {front back : List Token} {opener closer : Token} {v : Value}
    (hopener : opener.kind = .opener bracket) (hcloser : closer.kind = .closer bracket) (hn : n < limits.nesting)
    (h : readForms { limits with nesting := n } [] front = (forms, .outOfTokens []))
    (hv : Value.ofItems limits bracket forms = .ok v) :
    readForm limits [] (opener :: (front ++ closer :: back)) = .ok (v, back) := by
  have hopen : Progress.accept limits [] opener = .ok (.within [.sequence bracket []]) := by
    rw [Progress.accept, hopener]
    exact if_pos (Nat.lt_of_le_of_lt (Nat.zero_le n) hn)
  have hclose : Progress.accept limits [.sequence bracket forms.reverse] closer = .ok (.complete v) := by
    simp only [Progress.accept, hcloser, Progress.close, if_true, List.reverse_reverse, hv]
    rfl
  have hforms := @leads_enclosed limits n bracket [] [] [] forms front hn h
  rw [List.append_nil] at hforms
  have hread := (Leads.cons hopen (hforms.append (.single hclose))).readForm_eq back
  simpa using hread

/-- So does a closing parenthesis close a sequence. -/
theorem readForm_closed {front back : List Token} {closer : Token} (hcloser : closer.kind = .closer .round)
    (hn : n < limits.nesting)
    (h : readForms { limits with nesting := n } [] front = (forms, .outOfTokens [])) :
    readForm limits [] (.single (.opener .round) '(' :: ⟨.atom, "do"⟩ :: (front ++ closer :: back)) =
      .ok (.list (.symbol "do" :: forms), back) := by
  have hdo : readForms { limits with nesting := n } [] (⟨.atom, "do"⟩ :: front) =
      (.symbol "do" :: forms, .outOfTokens []) := by
    have haccept : Progress.accept { limits with nesting := n } [] ⟨.atom, "do"⟩ =
        .ok (.complete (.symbol "do")) := rfl
    rw [readForms, haccept, h]
  exact readForm_bracketed rfl hcloser hn hdo rfl

/-- What reading some text gives, if its tokens begin with a form. -/
theorem readFirst_of_readForm {v : Value} (h : ∃ rest, readForm limits [] (lex source).tokens = .ok (v, rest)) :
    readFirst limits source = .ok (some v) := by
  obtain ⟨rest, h⟩ := h
  have hne : (lex source).tokens ≠ [] := by
    intro hnil
    rw [hnil] at h
    cases h
  rw [readFirst_eq, if_neg hne, h]

/-- If all forms can be read of a text with `nil` on a line behind it, then they are the parts of one sequence in
the text in brackets. -/
theorem readFirst_enclosed (h : readAll { limits with nesting := n } (source ++ "\nnil") = .ok forms)
    (hn : n < limits.nesting) :
    readFirst limits ("(do " ++ source ++ "\nnil)") = .ok (some (.list (.symbol "do" :: forms))) := by
  obtain ⟨hforms, hclosed⟩ := readAll_eq_ok_iff.mp h
  have hsource : (lex source).unclosed = false := by
    cases hopen : (lex source).unclosed with
    | false => rfl
    | true =>
        have htail : '"' ∉ "\nnil".toList := by decide
        rwa [lex_unclosed hopen htail, hopen] at hclosed
  rw [lex_nilLine hsource] at hforms
  have hread := @readForm_closed limits n forms _ [] (.single (.closer .round) ')') rfl hn hforms
  rw [List.append_assoc, List.singleton_append] at hread
  refine readFirst_of_readForm ⟨[], ?_⟩
  rw [lex_enclosed, hsource]
  exact hread

end

end SmallLisp
