import SmallLisp.Proofs.Layout
import SmallLisp.Proofs.Loading

/-! Loading a file that cannot be read whole. The text of the file is put between `(do ` and `nil)`, and the first
form of the result is evaluated. If that form ends where it should, nothing of a faulty text is evaluated. It does
not if a closing parenthesis in the text, behind whole forms, is taken for the one behind the text, or if a sign at
the end of the text is taken to stand in front of the appended `nil`; these are the only texts that loading does not
reject whole. -/

namespace SmallLisp

open SmallLisp.Computation

/-! ### Where a sequence ends -/

/-- In brackets behind a word, the text makes a sequence of these forms: all those of the text with `nil` on a line
behind it, or else those in front of a closing parenthesis of the text that stands outside of all brackets. -/
inductive Sequenced (limits : Limits) (source : String) : List Value → Prop
  | whole {forms : List Value} : readAll limits (source ++ "\nnil") = .ok forms → Sequenced limits source forms
  | cut {forms : List Value} {front back : List Token} {closer : Token} :
      (lex source).tokens = front ++ closer :: back → closer.kind = .closer .round →
        readForms limits [] front = (forms, .outOfTokens []) → Sequenced limits source forms

/-- When reading comes to a halt at a token, the tokens in front of it have led to the forms that are open there. -/
theorem readForms_eq_fault {limits : Limits} {opened : List OpenForm} {tokens rest : List Token}
    {forms : List Value} {e : Error} (h : readForms limits opened tokens = (forms, .fault e rest)) :
    ∃ front token opened', tokens = front ++ token :: rest ∧
      readForms limits opened front = (forms, .outOfTokens opened') ∧
      Progress.accept limits opened' token = .error e := by
  induction tokens generalizing opened forms with
  | nil => cases h
  | cons token tokens ih =>
      rw [readForms] at h
      cases haccept : Progress.accept limits opened token with
      | error e' =>
          rw [haccept] at h
          cases h
          exact ⟨[], token, opened, rfl, rfl, haccept⟩
      | ok p =>
          rw [haccept] at h
          cases p with
          | complete v =>
              obtain ⟨more, halt, hmore⟩ : ∃ more halt, readForms limits [] tokens = (more, halt) := ⟨_, _, rfl⟩
              rw [hmore] at h
              cases h
              obtain ⟨front, fault, opened', rfl, hfront, hfault⟩ := ih hmore
              exact ⟨token :: front, fault, opened', rfl, by rw [readForms, haccept]; simp [hfront], hfault⟩
          | within opened'' =>
              obtain ⟨front, fault, opened', rfl, hfront, hfault⟩ := ih h
              exact ⟨token :: front, fault, opened', rfl, by rw [readForms, haccept]; exact hfront, hfault⟩

theorem readAll_eq_error {limits : Limits} {source : String} {e : Error} (h : readAll limits source = .error e) :
    ∃ forms halt, readForms limits [] (lex source).tokens = (forms, halt) ∧
      halt.error (lex source).fault? = e := by
  obtain ⟨forms, halt, hforms⟩ : ∃ forms halt, readForms limits [] (lex source).tokens = (forms, halt) :=
    ⟨_, _, rfl⟩
  rw [readAll, readPrefix_eq, hforms] at h
  refine ⟨forms, halt, hforms, ?_⟩
  cases halt with
  | fault e' rest =>
      cases h
      rfl
  | outOfTokens opened =>
      cases opened with
      | nil =>
          cases hfault : (lex source).fault? with
          | none =>
              rw [hfault] at h
              cases h
          | some e' =>
              rw [hfault] at h
              cases h
              rfl
      | cons form outer =>
          cases h
          rfl

section

variable {limits : Limits} {n : Nat} {source : String} {forms : List Value}

/-- Inside a sequence a faulty token is still at fault, unless it is what closes the sequence. -/
theorem accept_fault_enclosed {opened : List OpenForm} {reversed : List Value} {token : Token} {fault : ReadFault}
    (hn : n < limits.nesting)
    (h : Progress.accept { limits with nesting := n } opened token = .error (.read fault))
    (hcloser : opened = [] → token.kind ≠ .closer .round) :
    ∃ fault', Progress.accept limits (opened ++ [.sequence .round reversed]) token = .error (.read fault') := by
  by_cases hinside : opened ≠ [] ∨ ∀ bracket, token.kind ≠ .closer bracket
  · have haround := @Progress.accept_around limits n opened [.sequence .round reversed] token hn hinside
    rw [h] at haround
    exact ⟨fault, haround.of_read⟩
  · push Not at hinside
    obtain ⟨rfl, bracket, hkind⟩ := hinside
    have hother : .round ≠ bracket := fun hround => hcloser rfl (hround ▸ hkind)
    refine ⟨.strayCloser token.text, ?_⟩
    simp only [List.nil_append, Progress.accept, hkind, Progress.close, if_neg hother]

/-- What is complete inside a sequence leaves the sequence open. -/
theorem around_sequence (p : Progress) (reversed : List Value) :
    ∃ opened, p.around [.sequence .round reversed] = .within opened := by
  cases p with
  | complete v => exact ⟨_, rfl⟩
  | within opened => exact ⟨_, rfl⟩

theorem settle_ne_nil {opened opened' : List OpenForm} {v : Value}
    (h : Progress.settle opened v = .within opened') : opened' ≠ [] := by
  induction opened generalizing v with
  | nil => cases h
  | cons form outer ih =>
      cases form with
      | sequence | unnoted =>
          cases h
          exact List.cons_ne_nil _ _
      | shorthand | noted => exact ih h

/-- If `nil` does not complete the forms that are open in a sequence, the closing parenthesis behind it cannot be
the one of the sequence: it closes another bracket, and then one is missing, or it closes nothing. -/
theorem readForm_nilCloser {opened opened' : List OpenForm} {reversed : List Value}
    (h : Progress.settle opened .nil = .within opened') :
    ∃ halt fault, readForm limits (opened ++ [.sequence .round reversed])
        [⟨.atom, "nil"⟩, .single (.closer .round) ')'] = .error halt ∧ halt.error none = .read fault := by
  have hnil : Progress.accept limits (opened ++ [.sequence .round reversed]) ⟨.atom, "nil"⟩ =
      .ok (.within (opened' ++ [.sequence .round reversed])) := by
    have hsettle : Progress.accept limits (opened ++ [.sequence .round reversed]) ⟨.atom, "nil"⟩ =
        .ok (Progress.settle (opened ++ [.sequence .round reversed]) .nil) := rfl
    rw [hsettle, Progress.settle_append, h]
    rfl
  obtain ⟨form, outer, rfl⟩ := List.exists_cons_of_ne_nil (settle_ne_nil h)
  have hcloser : (∃ opened'', Progress.accept limits (form :: outer ++ [.sequence .round reversed])
      (.single (.closer .round) ')') = .ok (.within opened'')) ∨
      ∃ fault, Progress.accept limits (form :: outer ++ [.sequence .round reversed])
        (.single (.closer .round) ')') = .error (.read fault) := by
    simp only [Progress.accept, Token.single, List.cons_append]
    cases form with
    | sequence b items =>
        rw [Progress.close]
        split
        · obtain ⟨opened'', hopened⟩ := around_sequence (Progress.settle outer (.list items.reverse)) reversed
          refine .inl ⟨opened'', ?_⟩
          rw [← hopened, ← Progress.settle_append]
          rfl
        · exact .inr ⟨_, rfl⟩
    | _ => exact .inr ⟨_, rfl⟩
  rw [readForm, hnil]
  dsimp only
  obtain ⟨opened'', hopened⟩ | ⟨fault, hfault⟩ := hcloser
  · rw [readForm, hopened]
    exact ⟨_, _, rfl, rfl⟩
  · rw [readForm, hfault]
    exact ⟨_, fault, rfl, rfl⟩

/-- The text in brackets is read as the sequence of its forms. -/
theorem Sequenced.readFirst (h : Sequenced { limits with nesting := n } source forms) (hn : n < limits.nesting) :
    SmallLisp.readFirst limits ("(do " ++ source ++ "\nnil)") = .ok (some (.list (.symbol "do" :: forms))) := by
  cases h with
  | whole hforms => exact readFirst_enclosed hforms hn
  | @cut front back closer htokens hcloser hforms =>
      refine readFirst_of_readForm ?_
      rw [lex_enclosed, htokens, List.append_assoc, List.cons_append]
      exact ⟨_, readForm_closed hcloser hn hforms⟩

/-- A text that is at fault, and of which brackets do not make a sequence, is at fault in brackets, too. -/
theorem readFirst_fault_enclosed {fault : ReadFault} (hn : n < limits.nesting)
    (hfault : readAll { limits with nesting := n } source = .error (.read fault))
    (hnone : ∀ forms, ¬Sequenced { limits with nesting := n } source forms) :
    ∃ fault', readFirst limits ("(do " ++ source ++ "\nnil)") = .error (.read fault') := by
  obtain ⟨forms, halt, hforms, hhalt⟩ := readAll_eq_error hfault
  -- reading the text in brackets comes to a halt, whether a string is left open or not
  suffices hread : ∃ halt fault', readForm limits [] (lex ("(do " ++ source ++ "\nnil)")).tokens = .error halt ∧
      halt.error (lex source).fault? = .read fault' by
    obtain ⟨halt, fault', hread, hfault'⟩ := hread
    have hsame : (lex ("(do " ++ source ++ "\nnil)")).fault? = (lex source).fault? := by
      rw [Lexed.fault?, Lexed.fault?, lex_enclosed]
    refine ⟨fault', ?_⟩
    rw [readFirst_eq, hread, hsame, if_neg (by rw [lex_enclosed]; exact List.cons_ne_nil _ _)]
    exact congrArg Except.error hfault'
  rw [lex_enclosed]
  cases halt with
  | fault e rest =>
      cases hhalt
      obtain ⟨front, token, opened, htokens, hfront, haccept⟩ := readForms_eq_fault hforms
      have hcloser : opened = [] → token.kind ≠ .closer .round := by
        rintro rfl hkind
        exact hnone _ (.cut htokens hkind hfront)
      obtain ⟨fault', hfault'⟩ := @accept_fault_enclosed limits n opened (forms.reverse ++ [.symbol "do"]) token
        fault hn haccept hcloser
      have hread : ∀ back, readForm limits [] (.single (.opener .round) '(' :: ⟨.atom, "do"⟩ ::
          (front ++ token :: back)) = .error (.fault (.read fault') back) := by
        intro back
        refine ((leads_sequence hn hfront).readForm_within (token :: back)).trans ?_
        rw [readForm, hfault']
      rw [htokens, List.append_assoc, List.cons_append, hread]
      exact ⟨_, fault', rfl, rfl⟩
  | outOfTokens opened =>
      have hread := (leads_sequence hn hforms).readForm_within
        (if (lex source).unclosed then [] else [⟨.atom, "nil"⟩, .single (.closer .round) ')'])
      cases hunclosed : (lex source).unclosed with
      | true =>
          rw [hunclosed] at hread
          exact ⟨_, .unclosedString, hread, by rw [Lexed.fault?, hunclosed]; rfl⟩
      | false =>
          rw [hunclosed] at hread
          rw [Lexed.fault?_eq_none.mpr hunclosed]
          cases hsettle : Progress.settle opened .nil with
          | complete v =>
              have hnil : readForms { limits with nesting := n } opened [⟨.atom, "nil"⟩] = ([v], .outOfTokens []) := by
                have haccept : Progress.accept { limits with nesting := n } opened ⟨.atom, "nil"⟩ =
                    .ok (Progress.settle opened .nil) := rfl
                rw [readForms, haccept, hsettle]
                rfl
              have hwhole : readAll { limits with nesting := n } (source ++ "\nnil") = .ok (forms ++ [v]) := by
                rw [readAll_eq_ok_iff, lex_nilLine hunclosed, readForms_append hforms, hnil]
                exact ⟨rfl, rfl⟩
              exact absurd (.whole hwhole) (hnone _)
          | within opened' =>
              obtain ⟨halt, fault', hhalt, hfault'⟩ := @readForm_nilCloser limits opened opened' _ hsettle
              exact ⟨halt, fault', hread.trans hhalt, hfault'⟩

end

/-! ### Texts that start with the mark of a keyword -/

/-- A word at the beginning of a text is its first token. -/
theorem lex_word {c : Char} {word rest : List Char} (hword : ∀ d ∈ c :: word, isAtomChar d = true)
    (hrest : ∀ d ∈ rest.head?, isAtomChar d = false) :
    lex (String.ofList (c :: word ++ rest)) =
      (LexMode.between.lexAll rest).behind [⟨.atom, String.ofList (c :: word)⟩] := by
  have hlex := (Token.Fits.atom (List.cons_ne_nil c word) hword hrest).lexAll
  rw [String.toList_ofList] at hlex
  rw [lex_eq, String.toList_ofList, ← hlex]
  rfl

theorem readAll_behind {limits : Limits} {source : String} {lexed : Lexed} {t : Token} {v : Value}
    (hlex : lex source = lexed.behind [t]) (ht : Progress.accept limits [] t = .ok (.complete v)) :
    readAll limits source =
      match readForms limits [] lexed.tokens with
      | (forms, .outOfTokens []) => lexed.fault?.elim (.ok (v :: forms)) .error
      | (_, halt) => .error (halt.error lexed.fault?) := by
  have hfault : (lexed.behind [t]).fault? = lexed.fault? := rfl
  have htokens : (lexed.behind [t]).tokens = t :: lexed.tokens := rfl
  rw [readAll, readPrefix_eq, hlex, hfault, htokens, readForms, ht]
  rcases readForms limits [] lexed.tokens with ⟨forms, _ | (_ | _)⟩
  · rfl
  · cases lexed.fault? <;> rfl
  · rfl

/-- A word that begins like no integer is read, whatever the limits are. -/
theorem accept_word (limits : Limits) {c : Char} (word : List Char) (hsign : c ≠ '-')
    (hdigit : Text.digitValue? c = none) :
    ∃ v, Progress.accept limits [] ⟨.atom, String.ofList (c :: word)⟩ = .ok (.complete v) := by
  have hnumeral : Numeral.ofChars? (c :: word) = none := by
    unfold Numeral.ofChars?
    split
    · next heq => exact absurd (List.cons.inj heq).1 hsign
    · simp [Numeral.digits?, List.mapM_cons, hdigit]
  refine ⟨.ofWord (String.ofList (c :: word)), ?_⟩
  simp only [Progress.accept, Value.ofAtom, String.toList_ofList, hnumeral]
  rfl

/-- Printing a text leaves what is at fault in it. Only the mark in front of a keyword is printed as a colon, and
both begin a word. -/
theorem readAll_printText {limits : Limits} {text : String} {e : Error} (h : readAll limits text = .error e) :
    readAll limits (printText .raw text) = .error e := by
  unfold printText
  split
  · next hkeyword =>
      obtain ⟨cs, hcs⟩ : ∃ cs, text.toList = keywordMark :: cs := List.head?_eq_some_iff.mp (eq_of_beq hkeyword)
      obtain ⟨word, rest, rfl, hword, hrest⟩ := exists_span isAtomChar cs
      have htext : text = String.ofList (keywordMark :: word ++ rest) := by
        rw [← String.toList_inj, hcs, String.toList_ofList]
        rfl
      have hprinted : ":" ++ keywordName text = String.ofList (':' :: word ++ rest) := by
        rw [← String.toList_inj, keywordName, hcs]
        simp
      have hmark : ∀ c, isAtomChar c = true → ∀ d ∈ c :: word, isAtomChar d = true :=
        fun c hc => List.forall_mem_cons.mpr ⟨hc, hword⟩
      obtain ⟨v, hv⟩ := accept_word limits (c := keywordMark) word (by decide) (by decide +kernel)
      obtain ⟨w, hw⟩ := accept_word limits (c := ':') word (by decide) (by decide +kernel)
      rw [htext, readAll_behind (lex_word (hmark keywordMark (by decide)) hrest) hv] at h
      rw [hprinted, readAll_behind (lex_word (hmark ':' (by decide)) hrest) hw]
      split at h
      · cases hfault : (LexMode.between.lexAll rest).fault? with
        | none =>
            rw [hfault] at h
            cases h
        | some e' =>
            rw [hfault] at h
            exact h
      · exact h
  · exact h

/-! ### Loading -/

namespace Session

theorem bindings_entered (m : Machine) (path : String) {frame : Nat} (hframe : frame ≠ m.frames.size) :
    (entered m path).frames.bindings frame = m.frames.bindings frame := by
  rw [entered, Frames.bindings, Frames.getElem?_extend, if_neg hframe]
  rfl

/-- The machine when the forms of a file are about to be evaluated: the arguments are bound, and there is the frame of
the call that loads the file. -/
def loading (m : Machine) (path : String) (argv : List String) : Machine :=
  entered { m with frames := m.frames.set rootFrame "*ARGV*" (.list (argv.map .text)) } path

/-- **What loading does with a file that is at fault.** In a session where what loading looks up is as in a new
session, let a path lead to a file whose text cannot be read whole, with a level of nesting to spare. Unless brackets
make a sequence of the text, loading the file fails because of the text, and has only bound the arguments by then.
If they do, loading is evaluating that sequence. -/
theorem loadFile_malformed {s : Session} (hs : s.Reachable) (hloader : s.LoaderIntact) {ctx : Context}
    {path text : String} {fault : ReadFault} {nesting : Nat} (hpath : isKeyword path = false)
    (hfile : fileText ctx path = .ok text)
    (hfault : readAll { ctx.limits with nesting } text = .error (.read fault))
    (hnesting : nesting < ctx.limits.nesting) (argv : List String) :
    ((∀ forms, ¬Sequenced { ctx.limits with nesting } (printText .raw text) forms) →
      ∃ fault' t, Ends (loadFile path argv) ctx s (.error (.read fault'), t) ∧
        t.machine = loading s.machine path argv ∧ t.machine.output = s.machine.output ∧
        t.machine.frames.bindings rootFrame =
          Assoc.insert "*ARGV*" (.list (argv.map .text)) (s.machine.frames.bindings rootFrame)) ∧
    ∀ forms, Sequenced { ctx.limits with nesting } (printText .raw text) forms → ∀ r m,
      (∃ t, Ends (loadFile path argv) ctx s (r, t) ∧ t.machine = m) ↔
        Recursive.evaluate (.list (.symbol "do" :: forms)) rootFrame ctx (loading s.machine path argv) =
          some (r, m) := by
  obtain ⟨m₀, hbind, hscoped, -, hnames⟩ := bindName_argv hs.wellScoped hloader ctx argv
  have hm₀ : entered m₀ path = loading s.machine path argv := by
    rw [EvalM.bindName_apply] at hbind
    cases hbind
    rfl
  have hloaded := evaluate_load hscoped path hnames hpath hfile (Nat.zero_lt_of_lt hnesting)
  rw [hm₀, firstForm, spliced] at hloaded
  have hload := @Denotes.loadFile ctx path argv
  refine ⟨fun hnone => ?_, fun forms hforms r m => ?_⟩
  · obtain ⟨fault', hfirst⟩ := readFirst_fault_enclosed hnesting (readAll_printText hfault) hnone
    rw [hfirst] at hloaded
    obtain ⟨t, ht, hends⟩ := hload.complete s _ _ ((bind_of_ok hbind).trans hloaded)
    have hsize : rootFrame ≠ (s.machine.frames.set rootFrame "*ARGV*" (.list (argv.map .text))).size := by
      rw [Frames.size_set]
      exact Nat.ne_of_lt hs.wellScoped.size_pos
    refine ⟨fault', t, hends, ht, by rw [ht]; rfl, ?_⟩
    rw [ht, loading, bindings_entered _ _ hsize]
    exact Frames.bindings_set hs.wellScoped.size_pos _ _
  · rw [hforms.readFirst hnesting] at hloaded
    have hloaded : Recursive.evaluate (.list [.symbol "load-file", .text path]) rootFrame ctx m₀ =
        Recursive.evaluate (.list (.symbol "do" :: forms)) rootFrame ctx (loading s.machine path argv) := hloaded
    rw [← hloaded]
    constructor
    · rintro ⟨t, hends, rfl⟩
      exact (bind_of_ok hbind).symm.trans (hload.of_ends hends)
    · intro h
      obtain ⟨t, ht, hends⟩ := hload.complete s r m ((bind_of_ok hbind).trans h)
      exact ⟨t, hends, ht⟩

/-- A single file. -/
def fileWith (text : String) : Context :=
  ⟨{}, fun path =>
    if path = "lib" then .ok (text.toList.map fun c => c.toNat.toUInt8) else .error .notFound⟩

/-- A file with one parenthesis too many: the text is at fault, and yet loading it evaluates what is in front of that
parenthesis, takes no notice of what is behind it, and gives the value of the last form. -/
theorem loadFile_strayCloser :
    readAll {} "(prn 1)) (prn 2)" = .error (.read (.strayCloser ")")) ∧
      ∃ t, loadFile "lib" [] (fileWith "(prn 1)) (prn 2)") initial = some (.ok .nil, t) ∧
        t.machine.output = "1\n" := by
  refine ⟨rfl, ?_⟩
  have hrun : ((loadFile "lib" [] (fileWith "(prn 1)) (prn 2)") initial).map fun outcome =>
      (outcome.1.toOption, outcome.2.machine.output)) = some (some .nil, "1\n") := by decide +kernel
  obtain ⟨⟨r, t⟩, hload, hrun⟩ := Option.map_eq_some_iff.mp hrun
  obtain ⟨hr, hout⟩ := Prod.mk.inj hrun
  exact ⟨t, eq_ok_of_toOption hr ▸ hload, hout⟩

/-- A file with a bracket that nothing closes is rejected whole, though it begins with a form that could be
evaluated. -/
theorem loadFile_malformed_openBracket :
    ∃ fault t, Ends (loadFile "lib" []) (fileWith "(prn 1) [") initial (.error (.read fault), t) ∧
      t.machine.output = initial.machine.output := by
  have hs : initial.Reachable := .start _ _
  have hloader : initial.LoaderIntact := fun _ _ => rfl
  have hfile : fileText (fileWith "(prn 1) [") "lib" = .ok "(prn 1) [" := by rfl
  have hfault : readAll { (fileWith "(prn 1) [").limits with nesting := 2 } "(prn 1) [" =
      .error (.read (.missingCloser .square)) := rfl
  have hnone : ∀ forms, ¬Sequenced { (fileWith "(prn 1) [").limits with nesting := 2 }
      (printText .raw "(prn 1) [") forms := by
    intro forms h
    cases h with
    | whole hforms => cases hforms
    | @cut front back closer htokens hcloser hforms =>
        -- the only closing parenthesis stands inside a bracket
        have htokens : [.single (.opener .round) '(', ⟨.atom, "prn"⟩, ⟨.atom, "1"⟩, .single (.closer .round) ')',
            .single (.opener .square) '['] = front ++ closer :: back := htokens
        rcases front with _ | ⟨_, _ | ⟨_, _ | ⟨_, _ | ⟨_, _ | ⟨_, front⟩⟩⟩⟩⟩
        all_goals simp only [List.nil_append, List.cons_append, List.cons.injEq] at htokens
        · obtain ⟨rfl, -⟩ := htokens
          cases hcloser
        · obtain ⟨-, rfl, -⟩ := htokens
          cases hcloser
        · obtain ⟨-, -, rfl, -⟩ := htokens
          cases hcloser
        · obtain ⟨rfl, rfl, rfl, -⟩ := htokens
          cases hforms
        · obtain ⟨-, -, -, -, rfl, -⟩ := htokens
          cases hcloser
        · simp at htokens
  obtain ⟨fault, t, hends, -, houtput, -⟩ :=
    (loadFile_malformed hs hloader (by decide) hfile hfault (by decide) []).1 hnone
  exact ⟨fault, t, hends, houtput⟩

end Session

end SmallLisp
