import SmallLisp.Proofs.Application
import SmallLisp.Proofs.Layout
import SmallLisp.Proofs.Loading

/-! Strings written down and put together. The literal of a string is one token in front of whatever text, and stands
for the string. What `str` puts together is what is printed of its arguments, one after the other, so that strings can
be put together piece by piece. Only symbols are an exception: their names may begin with the mark of keywords, and a
text that begins with such a name is a keyword, and is printed as one from then on. -/

namespace SmallLisp

open EvalM SmallLisp.Computation

/-! ### Literals -/

/-- **String literals encode and decode.** In front of any text, the literal of a string is the first token, as it
stands, and then come the tokens of the text and the fault behind them: once that token is taken, what is left is the
stream of the text. The token stands for the string. -/
theorem lex_literal (s rest : String) :
    lex (Text.stringLiteral s ++ rest) = (lex rest).behind [⟨.string, Text.stringLiteral s⟩] ∧
    (TokenStream.ofSource (Text.stringLiteral s ++ rest)).advance =
      (.ok (some ⟨.string, Text.stringLiteral s⟩), .ofSource rest) ∧
    Text.ofStringLiteral (Text.stringLiteral s) = s := by
  have hlex : lex (Text.stringLiteral s ++ rest) = (lex rest).behind [⟨.string, Text.stringLiteral s⟩] := by
    rw [lex_eq, lex_eq, String.toList_append]
    exact LexMode.lexAll_of_scan (LexMode.scan_stringLiteral s) rest.toList
  refine ⟨hlex, ?_, Text.ofStringLiteral_stringLiteral s⟩
  rw [TokenStream.ofSource, hlex]
  rfl

/-- Backslashes in front of a quote, of the letter n and of the end are told from those that escape. -/
example : Text.stringLiteral "\\\"\\n\n\\" = "\"\\\\\\\"\\\\n\\n\\\\\"" ∧
    lex "\"\\\\\\\"\\\\n\\n\\\\\"\\\"" = ⟨[⟨.string, "\"\\\\\\\"\\\\n\\n\\\\\""⟩, ⟨.atom, "\\"⟩], true⟩ := by decide

/-! ### The beginning of what is printed -/

/-- Printed as they are, one after the other, the values begin with the mark of keywords: a symbol does, and nothing is
printed of the values in front of it. -/
inductive BeginMarked : List Value → Prop
  | symbol {name : String} (vs : List Value) : isKeyword name = true → BeginMarked (.symbol name :: vs)
  | behind {v : Value} {vs : List Value} : v = .text "" ∨ v = .symbol "" → BeginMarked vs → BeginMarked (v :: vs)

section

variable {limits : Limits} {digits room : Nat} {v : Value} {shown s t : String}

theorem isKeyword_append (s t : String) : isKeyword (s ++ t) = if s = "" then isKeyword t else isKeyword s := by
  split
  · next h => rw [h, String.empty_append]
  · next h =>
      obtain ⟨c, cs, hcs⟩ := List.exists_cons_of_ne_nil (fun hnil => h (String.toList_eq_nil_iff.mp hnil))
      simp [isKeyword, hcs]

/-- A text that is printed as it is never begins with the mark, since a keyword is printed with a colon in its place. -/
theorem isKeyword_printText (s : String) : isKeyword (printText .raw s) = false := by
  unfold printText
  split
  · simp [isKeyword, keywordMark]
  · next h => exact Bool.eq_false_iff.mpr h

/-- Nothing is lost of a text that is printed as it is. -/
theorem length_printText (s : String) : (printText .raw s).toList.length = s.toList.length := by
  unfold printText
  split
  · next h =>
      obtain ⟨name, hname⟩ : ∃ name, s.toList = keywordMark :: name := List.head?_eq_some_iff.mp (eq_of_beq h)
      simp [keywordName, hname]
  · rfl

theorem printText_eq_self_iff : printText .raw s = s ↔ isKeyword s = false := by
  constructor
  · intro h
    rw [← h, isKeyword_printText]
  · intro h
    rw [printText, h]
    rfl

/-- Two texts that are printed one after the other stay as they are exactly if each of them does. -/
theorem printText_append_eq_iff :
    printText .raw s ++ printText .raw t = s ++ t ↔ isKeyword s = false ∧ isKeyword t = false := by
  rw [← printText_eq_self_iff, ← printText_eq_self_iff]
  constructor
  · intro h
    have hchars := congrArg String.toList h
    rw [String.toList_append, String.toList_append] at hchars
    obtain ⟨hs, ht⟩ := List.append_inj hchars (length_printText s)
    exact ⟨String.toList_inj.mp hs, String.toList_inj.mp ht⟩
  · rintro ⟨hs, ht⟩
    rw [hs, ht]

/-- What is printed of an integer begins with a sign or a digit. -/
theorem head?_decimalText {n : Int} (h : decimalText digits n = .ok shown) :
    ∃ c, shown.toList.head? = some c ∧ c ≠ keywordMark := by
  unfold decimalText at h
  split at h
  · cases h
    split
    · exact ⟨'-', by simp, by decide⟩
    · obtain ⟨c, cs, hcs⟩ := List.exists_cons_of_ne_nil (@Nat.toDigits_ne_nil n.natAbs 10)
      have hdigit : c.isDigit = true :=
        Nat.isDigit_of_mem_toDigits (by decide) (by decide) (hcs ▸ List.mem_cons_self)
      refine ⟨c, by rw [Nat.toList_repr, hcs, List.head?_cons], ?_⟩
      rintro rfl
      cases hdigit
  · cases h

/-- What is printed of a value that is no symbol and no text begins with a bracket, a sign, a digit or a letter. -/
theorem Value.head?_print (h : printWithin digits .raw room v = .ok shown) (hsymbol : ∀ name, v ≠ .symbol name)
    (htext : ∀ s, v ≠ .text s) : ∃ c, shown.toList.head? = some c ∧ c ≠ keywordMark := by
  cases room with
  | zero => cases h
  | succ room =>
      cases v with
      | symbol name => exact absurd rfl (hsymbol name)
      | text s => exact absurd rfl (htext s)
      | int n => exact head?_decimalText h
      | nil | closure | builtin =>
          cases h
          exact ⟨_, rfl, by decide⟩
      | bool b =>
          cases h
          cases b <;> exact ⟨_, rfl, by decide⟩
      | list | vector | map =>
          obtain ⟨parts, -, h⟩ := bind_eq_ok h
          cases h
          exact ⟨_, by rw [bracketed, String.toList_append, String.toList_append]; rfl, by decide⟩

/-- What is printed of a value, with more behind it, begins with the mark exactly if the value is a symbol whose name
does, or if nothing is printed of it and the mark is behind it. -/
theorem Value.isKeyword_print_append (h : printWithin digits .raw room v = .ok shown) (s : String) :
    isKeyword (shown ++ s) = true ↔
      (∃ name, v = .symbol name ∧ isKeyword name = true) ∨ (v = .text "" ∨ v = .symbol "") ∧ isKeyword s = true := by
  have hempty : isKeyword "" = false := by decide
  -- only symbols and texts are printed as characters of their own, and among these there may be none
  by_cases hsymbol : ∃ name, v = .symbol name
  · obtain ⟨name, rfl⟩ := hsymbol
    obtain rfl : name = shown := by
      cases room <;> cases h
      rfl
    by_cases hname : name = "" <;> simp [isKeyword_append, hname, hempty]
  by_cases htext : ∃ text, v = .text text
  · obtain ⟨text, rfl⟩ := htext
    obtain rfl : printText .raw text = shown := by
      cases room <;> cases h
      rfl
    have hlength := length_printText text
    by_cases hnone : text = ""
    · simp [hnone, show printText .raw "" = "" by decide]
    · have hshown : printText .raw text ≠ "" := fun h => hnone (by simpa [h] using hlength.symm)
      simp [isKeyword_append, hshown, hnone, isKeyword_printText]
  · obtain ⟨c, hc, hmark⟩ := head?_print h (fun name hv => hsymbol ⟨name, hv⟩) fun text hv => htext ⟨text, hv⟩
    have hplain : isKeyword (shown ++ s) = false := by
      simp [isKeyword, List.head?_append, hc, hmark]
    rw [hplain]
    constructor
    · intro h
      cases h
    · rintro (⟨name, hv, -⟩ | ⟨hv | hv, -⟩)
      · exact absurd ⟨name, hv⟩ hsymbol
      · exact absurd ⟨"", hv⟩ htext
      · exact absurd ⟨"", hv⟩ hsymbol

end

/-! ### The function `str` -/

section

variable {ctx : Context} {xs ys vs args : List Value} {s : String}

/-- What is put together of values that can be printed begins with the mark exactly if their printed forms do. -/
theorem Value.isKeyword_printAll_iff {limits : Limits} (h : printAll limits .raw "" vs = .ok s) :
    isKeyword s = true ↔ BeginMarked vs := by
  induction vs generalizing s with
  | nil =>
      cases h
      exact ⟨fun h => absurd h (by decide), nofun⟩
  | cons v vs ih =>
      rw [← List.singleton_append, printAll_append, printAll_singleton] at h
      obtain ⟨shown, hshown, h⟩ := bind_eq_ok h
      obtain ⟨rest, hrest, h⟩ := bind_eq_ok h
      cases h
      rw [isKeyword_print_append hshown, ih hrest]
      constructor
      · rintro (⟨name, rfl, hname⟩ | ⟨hv, hvs⟩)
        · exact .symbol vs hname
        · exact .behind hv hvs
      · intro h
        cases h with
        | symbol _ hname => exact .inl ⟨_, rfl, hname⟩
        | behind hv hvs => exact .inr ⟨hv, hvs⟩

theorem Primitive.exists_run_str (h : ∀ v ∈ vs, ∃ shown, v.print ctx.limits .raw = .ok shown) :
    ∃ s, Value.printAll ctx.limits .raw "" vs = .ok s ∧ run ctx .str vs = .ok (.text s) := by
  obtain ⟨parts, hparts⟩ := exists_mapM_ok h
  have hprint : Value.printAll ctx.limits .raw "" vs = .ok ("".intercalate parts) := by
    rw [Value.printAll, hparts]
    rfl
  exact ⟨_, hprint, by rw [run, hprint]; rfl⟩

theorem Primitive.run_str_pair (hnesting : 0 < ctx.limits.nesting) (s t : String) :
    run ctx .str [.text s, .text t] = .ok (.text (printText .raw s ++ printText .raw t)) := by
  simpa using run_str_texts hnesting [s, t]

/-- A primitive that is applied to variables is found to have the value that it has for their values. -/
theorem finds_application {name : String} {p : Primitive} {names : List String} {v : Value} {m : Machine} {frame : Nat}
    (hname : SpecialForm.ofName? name = none) (hfn : m.frames.get? frame name = some (.builtin (.primitive p)))
    (hargs : m.Sees frame names args) (hrun : p.run ctx args = .ok v) (steps room : Nat) :
    Finds (run (steps + 2) (room + 1)) ctx m frame (application name names) v := by
  have hforms : List.Forall₂ (Finds (run (steps + 1) room) ctx m frame) (names.map .symbol) args :=
    hargs.finds steps room
  calc run (steps + 2) (room + 1) (.eval (application name names) frame) ctx m
      = some (p.run ctx args, m) := run_primitive_application hname hfn hforms
    _ = some (.ok v, m) := by rw [hrun]

/-- **Strings are put together piece by piece.** Of values that can be printed, `str` puts together a text. This text is
a string, and no keyword, exactly if the printed forms do not begin with the mark of a symbol's name. The texts of two
lists of values make up, one behind the other, the text of both lists; and `str` puts them together to this text again
exactly if neither list begins with the mark. Applications do the same: with variables that stand for the values, a
single one ends with the text of both lists, and one around two others with what is put together of their texts, and
they do nothing else. The text that loading a file reads is put together in this way, too: it always is a string, and
it has the text of the file in it as it is exactly if this is no keyword. -/
theorem str_composes (hnesting : 0 < ctx.limits.nesting)
    (hprint : ∀ v ∈ xs ++ ys, ∃ shown, v.print ctx.limits .raw = .ok shown) :
    (∃ s t, Primitive.run ctx .str xs = .ok (.text s) ∧ Primitive.run ctx .str ys = .ok (.text t) ∧
      Primitive.run ctx .str (xs ++ ys) = .ok (.text (s ++ t)) ∧
      (Primitive.run ctx (.test .isString) [.text s] = .ok (.bool true) ↔ ¬BeginMarked xs) ∧
      (Primitive.run ctx (.test .isKeyword) [.text s] = .ok (.bool true) ↔ BeginMarked xs) ∧
      (Primitive.run ctx .str [.text s, .text t] = Primitive.run ctx .str (xs ++ ys) ↔
        ¬BeginMarked xs ∧ ¬BeginMarked ys) ∧
      ∀ (m : Machine) (frame : Nat) (names names' : List String),
        m.frames.get? frame "str" = some (.builtin (.primitive .str)) → m.Sees frame names xs →
        m.Sees frame names' ys →
          Ends (evaluate (application "str" (names ++ names')) frame) ctx m
            (Primitive.run ctx .str (xs ++ ys), m) ∧
          Ends (evaluate (.list [.symbol "str", application "str" names, application "str" names']) frame) ctx m
            (Primitive.run ctx .str [.text s, .text t], m)) ∧
    ∀ text, Primitive.run ctx .str [.text "(do ", .text text, .text "\nnil)"] = .ok (.text (Session.spliced text)) ∧
      Primitive.run ctx (.test .isString) [.text (Session.spliced text)] = .ok (.bool true) ∧
      (Session.spliced text = "(do " ++ text ++ "\nnil)" ↔ isKeyword text = false) := by
  obtain ⟨s, hs, hrunS⟩ := Primitive.exists_run_str fun v hv => hprint v (List.mem_append_left ys hv)
  obtain ⟨t, ht, hrunT⟩ := Primitive.exists_run_str fun v hv => hprint v (List.mem_append_right xs hv)
  have hboth : Primitive.run ctx .str (xs ++ ys) = .ok (.text (s ++ t)) := by
    rw [Primitive.run, Value.printAll_append, hs, ht]
    rfl
  have hmarkS := Value.isKeyword_printAll_iff hs
  have hmarkT := Value.isKeyword_printAll_iff ht
  refine ⟨⟨s, t, hrunS, hrunT, hboth, ?_, ?_, ?_, fun m frame names names' hstr hxs hys => ⟨?_, ?_⟩⟩, fun text =>
    ⟨Session.run_str_spliced hnesting text, ?_, ?_⟩⟩
  · rw [← hmarkS]
    simp [Primitive.run, Value.passes]
  · rw [← hmarkS]
    simp [Primitive.run, Value.passes]
  · rw [← hmarkS, ← hmarkT, hboth, Primitive.run_str_pair hnesting]
    simp [printText_append_eq_iff]
  · refine .of_surplus 1 2 fun depth steps => ?_
    rw [evaluate, perform_allowing]
    exact run_primitive_application rfl hstr ((hxs.append hys).finds steps depth)
  · refine .of_surplus 2 3 fun depth steps => ?_
    have hargs : List.Forall₂ (Finds (run (steps + 2) (depth + 1)) ctx m frame)
        [application "str" names, application "str" names'] [.text s, .text t] :=
      .cons (finds_application rfl hstr hxs hrunS steps depth)
        (.cons (finds_application rfl hstr hys hrunT steps depth) .nil)
    rw [evaluate, perform_allowing]
    exact run_primitive_application rfl hstr hargs
  · simp [Primitive.run, Value.passes, Session.isKeyword_spliced]
  · rw [← printText_eq_self_iff]
    simp [Session.spliced]

end

/-- A list and a vector, printed together and each by itself. -/
theorem str_composes_form :
    Ends (evaluate (application "str" ["form", "xs"]) 1) Session.noFiles Session.withForm
      (.ok (.text "(+ 1 2)[(+ 1 2)]"), Session.withForm) ∧
    Ends (evaluate (.list [.symbol "str", application "str" ["form"], application "str" ["xs"]]) 1) Session.noFiles
      Session.withForm (.ok (.text "(+ 1 2)[(+ 1 2)]"), Session.withForm) := by
  let form : Value := .list [.symbol "+", .int 1, .int 2]
  have hstr : Session.withForm.frames.get? 1 "str" = some (.builtin (.primitive .str)) := by decide +kernel
  have hnames := Session.get?_withForm.1
  simp only [List.forall_mem_cons] at hnames
  obtain ⟨-, -, hform, hxs, -⟩ := hnames
  have hprint : ∀ v ∈ [form] ++ [.vector [form]], ∃ shown, v.print Session.noFiles.limits .raw = .ok shown := by
    simp only [List.cons_append, List.nil_append, List.forall_mem_cons]
    exact ⟨⟨"(+ 1 2)", by decide +kernel⟩, ⟨"[(+ 1 2)]", by decide +kernel⟩, nofun⟩
  have hplain : ∀ v : Value, v.elements?.isSome → ¬BeginMarked [v] := by
    rintro v hv (_ | ⟨rfl | rfl, -⟩) <;> cases hv
  obtain ⟨⟨s, t, -, -, -, -, -, hsame, hends⟩, -⟩ := str_composes (by decide) hprint
  obtain ⟨hjoint, hnested⟩ := hends Session.withForm 1 ["form"] ["xs"] hstr (.cons hform .nil) (.cons hxs .nil)
  have hshown : Value.printAll Session.noFiles.limits .raw "" ([form] ++ [.vector [form]]) =
      .ok "(+ 1 2)[(+ 1 2)]" := by decide +kernel
  have hvalue : Primitive.run Session.noFiles .str ([form] ++ [.vector [form]]) = .ok (.text "(+ 1 2)[(+ 1 2)]") := by
    rw [Primitive.run, hshown]
    rfl
  rw [hsame.mpr ⟨hplain form rfl, hplain (.vector [form]) rfl⟩, hvalue] at hnested
  rw [hvalue] at hjoint
  exact ⟨hjoint, hnested⟩

/-- A symbol whose name begins with the mark can be read behind a blank. What is put together of it is no string, and a
string behind it does not give what the two texts give that are put together of each. -/
theorem str_markedSymbol :
    ((Session.runFirst
        "(let* (s (read-string \" ʞa\")) (vector s (string? (str s)) (str s \"b\") (str (str s) (str \"b\"))))"
        Session.noFiles Session.initial).map fun outcome => outcome.1.toOption) =
      some (some (some (.vector [.symbol "ʞa", .bool false, .text "ʞab", .text ":ab"]))) := by
  decide +kernel

end SmallLisp
