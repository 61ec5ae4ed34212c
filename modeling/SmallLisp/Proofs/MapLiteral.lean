import SmallLisp.Proofs.Application
import SmallLisp.Proofs.Enclosing
import SmallLisp.Proofs.Recursion

/-! Map literals. A map in curly brackets is read as a map of forms, and evaluated form by form; a call of `hash-map`
is read as a list, its arguments are evaluated, the keys among them, and the function puts keys and values together.
Where no key stands twice, both come to the same: the forms are evaluated once each, from left to right, and their
values are bound to the keys in this order. -/

namespace SmallLisp

open EvalM SmallLisp.Computation

/-! ### Brackets around a text -/

/-- A closing bracket finishes what is neither inside a string nor inside a comment. -/
theorem LexMode.scan_closer {mode : LexMode} (hstring : mode.inString = false) (hcomment : mode ≠ .comment)
    (bracket : Bracket) :
    mode.scan [bracket.closing] = (mode.finish ++ [.single (.closer bracket) bracket.closing], .between) := by
  cases mode with
  | comment => exact absurd rfl hcomment
  | string | escaped => cases hstring
  | _ => cases bracket <;> rfl

/-- The tokens of a text with something in front of it and a closing bracket behind it. -/
theorem lex_bracketed {front inner : String} {tokens : List Token}
    (hfront : LexMode.between.scan front.toList = (tokens, .between)) (hclosed : (lex inner).unclosed = false)
    (hcomment : (LexMode.between.scan inner.toList).2 ≠ .comment) (bracket : Bracket) :
    lex (front ++ inner ++ bracket.closing.toString) =
      ⟨tokens ++ ((lex inner).tokens ++ [.single (.closer bracket) bracket.closing]), false⟩ := by
  rw [lex_eq] at hclosed
  have hchars : (front ++ inner ++ bracket.closing.toString).toList =
      front.toList ++ (inner.toList ++ [bracket.closing]) := by simp
  rw [lex_eq, hchars, LexMode.scan_append, hfront, LexMode.scan_append, LexMode.scan_closer hclosed hcomment,
    lex_eq inner]
  simp [LexMode.finish, LexMode.inString]

/-! ### Keys and forms in turn -/

/-- Keys and values in turn, as they stand in a map literal and among the arguments of `hash-map`. -/
def Value.inTurn (entries : List (String × Value)) : List Value := entries.flatMap fun entry => [.text entry.1, entry.2]

section

variable {limits : Limits} {n : Nat} {inner : String} {entries : List (String × Value)}

theorem readFirst_mapLiteral (hread : readAll { limits with nesting := n } inner = .ok (Value.inTurn entries))
    (hn : n < limits.nesting) (hcomment : (LexMode.between.scan inner.toList).2 ≠ .comment)
    (hkeys : (entries.map Prod.fst).Nodup) :
    readFirst limits ("\x7b" ++ inner ++ "\x7d") = .ok (some (.map entries)) := by
  obtain ⟨hforms, hclosed⟩ := readAll_eq_ok_iff.mp hread
  have hitems : Value.ofItems limits .curly (Value.inTurn entries) = .ok (.map entries) := by
    rw [Value.inTurn, Value.ofItems_entries, Assoc.ofPairs_of_nodup hkeys]
  have hlex : lex ("\x7b" ++ inner ++ "\x7d") = _ :=
    @lex_bracketed "\x7b" inner [.single (.opener .curly) '\x7b'] (by decide) hclosed hcomment .curly
  refine readFirst_of_readForm ⟨[], ?_⟩
  rw [hlex]
  exact readForm_bracketed rfl rfl hn hforms hitems

theorem readFirst_hashMapCall (hread : readAll { limits with nesting := n } inner = .ok (Value.inTurn entries))
    (hn : n < limits.nesting) (hcomment : (LexMode.between.scan inner.toList).2 ≠ .comment) :
    readFirst limits ("(hash-map " ++ inner ++ ")") =
      .ok (some (.list (.symbol "hash-map" :: Value.inTurn entries))) := by
  obtain ⟨hforms, hclosed⟩ := readAll_eq_ok_iff.mp hread
  have hcall : readForms { limits with nesting := n } [] (⟨.atom, "hash-map"⟩ :: (lex inner).tokens) =
      (.symbol "hash-map" :: Value.inTurn entries, .outOfTokens []) := by
    have haccept : Progress.accept { limits with nesting := n } [] ⟨.atom, "hash-map"⟩ =
        .ok (.complete (.symbol "hash-map")) := rfl
    rw [readForms, haccept, hforms]
  have hlex : lex ("(hash-map " ++ inner ++ ")") = _ :=
    @lex_bracketed "(hash-map " inner [.single (.opener .round) '(', ⟨.atom, "hash-map"⟩] (by decide) hclosed
      hcomment .round
  refine readFirst_of_readForm ⟨[], ?_⟩
  rw [hlex]
  exact readForm_bracketed rfl rfl hn hcall rfl

end

/-! ### Evaluating them -/

section

variable {f : Value → EvalM Value}

/-- The forms of a map are evaluated from left to right, and the keys are given to their values. -/
theorem mapM_entries (f : Value → EvalM Value) (entries : List (String × Value)) :
    (entries.mapM fun (key, form) => do return (key, ← f form)) =
      (entries.map Prod.snd).mapM f >>= fun vs => pure ((entries.map Prod.fst).zip vs) := by
  induction entries with
  | nil => rfl
  | cons entry entries ih =>
      obtain ⟨key, form⟩ := entry
      simp only [List.mapM_cons, List.map_cons, ih, bind_assoc, pure_bind, List.zip_cons_cons]

/-- Among arguments, the keys are their own values, and so the forms between them are evaluated in the same way. -/
theorem mapM_inTurn (hkey : ∀ key, f (.text key) = pure (.text key)) (entries : List (String × Value)) :
    (Value.inTurn entries).mapM f =
      (entries.map Prod.snd).mapM f >>= fun vs => pure (Value.inTurn ((entries.map Prod.fst).zip vs)) := by
  induction entries with
  | nil => rfl
  | cons entry entries ih =>
      obtain ⟨key, form⟩ := entry
      have hrest : Value.inTurn ((key, form) :: entries) = .text key :: form :: Value.inTurn entries := rfl
      simp only [hrest, List.mapM_cons, List.map_cons, hkey, ih, bind_assoc, pure_bind, List.zip_cons_cons]
      rfl

end

/-- The function `hash-map` puts keys and values in turn together as they stand, if no key stands twice. -/
theorem Value.ofKeysAndValues_inTurn {entries : List (String × Value)} (hkeys : (entries.map Prod.fst).Nodup) :
    ofKeysAndValues (inTurn entries) = .ok (.map entries) := by
  rw [ofKeysAndValues, inTurn, pairUp?_entries]
  dsimp only
  rw [List.mapM_map]
  change (entries.mapM fun entry => (pure entry : Except Error (String × Value))) >>= _ = _
  rw [List.mapM_pure, List.map_id']
  exact congrArg (fun pairs => Except.ok (map pairs)) (Assoc.ofPairs_of_nodup hkeys)

theorem nodup_keys_zip {keys : List String} (hkeys : keys.Nodup) (vs : List Value) :
    ((keys.zip vs).map Prod.fst).Nodup := by
  have hfirst : (keys.zip vs).map Prod.fst = keys.take (min keys.length vs.length) := by
    rw [List.zip_eq_zip_take_min, List.map_fst_zip (by simp)]
  rw [hfirst]
  exact hkeys.sublist (List.take_sublist _ keys)

theorem length_of_mapM {f : Value → EvalM Value} {ctx : Context} {forms vs : List Value} {m m' : Machine}
    (h : forms.mapM f ctx m = some (.ok vs, m')) : vs.length = forms.length := by
  induction forms generalizing m vs with
  | nil =>
      cases h
      rfl
  | cons form forms ih =>
      rw [List.mapM_cons] at h
      rcases bind_eq_some h with ⟨v, m₁, -, h⟩ | ⟨e, m₁, -, h⟩
      · rcases bind_eq_some h with ⟨vs', m₂, hrest, h⟩ | ⟨e, m₂, -, h⟩
        · cases h
          rw [List.length_cons, List.length_cons, ih hrest]
        · cases h
      · cases h

section

variable {ctx : Context} {m : Machine} {frame : Nat} {entries : List (String × Value)}

/-- What both come to: the forms are evaluated, and their values bound to the keys. -/
def evalEntries (nested : Nested) (frame : Nat) (entries : List (String × Value)) : EvalM Value := do
  let vs ← (entries.map Prod.snd).mapM fun form => nested (.eval form frame)
  return .map ((entries.map Prod.fst).zip vs)

theorem run_mapLiteral (entries : List (String × Value)) (frame steps room : Nat) :
    run (steps + 1) room (.eval (.map entries) frame) ctx m =
      evalEntries (nestedRun steps room) frame entries ctx m := by
  have hentries : evalParts (nestedRun steps room) frame (.map entries) =
      evalEntries (nestedRun steps room) frame entries := by
    have hforms := mapM_entries (fun form => nestedRun steps room (.eval form frame)) entries
    simp only [evalParts, evalEntries, hforms, bind_assoc, pure_bind]
  have hstep : step (nestedRun steps room) (.eval (.map entries) frame) =
      evalEntries (nestedRun steps room) frame entries >>= fun v => pure (.value v) := by
    rw [← hentries]
    rfl
  exact run_of_value (congrFun (congrFun hstep ctx) m)

theorem run_hashMapCall (hfn : m.frames.get? frame "hash-map" = some (.builtin (.primitive .hashMap)))
    (hkeys : (entries.map Prod.fst).Nodup) (steps room : Nat) :
    run (steps + 2) (room + 1) (.eval (.list (.symbol "hash-map" :: Value.inTurn entries)) frame) ctx m =
      evalEntries (nestedRun (steps + 1) (room + 1)) frame entries ctx m := by
  apply run_of_value
  generalize hnested : nestedRun (steps + 1) (room + 1) = nested
  have hhead : nested (.eval (.symbol "hash-map") frame) ctx m = some (.ok (.builtin (.primitive .hashMap)), m) := by
    rw [← hnested]
    exact run_symbol hfn steps
  have hkey : ∀ key, nested (.eval (.text key) frame) = pure (.text key) := by
    intro key
    rw [← hnested]
    rfl
  have hanswer : ∀ vs, applyStep nested (.builtin (.primitive .hashMap))
      (Value.inTurn ((entries.map Prod.fst).zip vs)) frame = pure (.value (.map ((entries.map Prod.fst).zip vs))) := by
    intro vs
    funext ctx m
    have hrun : Primitive.run ctx .hashMap (Value.inTurn ((entries.map Prod.fst).zip vs)) =
        .ok (.map ((entries.map Prod.fst).zip vs)) := Value.ofKeysAndValues_inTurn (nodup_keys_zip hkeys vs)
    refine (bind_of_ok (read_apply ctx m)).trans ?_
    rw [hrun]
    rfl
  rw [step_application rfl, bind_of_ok hhead, mapM_inTurn hkey]
  simp only [evalEntries, bind_assoc, pure_bind, hanswer]

/-- A map is made with the keys that it is written with, in this order. -/
theorem exists_values_of_ends {v : Value} {m' : Machine}
    (h : Ends (evaluate (.map entries) frame) ctx m (.ok v, m')) :
    ∃ vs : List Value, vs.length = entries.length ∧ v = .map ((entries.map Prod.fst).zip vs) := by
  obtain ⟨n, hn⟩ := h
  have hrun := hn n (Nat.le_refl n) (n + 1) (Nat.le_add_right n 1)
  rw [evaluate, perform_allowing, run_mapLiteral, evalEntries] at hrun
  rcases bind_eq_some hrun with ⟨vs, m₁, hvs, hrun⟩ | ⟨e, m₁, -, hrun⟩
  · cases hrun
    exact ⟨vs, (length_of_mapM hvs).trans (List.length_map ..), rfl⟩
  · cases hrun

end

/-- **Map literals agree with calls of `hash-map`.** Let a text be read as keys and forms in turn, without a key that
stands twice, and not end inside a comment. In curly brackets, and in a list behind `hash-map`, it can be read as well
if one more level of nesting is allowed. Wherever `hash-map` is the predefined function and the limits are left aside,
the two forms that are read end with the same map or error and leave the same frames and the same output, or both do
not end; they are also the same within limits that allow for a part of a form. The keys of the map are those of the
text, in their order. -/
theorem mapLiteral_hashMap {ctx : Context} {n : Nat} {inner : String} {entries : List (String × Value)}
    (hread : readAll { ctx.limits with nesting := n } inner = .ok (Value.inTurn entries))
    (hn : n < ctx.limits.nesting) (hcomment : (LexMode.between.scan inner.toList).2 ≠ .comment)
    (hkeys : (entries.map Prod.fst).Nodup) :
    ∃ literal call, readFirst ctx.limits ("\x7b" ++ inner ++ "\x7d") = .ok (some literal) ∧
      readFirst ctx.limits ("(hash-map " ++ inner ++ ")") = .ok (some call) ∧
      ∀ (m : Machine) (frame : Nat),
        m.frames.get? frame "hash-map" = some (.builtin (.primitive .hashMap)) →
          (∀ outcome, Ends (evaluate literal frame) ctx m outcome ↔ Ends (evaluate call frame) ctx m outcome) ∧
          (∀ depth steps, evaluate literal frame (ctx.allowing (depth + 1) (steps + 2)) m =
            evaluate call frame (ctx.allowing (depth + 1) (steps + 2)) m) ∧
          ∀ v m', Ends (evaluate literal frame) ctx m (.ok v, m') →
            ∃ vs : List Value, vs.length = entries.length ∧ v = .map ((entries.map Prod.fst).zip vs) := by
  refine ⟨.map entries, .list (.symbol "hash-map" :: Value.inTurn entries),
    readFirst_mapLiteral hread hn hcomment hkeys, readFirst_hashMapCall hread hn hcomment, fun m frame hfn => ?_⟩
  have hsame : ∀ depth steps, evaluate (.map entries) frame (ctx.allowing (depth + 1) (steps + 2)) m =
      evaluate (.list (.symbol "hash-map" :: Value.inTurn entries)) frame (ctx.allowing (depth + 1) (steps + 2)) m := by
    intro depth steps
    rw [evaluate, evaluate, perform_allowing, perform_allowing, run_mapLiteral, run_hashMapCall hfn hkeys]
  exact ⟨ends_congr hsame, hsame, fun v m' => exists_values_of_ends⟩

/-- In a new session, the map of `:a` to what printing gives and of `"b"` to a sum. Both forms end with the same map,
and both print what its first form prints. -/
theorem mapLiteral_hashMap_effects :
    ∃ literal call, readFirst {} "\x7b:a (prn 1) \"b\" (+ 1 2)\x7d" = .ok (some literal) ∧
      readFirst {} "(hash-map :a (prn 1) \"b\" (+ 1 2))" = .ok (some call) ∧
      (∀ outcome, Ends (evaluate literal Session.rootFrame) Session.noFiles Session.initial.machine outcome ↔
        Ends (evaluate call Session.rootFrame) Session.noFiles Session.initial.machine outcome) ∧
      ∃ m : Machine, m.output = "1\n" ∧
        Ends (evaluate literal Session.rootFrame) Session.noFiles Session.initial.machine
          (.ok (.map [(keywordOf "a", .nil), ("b", .int 3)]), m) ∧
        Ends (evaluate call Session.rootFrame) Session.noFiles Session.initial.machine
          (.ok (.map [(keywordOf "a", .nil), ("b", .int 3)]), m) := by
  have hread : readAll { Session.noFiles.limits with nesting := 9 } ":a (prn 1) \"b\" (+ 1 2)" =
      .ok (Value.inTurn [(keywordOf "a", .list [.symbol "prn", .int 1]),
        ("b", .list [.symbol "+", .int 1, .int 2])]) := by rfl
  have hfn : Session.initial.machine.frames.get? Session.rootFrame "hash-map" =
      some (.builtin (.primitive .hashMap)) := by decide +kernel
  obtain ⟨literal, call, hliteral, hcall, hsame⟩ :=
    mapLiteral_hashMap hread (by decide) (by decide) (by decide)
  have hmap : readFirst {} "\x7b:a (prn 1) \"b\" (+ 1 2)\x7d" =
      .ok (some (.map [(keywordOf "a", .list [.symbol "prn", .int 1]),
        ("b", .list [.symbol "+", .int 1, .int 2])])) := by rfl
  obtain rfl := Option.some.inj (Except.ok.inj (hliteral.symm.trans hmap))
  have hvalue : ((evaluate (.map [(keywordOf "a", .list [.symbol "prn", .int 1]),
      ("b", .list [.symbol "+", .int 1, .int 2])]) Session.rootFrame Session.noFiles Session.initial.machine).map
        fun outcome => (outcome.1.toOption, outcome.2.output)) =
      some (some (.map [(keywordOf "a", .nil), ("b", .int 3)]), "1\n") := by decide +kernel
  obtain ⟨⟨r, m⟩, hrun, hvalue⟩ := Option.map_eq_some_iff.mp hvalue
  obtain ⟨hr, houtput⟩ := Prod.mk.inj hvalue
  obtain rfl := eq_ok_of_toOption hr
  have hsame := (hsame _ _ hfn).1
  have hends := Recursive.ends_of_perform hrun nofun
  exact ⟨_, call, hliteral, hcall, hsame, m, houtput, hends, (hsame _).mp hends⟩

end SmallLisp
