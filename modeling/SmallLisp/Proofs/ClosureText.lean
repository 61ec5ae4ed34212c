import SmallLisp.Proofs.Initial
import SmallLisp.Proofs.Parameters
import SmallLisp.Proofs.Rereading
import SmallLisp.Proofs.Steps

/-! Closures written down. The text of a closure is the form that makes it, with the names of its parameters in a list
and its body printed behind them. If names and body can be read back, so can the whole form, and evaluating the form in
the frame of the closure makes a closure that differs from the first one in its stamp alone. -/

namespace SmallLisp

open SmallLisp.Computation

/-! ### Reading the text -/

section

variable {limits : Limits} {room : Nat}

/-- Names of symbols that can be read, in a list. -/
theorem Written.names {names : List String} (h : ∀ name ∈ names, (Value.symbol name).Legible limits) :
    ∃ tokens, Written limits 1 (.list (names.map .symbol)) (SmallLisp.bracketed "(" ")" names) tokens := by
  let pieces : List Piece := names.map fun name => (.symbol name, name, [⟨.atom, name⟩])
  have hpieces : ∀ piece ∈ pieces, Written limits 0 piece.1 piece.2.1 piece.2.2 := by
    intro piece hpiece
    obtain ⟨name, hname, rfl⟩ := List.mem_map.mp hpiece
    cases h name hname with
    | symbol hne hchars hatom => exact .atom hne hchars hatom
  have hvalues : pieces.map (·.1) = names.map .symbol := by simp [pieces, Function.comp_def]
  have htexts : pieces.map (·.2.1) = names := by simp [pieces, Function.comp_def]
  have hlist := Written.sequence .round hpieces rfl
  rw [hvalues, htexts] at hlist
  exact ⟨_, hlist⟩

/-- The text of a closure is written of the form that makes it. -/
theorem Written.closureText {params : Params} {body : Value}
    (hnames : ∀ name ∈ params.names, (Value.symbol name).Legible limits) (hbody : body.Readable limits room)
    (hroom : room ≤ limits.nesting) :
    ∃ text tokens, closureText limits params body = .ok text ∧
      Written limits (room + 1) (.list [.symbol "fn*", .list (params.names.map .symbol), body]) text tokens := by
  obtain ⟨shown, bodyTokens, hshown, hwritten⟩ := hbody.written
  obtain ⟨nameTokens, hlist⟩ := Written.names hnames
  have hprint : body.print limits .readable = .ok shown := Value.printWithin_mono hroom hshown
  have hhead : Written limits room (.symbol "fn*") "fn*" [⟨.atom, "fn*"⟩] :=
    .atom (by decide) (List.all_eq_true.mp (by decide)) rfl
  rw [SmallLisp.closureText, hprint]
  generalize SmallLisp.bracketed "(" ")" params.names = listed at hlist
  let pieces : List Piece := [(.symbol "fn*", "fn*", [⟨.atom, "fn*"⟩]),
    (.list (params.names.map .symbol), listed, nameTokens), (body, shown, bodyTokens)]
  have hpieces : ∀ piece ∈ pieces, Written limits room piece.1 piece.2.1 piece.2.2 := by
    simp only [pieces, List.forall_mem_cons]
    exact ⟨hhead, hlist.mono hbody.room_pos, hwritten, List.forall_mem_nil _⟩
  have htext : SmallLisp.bracketed "(" ")" ["fn*", listed, shown] = "(fn* " ++ listed ++ " " ++ shown ++ ")" :=
    String.toList_inj.mp (by simp [SmallLisp.bracketed])
  exact ⟨_, _, congrArg Except.ok htext.symm, Written.sequence .round hpieces rfl⟩

end

/-! ### Making the closure again -/

/-- A form for a closure is evaluated by making the closure, and nothing else is done. -/
theorem evaluate_function {ctx : Context} (hsteps : 0 < ctx.limits.steps) (form body : Value) (frame : Nat)
    (m : Machine) :
    evaluate (.list [.symbol "fn*", form, body]) frame ctx m = makeClosure form body frame ctx m := by
  obtain ⟨steps, hsteps⟩ : ∃ n, ctx.limits.steps = n + 1 := ⟨ctx.limits.steps - 1, by omega⟩
  have hrun : evaluate (.list [.symbol "fn*", form, body]) frame ctx m =
      run ctx.limits.steps ctx.limits.depth (.eval (.list [.symbol "fn*", form, body]) frame) ctx m := rfl
  rw [hrun, hsteps]
  refine run_of_value ?_
  rw [step_special (show (Value.symbol "fn*").specialForm? = some .function from rfl)]
  rfl

/-- **The text of a closure makes it again.** Let a closure be made with a list or vector of symbols that can be read,
and with a body whose printed form can be read back and that leaves one level of nesting. Then the closure can be
written down, and its text is read as the form with `fn*`, the parameters in a list, and the body. In the frame of the
closure, whatever has happened since, this form is evaluated to a closure with the same parameters, the same body and
the same frame; only the stamp of the closure is new, and nothing is bound or printed. -/
theorem closureText_rebuilds {ctx : Context} {form body c : Value} {items : List Value} {room frame : Nat}
    {m m' : Machine} (hform : form.elements? = some items)
    (hitems : ∀ item ∈ items, ∃ source, readFirst ctx.limits source = .ok (some item))
    (hbody : body.Readable ctx.limits room) (hroom : room < ctx.limits.nesting) (hsteps : 0 < ctx.limits.steps)
    (hmade : makeClosure form body frame ctx m = some (.ok c, m')) :
    ∃ stamp params text, c = .closure stamp params body frame ∧ closureText ctx.limits params body = .ok text ∧
      readFirst ctx.limits text = .ok (some (.list [.symbol "fn*", .list items, body])) ∧
      ∀ n : Machine, evaluate (.list [.symbol "fn*", .list items, body]) frame ctx n =
        some (.ok (.closure n.stamps params body frame), { n with stamps := n.stamps + 1 }) := by
  rw [makeClosure_apply] at hmade
  cases hparams : Params.ofForm form with
  | error fault =>
      rw [hparams] at hmade
      cases hmade
  | ok params =>
      rw [hparams] at hmade
      cases hmade
      obtain ⟨helements, hproper⟩ := Params.ofForm_eq_ok_iff.mp hparams
      obtain rfl : items = params.names.map .symbol := Option.some.inj (hform.symm.trans helements)
      have hnames : ∀ name ∈ params.names, (Value.symbol name).Legible ctx.limits := by
        intro name hname
        obtain ⟨source, hsource⟩ := hitems _ (List.mem_map_of_mem hname)
        exact legible_of_readFirst hsource
      obtain ⟨text, tokens, htext, hwritten⟩ := Written.closureText hnames hbody (Nat.le_of_lt hroom)
      refine ⟨m.stamps, params, text, rfl, htext, hwritten.readFirst_eq hroom, fun n => ?_⟩
      have hagain : Params.ofForm (.list (params.names.map .symbol)) = .ok params :=
        Params.ofForm_eq_ok_iff.mpr ⟨rfl, hproper⟩
      rw [evaluate_function hsteps, makeClosure_apply, hagain]

/-- A name that is given twice, a name for the rest, and a body with a negative integer and with quotes and brackets
inside a string. -/
theorem closureText_rebuilds_repeatedName :
    let names : List Value := [.symbol "x", .symbol "x", .symbol "&", .symbol "more"]
    let body : Value := .list [.symbol "list", .int (-1), .map [(")\"", .vector [.symbol "x", .text ""])]]
    let text := "(fn* (x x & more) (list -1 \x7b\")\\\"\" [x \"\"]\x7d))"
    closureText {} ⟨["x", "x"], some "more"⟩ body = .ok text ∧
      readFirst {} text = .ok (some (.list [.symbol "fn*", .list names, body])) ∧
      evaluate (.list [.symbol "fn*", .list names, body]) 0 Session.noFiles ⟨.single, "", 7⟩ =
        some (.ok (.closure 7 ⟨["x", "x"], some "more"⟩ body 0), ⟨.single, "", 8⟩) := by
  intro names body text
  have hnames : ∀ item ∈ names, ∃ source, readFirst Session.noFiles.limits source = .ok (some item) := by
    simp only [names, List.forall_mem_cons]
    exact ⟨⟨"x", rfl⟩, ⟨"x", rfl⟩, ⟨"&", rfl⟩, ⟨"more", rfl⟩, nofun⟩
  have hsymbol : ∀ name ∈ ["x", "list"], ∀ room, (Value.symbol name).Readable {} (room + 1) := by
    simp only [List.forall_mem_cons]
    exact ⟨fun _ => .symbol (by decide) (List.all_eq_true.mp (by decide)) rfl,
      fun _ => .symbol (by decide) (List.all_eq_true.mp (by decide)) rfl, nofun⟩
  have hbody : body.Readable Session.noFiles.limits 4 := by
    have hitems : ∀ item ∈ [Value.symbol "x", .text ""], item.Readable {} 1 := by
      simp only [List.forall_mem_cons]
      exact ⟨hsymbol "x" (by decide) 0, .text fun h => absurd h (by decide), nofun⟩
    have hmap : (Value.map [(")\"", .vector [.symbol "x", .text ""])]).Readable {} 3 :=
      .map (List.forall_mem_singleton.mpr fun h => absurd h (by decide))
        (List.forall_mem_singleton.mpr (.vector hitems)) (by decide)
    refine .list ?_
    simp only [List.forall_mem_cons]
    exact ⟨hsymbol "list" (by decide) 2, .int (by decide), hmap, nofun⟩
  have hmade : makeClosure (.vector names) body 0 Session.noFiles ⟨.single, "", 0⟩ =
      some (.ok (.closure 0 ⟨["x", "x"], some "more"⟩ body 0), ⟨.single, "", 1⟩) := rfl
  obtain ⟨stamp, params, text', hc, htext', hread, hvalue⟩ :=
    closureText_rebuilds rfl hnames hbody (by decide) (by decide) hmade
  obtain ⟨-, rfl, -, -⟩ := Value.closure.inj hc
  have htext : closureText {} ⟨["x", "x"], some "more"⟩ body = .ok text := by decide +kernel
  obtain rfl : text' = text := Except.ok.inj (htext'.symm.trans htext)
  exact ⟨htext, hread, hvalue _⟩

end SmallLisp
