import SmallLisp.Proofs.Initial
import SmallLisp.Proofs.Reach
import SmallLisp.Repl

/-! The loop as a conversation. Each line is answered by what its first form comes to in the session that the lines
before it have left, whether they had a value or an error. As long as there is an answer to every line, the loop asks
for one line after the other and gives these answers; it ends early only where there is none, at a thrown value that
cannot be printed. -/

namespace SmallLisp

/-- The lines that the loop is given: an interrupt ends them like the end of the input. -/
def LineInput.lines : List LineInput → List String
  | line text :: inputs => text :: lines inputs
  | _ => []

theorem LineInput.lines_map_line (texts : List String) : lines (texts.map line) = texts := by
  induction texts with
  | nil => rfl
  | cons text texts ih => exact congrArg (text :: ·) ih

theorem LineInput.exists_rest (inputs : List LineInput) :
    ∃ rest, inputs = (lines inputs).map line ++ rest ∧ lines rest = [] := by
  induction inputs with
  | nil => exact ⟨[], rfl, rfl⟩
  | cons input inputs ih =>
      cases input with
      | line text =>
          obtain ⟨rest, hinputs, hrest⟩ := ih
          exact ⟨rest, congrArg (line text :: ·) hinputs, hrest⟩
      | interrupt => exact ⟨_, rfl, rfl⟩

namespace Repl

open Session

/-! ### Answers -/

/-- The answer to a line, by what its first form came to: none to a line without a form, else the readable print of
the value, or the report of the error that evaluating or printing it raised. -/
inductive Answers (limits : Limits) : Except Error (Option Value) → Option String → Prop
  | nothing : Answers limits (.ok none) none
  | value {v : Value} {text : String} : v.print limits .readable = .ok text →
      Answers limits (.ok (some v)) (some text)
  | unprintable {v : Value} {limit : Overrun} : v.print limits .readable = .error limit →
      Answers limits (.ok (some v)) (some ("EOF: " ++ limit.message))
  | thrown {v : Value} {text : String} : v.print limits .readable = .ok text →
      Answers limits (.error (.thrown v)) (some text)
  | raised {e : Error} : (∀ v, e ≠ .thrown v) → Answers limits (.error e) (some ("EOF: " ++ e.message))

/-- Lines that are answered one after the other, each in the session that the lines before it have left. The text
that a line prints is taken out of the session. -/
inductive Conversed (ctx : Context) : Session → List String → List (Option String) → Session → Prop
  | nil {s : Session} : Conversed ctx s [] [] s
  | cons {s s₁ s' : Session} {line : String} {lines : List String} {outcome : Except Error (Option Value)}
      {answer : Option String} {answers : List (Option String)} : runFirst line ctx s = some (outcome, s₁) →
      Answers ctx.limits outcome answer → Conversed ctx s₁.takeOutput.2 lines answers s' →
        Conversed ctx s (line :: lines) (answer :: answers) s'

section

variable {limits : Limits} {outcome : Except Error (Option Value)} {answer : Option String}

/-- There is an answer to every outcome, except for a thrown value that cannot be printed. -/
theorem exists_answers (limits : Limits) (outcome : Except Error (Option Value)) :
    (∃ answer, Answers limits outcome answer) ∨
      ∃ v limit, outcome = .error (.thrown v) ∧ v.print limits .readable = .error limit := by
  rcases outcome with e | _ | v
  · by_cases hthrown : ∃ v, e = .thrown v
    · obtain ⟨v, rfl⟩ := hthrown
      cases hprint : v.print limits .readable with
      | ok text => exact .inl ⟨_, .thrown hprint⟩
      | error limit => exact .inr ⟨v, limit, rfl, hprint⟩
    · exact .inl ⟨_, .raised (not_exists.mp hthrown)⟩
  · exact .inl ⟨_, .nothing⟩
  · cases hprint : v.print limits .readable with
    | ok text => exact .inl ⟨_, .value hprint⟩
    | error limit => exact .inl ⟨_, .unprintable hprint⟩

/-- What the first form of a line came to, with a value printed. -/
def shown (limits : Limits) : Except Error (Option Value) → Except Error (Option String)
  | .ok none => .ok none
  | .ok (some v) => (withinLimits (v.print limits .readable)).map some
  | .error e => .error e

theorem reply_apply (line : String) (ctx : Context) (s : Session) :
    reply line ctx s = (runFirst line ctx s).map fun (outcome, s) => (shown ctx.limits outcome, s) := by
  unfold reply
  rw [Computation.bind_apply]
  rcases runFirst line ctx s with _ | ⟨e | _ | v, s₁⟩
  · rfl
  · rfl
  · rfl
  · have hprint := onMachine_of_eq_some (s := s₁) (EvalM.printed_apply .readable "" [v] ctx s₁.machine)
    rw [Value.printAll_singleton] at hprint
    show (onMachine (EvalM.printed .readable "" [v]) >>= fun text => pure (some text)) ctx s₁ =
      some ((withinLimits (v.print ctx.limits .readable)).map some, s₁)
    rw [Computation.bind_apply, hprint]
    cases withinLimits (v.print ctx.limits .readable) <;> rfl

/-- Evaluates a line, and takes what it has printed. -/
theorem respond_apply (line : String) (ctx : Context) (s : Session) :
    respond line ctx s = (runFirst line ctx s).map fun (outcome, s) =>
      (eventsOf ctx.limits s.takeOutput.1 (shown ctx.limits outcome), s.takeOutput.2) := by
  have hrespond : respond line ctx s = (reply line ctx s).map fun reply =>
      (eventsOf ctx.limits reply.2.takeOutput.1 reply.1, reply.2.takeOutput.2) := by
    show (reply line ctx s).bind _ = _
    cases reply line ctx s <;> rfl
  rw [hrespond, reply_apply, Option.map_map]
  rfl

end

end Repl

/-! ### What is seen of the events -/

namespace ReplEvent

/-- What passes between the loop and its user and the history file, without output of programs and log entries. -/
def dialogue (events : List ReplEvent) : List ReplEvent :=
  events.filter fun | printed _ | logged _ => false | _ => true

theorem dialogue_append (events more : List ReplEvent) :
    dialogue (events ++ more) = dialogue events ++ dialogue more :=
  List.filter_append ..

theorem dialogue_asked (prompt : String) (events : List ReplEvent) :
    dialogue (asked prompt :: events) = asked prompt :: dialogue events := rfl

theorem prompts_append (events more : List ReplEvent) : prompts (events ++ more) = prompts events ++ prompts more :=
  List.filterMap_append

theorem writes_append (events more : List ReplEvent) : writes (events ++ more) = writes events ++ writes more :=
  List.filterMap_append

/-- What is picked from the events without looking at output and log entries can be picked from the dialogue. -/
theorem filterMap_dialogue {α : Type} {pick : ReplEvent → Option α} (hprinted : ∀ text, pick (printed text) = none)
    (hlogged : ∀ entry, pick (logged entry) = none) (events : List ReplEvent) :
    (dialogue events).filterMap pick = events.filterMap pick := by
  induction events with
  | nil => rfl
  | cons event events ih =>
      cases event with
      | printed text =>
          rw [List.filterMap_cons_none (hprinted text)]
          exact ih
      | logged entry =>
          rw [List.filterMap_cons_none (hlogged entry)]
          exact ih
      | _ =>
          rw [List.filterMap_cons, ← ih]
          rfl

theorem prompts_dialogue (events : List ReplEvent) : prompts (dialogue events) = prompts events :=
  filterMap_dialogue (fun _ => rfl) (fun _ => rfl) events

theorem writes_dialogue (events : List ReplEvent) : writes (dialogue events) = writes events :=
  filterMap_dialogue (fun _ => rfl) (fun _ => rfl) events

end ReplEvent

namespace Repl

open Session ReplEvent

section

variable {limits : Limits} {outcome : Except Error (Option Value)} {answer : Option String}

/-- What is raised, unless it was thrown, is reported by its message. -/
theorem report_raised {e : Error} (h : ∀ v, e ≠ .thrown v) : e.report limits = .ok ("EOF: " ++ e.message) := by
  cases e with
  | thrown v => exact absurd rfl (h v)
  | _ => rfl

/-- An error that can be reported is. -/
theorem eventsOf_reported {e : Error} {text : String} (h : e.report limits = .ok text) (output : String) :
    ∃ events, eventsOf limits output (.error e) = (events, none) ∧ dialogue events = [.wrote text] := by
  rw [eventsOf, h]
  exact ⟨_, rfl, rfl⟩

/-- A line with an answer leads to this answer. -/
theorem eventsOf_answered (h : Answers limits outcome answer) (output : String) :
    ∃ events, eventsOf limits output (shown limits outcome) = (events, none) ∧
      dialogue events = (answer.map wrote).toList := by
  cases h with
  | nothing => exact ⟨_, rfl, rfl⟩
  | value hprint =>
      rw [shown, hprint]
      exact ⟨_, rfl, rfl⟩
  | @unprintable v limit hprint =>
      rw [shown, hprint]
      exact eventsOf_reported (e := .overrun limit) rfl output
  | @thrown v _ hprint => exact eventsOf_reported (e := .thrown v) hprint output
  | raised hraised => exact eventsOf_reported (report_raised hraised) output

/-- A thrown value that cannot be printed leads to the end of the loop. -/
theorem eventsOf_unanswered {v : Value} {limit : Overrun} (h : v.print limits .readable = .error limit)
    (output : String) :
    ∃ events, eventsOf limits output (shown limits (.error (.thrown v))) = (events, some limit) ∧
      dialogue events = [] := by
  rw [shown, eventsOf, Error.report, h]
  exact ⟨_, rfl, rfl⟩

end

/-! ### Steps of the loop -/

/-- What the loop makes of some events before it goes on. -/
def goOn (events : List ReplEvent) (x : ReplM (List ReplEvent × Option Overrun)) :
    ReplM (List ReplEvent × Option Overrun) :=
  fun ctx s => (x ctx s).map fun ((more, failure), s) => ((events ++ more, failure), s)

section

variable {ctx : Context} {s s₁ s' : Session} {line : String} {outcome : Except Error (Option Value)}
  {answer : Option String}

/-- The loop asks for a line and evaluates it; then it goes on, or ends. -/
theorem converse_line (prompt line : String) (inputs : List LineInput) (ctx : Context) (s : Session) :
    converse prompt (.line line :: inputs) ctx s =
      match runFirst line ctx s with
      | none => none
      | some (outcome, s) =>
        match eventsOf ctx.limits s.takeOutput.1 (shown ctx.limits outcome) with
        | (events, some limit) => some ((.asked prompt :: events, some limit), s.takeOutput.2)
        | (events, none) => goOn (.asked prompt :: events) (converse prompt inputs) ctx s.takeOutput.2 := by
  rw [converse]
  show (respond line ctx s).bind _ = _
  rw [respond_apply]
  cases runFirst line ctx s with
  | none => rfl
  | some outcome =>
      obtain ⟨outcome, s₁⟩ := outcome
      dsimp only [Option.map, Option.bind]
      rcases eventsOf ctx.limits s₁.takeOutput.1 (shown ctx.limits outcome) with ⟨events, _ | limit⟩
      · -- no limit was passed, and the loop goes on behind the events
        show (converse prompt inputs ctx s₁.takeOutput.2).bind _ = (converse prompt inputs ctx s₁.takeOutput.2).map _
        cases converse prompt inputs ctx s₁.takeOutput.2 <;> rfl
      · rfl

theorem converse_answered (hline : runFirst line ctx s = some (outcome, s₁))
    (hanswer : Answers ctx.limits outcome answer) (prompt : String) (inputs : List LineInput) :
    ∃ events, dialogue events = .asked prompt :: (answer.map wrote).toList ∧
      converse prompt (.line line :: inputs) ctx s =
        goOn events (converse prompt inputs) ctx s₁.takeOutput.2 := by
  obtain ⟨events, hevents, hdialogue⟩ := eventsOf_answered hanswer s₁.takeOutput.1
  refine ⟨.asked prompt :: events, by rw [dialogue_asked, hdialogue], ?_⟩
  rw [converse_line, hline]
  dsimp only
  rw [hevents]

theorem converse_unanswered {v : Value} {limit : Overrun}
    (hline : runFirst line ctx s = some (.error (.thrown v), s₁))
    (hprint : v.print ctx.limits .readable = .error limit) (prompt : String) (inputs : List LineInput) :
    ∃ events, dialogue events = [.asked prompt] ∧
      converse prompt (.line line :: inputs) ctx s = some ((events, some limit), s₁.takeOutput.2) := by
  obtain ⟨events, hevents, hdialogue⟩ := eventsOf_unanswered hprint s₁.takeOutput.1
  refine ⟨.asked prompt :: events, by rw [dialogue_asked, hdialogue], ?_⟩
  rw [converse_line, hline]
  dsimp only
  rw [hevents]

theorem converse_end {inputs : List LineInput} (h : LineInput.lines inputs = []) (prompt : String) (ctx : Context)
    (s : Session) : converse prompt inputs ctx s = some (([.asked prompt, .wrote ""], none), s) := by
  cases inputs with
  | nil => rfl
  | cons input inputs =>
      cases input with
      | interrupt => rfl
      | line text => cases h

end

/-! ### Runs of the loop -/

/-- What passes for lines with these answers: each line is asked for, and answered if there is something to say. -/
def exchange (prompt : String) (answers : List (Option String)) : List ReplEvent :=
  answers.flatMap fun answer => .asked prompt :: (answer.map wrote).toList

theorem exchange_cons (prompt : String) (answer : Option String) (answers : List (Option String)) :
    exchange prompt (answer :: answers) = .asked prompt :: (answer.map wrote).toList ++ exchange prompt answers := rfl

/-- One prompt for each of the lines and one behind them. -/
theorem prompts_exchange (prompt : String) (answers : List (Option String)) (more : List ReplEvent) :
    prompts (exchange prompt answers ++ .asked prompt :: more) =
      List.replicate (answers.length + 1) prompt ++ prompts more := by
  induction answers with
  | nil => rfl
  | cons answer answers ih =>
      rw [exchange_cons, List.append_assoc, prompts_append, ih]
      cases answer <;> rfl

theorem writes_exchange (prompt : String) (answers : List (Option String)) (more : List ReplEvent) :
    writes (exchange prompt answers ++ .asked prompt :: more) = answers.reduceOption ++ writes more := by
  induction answers with
  | nil => rfl
  | cons answer answers ih =>
      rw [exchange_cons, List.append_assoc, writes_append, ih]
      cases answer <;> rfl

section

variable {ctx : Context} {s s' : Session} {lines : List String} {answers : List (Option String)}

theorem Conversed.length_eq (h : Conversed ctx s lines answers s') : answers.length = lines.length := by
  induction h with
  | nil => rfl
  | cons _ _ _ ih => exact congrArg (· + 1) ih

/-- Lines that are answered are asked for and answered, and then the loop goes on in the session that they leave. -/
theorem converse_conversed (h : Conversed ctx s lines answers s') (prompt : String) (inputs : List LineInput) :
    ∃ events, dialogue events = exchange prompt answers ∧
      converse prompt (lines.map .line ++ inputs) ctx s = goOn events (converse prompt inputs) ctx s' := by
  induction h with
  | @nil s =>
      refine ⟨[], rfl, ?_⟩
      show converse prompt inputs ctx s = (converse prompt inputs ctx s).map id
      rw [Option.map_id, id]
  | cons hline hanswer _ ih =>
      obtain ⟨more, hmore, hrest⟩ := ih
      obtain ⟨events, hevents, hstep⟩ := converse_answered hline hanswer prompt (List.map .line _ ++ inputs)
      refine ⟨events ++ more, ?_, ?_⟩
      · rw [dialogue_append, hevents, hmore]
        rfl
      · rw [List.map_cons, List.cons_append, hstep, goOn, hrest, goOn, goOn, Option.map_map]
        simp only [Function.comp_def, List.append_assoc]

/-- If all lines are answered, then the loop ends by asking once more and writing an empty text. -/
theorem converse_answered_all {inputs : List LineInput}
    (h : Conversed ctx s (LineInput.lines inputs) answers s') (prompt : String) :
    ∃ events, converse prompt inputs ctx s = some ((events, none), s') ∧
      dialogue events = exchange prompt answers ++ [.asked prompt, .wrote ""] := by
  obtain ⟨rest, hinputs, hrest⟩ := LineInput.exists_rest inputs
  obtain ⟨events, hevents, hconverse⟩ := converse_conversed h prompt rest
  rw [← hinputs, goOn, converse_end hrest] at hconverse
  refine ⟨_, hconverse, ?_⟩
  rw [dialogue_append, hevents]
  rfl

/-- A line without an answer behind lines that are answered is the last one to be asked for. -/
theorem converse_answered_front {s₁ s₂ : Session} {front : List String} {line : String} {v : Value} {limit : Overrun}
    (hfront : Conversed ctx s front answers s₁) (hline : runFirst line ctx s₁ = some (.error (.thrown v), s₂))
    (hprint : v.print ctx.limits .readable = .error limit) (prompt : String) (back : List String) :
    ∃ events, converse prompt ((front ++ line :: back).map .line) ctx s =
        some ((events, some limit), s₂.takeOutput.2) ∧
      dialogue events = exchange prompt answers ++ [.asked prompt] := by
  obtain ⟨events, hevents, hconverse⟩ := converse_conversed hfront prompt ((line :: back).map .line)
  obtain ⟨last, hlast, hstep⟩ := converse_unanswered hline hprint prompt (back.map .line)
  rw [← List.map_append, goOn, List.map_cons, hstep] at hconverse
  refine ⟨_, hconverse, ?_⟩
  rw [dialogue_append, hevents, hlast]

/-- Lines are either all answered, or only up to one that throws a value which cannot be printed. -/
theorem exists_conversed {prompt : String} {events : List ReplEvent} {failure : Option Overrun}
    (h : converse prompt (lines.map .line) ctx s = some ((events, failure), s')) :
    (failure = none ∧ ∃ answers, Conversed ctx s lines answers s') ∨
      ∃ front line back answers s₁ v limit, lines = front ++ line :: back ∧ Conversed ctx s front answers s₁ ∧
        (∃ s₂, runFirst line ctx s₁ = some (.error (.thrown v), s₂)) ∧
        v.print ctx.limits .readable = .error limit ∧ failure = some limit := by
  -- a line without an answer ends the run, and behind any other the rest is a run from the session it has left
  induction lines generalizing s events failure with
  | nil =>
      cases h
      exact .inl ⟨rfl, [], .nil⟩
  | cons line lines ih =>
      rw [List.map_cons] at h
      cases hline : runFirst line ctx s with
      | none =>
          rw [converse_line, hline] at h
          cases h
      | some outcome =>
          obtain ⟨outcome, s₁⟩ := outcome
          obtain ⟨answer, hanswer⟩ | ⟨v, limit, rfl, hprint⟩ := exists_answers ctx.limits outcome
          · obtain ⟨done, -, hstep⟩ := converse_answered hline hanswer prompt (lines.map .line)
            rw [hstep] at h
            obtain ⟨⟨⟨more, failure⟩, t⟩, hrest, h⟩ := Option.map_eq_some_iff.mp h
            cases h
            obtain ⟨rfl, answers, hlines⟩ | ⟨front, line', back, answers, t, v, limit, rfl, hfront, hthrown⟩ :=
              ih hrest
            · exact .inl ⟨rfl, answer :: answers, .cons hline hanswer hlines⟩
            · exact .inr ⟨line :: front, line', back, answer :: answers, t, v, limit, rfl,
                .cons hline hanswer hfront, hthrown⟩
          · obtain ⟨done, -, hstep⟩ := converse_unanswered hline hprint prompt (lines.map .line)
            rw [hstep] at h
            cases h
            exact .inr ⟨[], line, lines, [], s, v, limit, rfl, .nil, ⟨s₁, hline⟩, hprint, rfl⟩

end

/-! ### The main statements -/

section

variable {ctx : Context} {s s' : Session}

theorem exists_readEvents (file : HistoryFile) :
    ∃ noted : List LogEntry, file.readEvents = .historyRead file.path :: noted.map .logged ∧
      (file.readFault = none → noted = []) := by
  unfold HistoryFile.readEvents
  cases file.readFault with
  | none => exact ⟨[], rfl, fun _ => rfl⟩
  | some fault => exact ⟨[_], rfl, nofun⟩

theorem exists_saveEvents (file : HistoryFile) :
    ∃ warned : List LogEntry, file.saveEvents = .historySaved file.path :: warned.map .logged ∧
      (file.saveFault = none → warned = []) := by
  unfold HistoryFile.saveEvents
  cases file.saveFault with
  | none => exact ⟨[], rfl, fun _ => rfl⟩
  | some fault => exact ⟨[_], rfl, nofun⟩

/-- The history is read in front of the dialogue and saved behind it. -/
theorem dialogue_history (history : Option HistoryFile) (events : List ReplEvent) :
    dialogue (history.elim [] HistoryFile.readEvents ++ events ++ history.elim [] HistoryFile.saveEvents) =
      (history.map fun file => .historyRead file.path).toList ++ dialogue events ++
        (history.map fun file => .historySaved file.path).toList := by
  rw [dialogue_append, dialogue_append]
  cases history with
  | none => rfl
  | some file =>
      have hread : dialogue file.readEvents = [.historyRead file.path] := by
        unfold HistoryFile.readEvents
        cases file.readFault <;> rfl
      have hsaved : dialogue file.saveEvents = [.historySaved file.path] := by
        unfold HistoryFile.saveEvents
        cases file.saveFault <;> rfl
      rw [Option.elim_some, Option.elim_some, hread, hsaved]
      rfl

/-- The history is read in front of everything else and saved behind it, also if the loop ends early. -/
theorem run_eq (prompt : String) (history : Option HistoryFile) (inputs : List LineInput) (ctx : Context)
    (s : Session) :
    run ⟨prompt, history⟩ inputs ctx s = (converse prompt inputs ctx s).map fun ((events, failure), s) =>
      ((history.elim [] HistoryFile.readEvents ++ events ++ history.elim [] HistoryFile.saveEvents, failure), s) := by
  show (converse prompt inputs ctx s).bind _ = _
  cases converse prompt inputs ctx s <;> rfl

/-- **The loop gives one answer after the other.** If the lines up to the end of the input or an interrupt can be
answered one after the other, then the loop asks for each of them, answers each of them, and asks once more before it
writes an empty text; it leaves the session that the lines have left. With a history file it does the same, reads the
file once before and saves it once afterwards, and faults of the file make entries in the log only. -/
theorem run_conversed {inputs : List LineInput} {answers : List (Option String)}
    (h : Conversed ctx s (LineInput.lines inputs) answers s') (prompt : String) :
    ∃ events, run ⟨prompt, none⟩ inputs ctx s = some ((events, none), s') ∧
      dialogue events = exchange prompt answers ++ [.asked prompt, .wrote ""] ∧
      prompts events = List.replicate ((LineInput.lines inputs).length + 1) prompt ∧
      writes events = answers.reduceOption ++ [""] ∧
      ∀ file : HistoryFile, ∃ noted warned : List LogEntry,
        run ⟨prompt, some file⟩ inputs ctx s =
          some ((.historyRead file.path :: noted.map .logged ++ events ++
            .historySaved file.path :: warned.map .logged, none), s') ∧
        (file.readFault = none → noted = []) ∧ (file.saveFault = none → warned = []) := by
  obtain ⟨events, hconverse, hdialogue⟩ := converse_answered_all h prompt
  refine ⟨events, ?_, hdialogue, ?_, ?_, fun file => ?_⟩
  · rw [run_eq, hconverse]
    simp
  · rw [← prompts_dialogue, hdialogue, prompts_exchange, h.length_eq]
    exact List.append_nil _
  · rw [← writes_dialogue, hdialogue, writes_exchange]
    rfl
  · obtain ⟨noted, hnoted, hread⟩ := exists_readEvents file
    obtain ⟨warned, hwarned, hsave⟩ := exists_saveEvents file
    refine ⟨noted, warned, ?_, hread, hsave⟩
    rw [run_eq, hconverse]
    simp [hnoted, hwarned]

/-- A value, a line that fails behind a definition, a line without a form, and the use of the definition; then an
interrupt. -/
theorem run_conversed_interrupted :
    ∃ answers s' events,
      Conversed noFiles initial ["nil", "(do (def! x 1) (throw \"up\"))", "; none", "x"] answers s' ∧
      run ⟨"> ", none⟩ [.line "nil", .line "(do (def! x 1) (throw \"up\"))", .line "; none", .line "x", .interrupt,
        .line "nil"] noFiles initial = some ((events, none), s') ∧
      writes events = ["nil", "\"up\"", "1", ""] := by
  have hlines : ((converse "> " (["nil", "(do (def! x 1) (throw \"up\"))", "; none", "x"].map .line)
      noFiles initial).map fun outcome => outcome.1.2) = some none := by decide +kernel
  have hwrites : ((run ⟨"> ", none⟩ [.line "nil", .line "(do (def! x 1) (throw \"up\"))", .line "; none", .line "x",
      .interrupt, .line "nil"] noFiles initial).map fun outcome => writes outcome.1.1) =
        some ["nil", "\"up\"", "1", ""] := by decide +kernel
  obtain ⟨⟨⟨events, failure⟩, s'⟩, hconverse, rfl⟩ := Option.map_eq_some_iff.mp hlines
  obtain ⟨-, answers, hconversed⟩ | ⟨_, _, _, _, _, _, _, _, _, _, _, hlimit⟩ := exists_conversed hconverse
  · obtain ⟨events, hrun, -⟩ := @run_conversed _ _ _ [.line "nil", .line "(do (def! x 1) (throw \"up\"))",
      .line "; none", .line "x", .interrupt, .line "nil"] _ hconversed "> "
    rw [hrun] at hwrites
    exact ⟨answers, s', events, hconversed, hrun, Option.some.inj hwrites⟩
  · cases hlimit

/-- **Only a thrown value that cannot be printed ends the loop early.** A run on some lines, with no interrupt, either
answers them all and asks once more, or comes to a line that throws a value which passes a limit where it is printed;
then the lines in front of it are answered and those behind it are not asked for. The history is read before and saved
afterwards in both cases. -/
theorem run_unanswered {repl : Repl} {lines : List String} {events : List ReplEvent} {failure : Option Overrun}
    (h : run repl (lines.map .line) ctx s = some ((events, failure), s')) :
    ∃ talk : List ReplEvent,
      dialogue events = (repl.history.map fun file => .historyRead file.path).toList ++ talk ++
        (repl.history.map fun file => .historySaved file.path).toList ∧
      ((failure = none ∧ ∃ answers, Conversed ctx s lines answers s' ∧
          talk = exchange repl.prompt answers ++ [.asked repl.prompt, .wrote ""]) ∨
        ∃ front line back answers s₁ v limit, lines = front ++ line :: back ∧ Conversed ctx s front answers s₁ ∧
          (∃ s₂, runFirst line ctx s₁ = some (.error (.thrown v), s₂)) ∧
          v.print ctx.limits .readable = .error limit ∧ failure = some limit ∧
          talk = exchange repl.prompt answers ++ [.asked repl.prompt]) := by
  obtain ⟨prompt, history⟩ := repl
  rw [run_eq] at h
  obtain ⟨⟨⟨done, failure⟩, t⟩, hconverse, h⟩ := Option.map_eq_some_iff.mp h
  cases h
  refine ⟨dialogue done, dialogue_history history done, ?_⟩
  obtain ⟨rfl, answers, hlines⟩ | ⟨front, line, back, answers, s₁, v, limit, rfl, hfront, hline, hprint, rfl⟩ :=
    exists_conversed hconverse
  · have hinputs := hlines
    rw [← LineInput.lines_map_line lines] at hinputs
    obtain ⟨events, hevents, hdialogue⟩ := converse_answered_all hinputs prompt
    rw [hconverse] at hevents
    cases hevents
    exact .inl ⟨rfl, answers, hlines, hdialogue⟩
  · obtain ⟨s₂, hline⟩ := hline
    obtain ⟨events, hevents, hdialogue⟩ := converse_answered_front hfront hline hprint prompt back
    rw [hconverse] at hevents
    cases hevents
    exact .inr ⟨front, line, back, answers, s₁, v, limit, rfl, hfront, ⟨s₂, hline⟩, hprint, rfl, hdialogue⟩

/-- A thrown value that can be printed is answered like any other error. -/
theorem run_unanswered_thrown :
    ∃ answers s', Conversed noFiles initial ["(throw 1)", "2"] answers s' ∧
      exchange "> " answers ++ [.asked "> ", .wrote ""] =
        [.asked "> ", .wrote "1", .asked "> ", .wrote "2", .asked "> ", .wrote ""] := by
  have hrun : ((run ⟨"> ", none⟩ (["(throw 1)", "2"].map .line) noFiles initial).map
      fun outcome => (dialogue outcome.1.1, outcome.1.2)) =
        some ([.asked "> ", .wrote "1", .asked "> ", .wrote "2", .asked "> ", .wrote ""], none) := by
    decide +kernel
  obtain ⟨⟨⟨events, failure⟩, s'⟩, hrun, houtcome⟩ := Option.map_eq_some_iff.mp hrun
  obtain ⟨hevents, rfl⟩ := Prod.mk.inj houtcome
  obtain ⟨talk, hdialogue, ⟨-, answers, hconversed, rfl⟩ | ⟨_, _, _, _, _, _, _, _, _, _, _, hlimit, _⟩⟩ :=
    run_unanswered hrun
  · have htalk : dialogue events = exchange "> " answers ++ [.asked "> ", .wrote ""] :=
      hdialogue.trans (List.append_nil _)
    exact ⟨answers, s', hconversed, htalk.symm.trans hevents⟩
  · cases hlimit

/-- Three lines, of which the second one throws ten to the power of 8192. -/
def squares : List String :=
  ["(def! sq (fn* (n) (* n n)))", "(throw (sq (sq (sq (sq (sq (sq (sq (sq (sq (sq (sq (sq (sq 10))))))))))))))",
    "(+ 1 2)"]

/-- The number has too many digits to be printed, so the second line is not answered, and the loop ends without
asking for the third. -/
theorem run_squares :
    ∃ events s', run ⟨"user> ", none⟩ (squares.map .line) noFiles initial =
        some ((events, some (.digitsWritten 4300)), s') ∧
      prompts events = ["user> ", "user> "] ∧ writes events = ["#<function>"] := by
  have hrun : ((run ⟨"user> ", none⟩ (squares.map .line) noFiles initial).map
      fun outcome => (prompts outcome.1.1, writes outcome.1.1, outcome.1.2)) =
        some (["user> ", "user> "], ["#<function>"], some (.digitsWritten 4300)) := by decide +kernel
  obtain ⟨⟨⟨events, failure⟩, s'⟩, hrun, houtcome⟩ := Option.map_eq_some_iff.mp hrun
  obtain ⟨hprompts, houtcome⟩ := Prod.mk.inj houtcome
  obtain ⟨hwrites, rfl⟩ := Prod.mk.inj houtcome
  exact ⟨events, s', hrun, hprompts, hwrites⟩

end

end Repl

end SmallLisp
