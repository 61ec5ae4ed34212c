import SmallLisp.Log
import SmallLisp.Session

/-! The read-eval-print loop. For each line it writes the printed value of the line's first form, or the
report of the error that evaluating or printing it raised, or nothing if the line holds no form; then it asks
for the next. It ends with the input or with an interrupt, and writes an empty text. What happens on the way
is a list of events, from which the outside reads off what it wants to see. -/

namespace SmallLisp

/-- What the loop gets when it asks for a line. The end of the input is the end of the list. -/
inductive LineInput
  | line (text : String)
  | interrupt
  deriving DecidableEq, Repr

/-- A file with the lines of earlier sessions, and the faults that reading and saving it will have. -/
structure HistoryFile where
  path : String
  readFault : Option String
  saveFault : Option String
  deriving DecidableEq, Repr

structure Repl where
  prompt : String
  history : Option HistoryFile
  deriving DecidableEq, Repr

/-- A computation of the loop. Errors are part of what it works on, and it has none of its own. -/
abbrev ReplM := ReaderT Context (StateT Session Option)

inductive ReplEvent
  | historyRead (path : String)
  | historySaved (path : String)
  | asked (prompt : String)
  | printed (text : String)
  | wrote (text : String)
  | logged (entry : LogEntry)
  deriving DecidableEq, Repr

namespace HistoryFile

/-- Reads the history. A fault is only noted. -/
def readEvents (file : HistoryFile) : List ReplEvent :=
  .historyRead file.path ::
    if file.readFault.isSome then [.logged (.ofFrontEnd .debug s!"no history at {file.path}")] else []

/-- Saves the history. A fault is a warning. -/
def saveEvents (file : HistoryFile) : List ReplEvent :=
  .historySaved file.path ::
    match file.saveFault with
    | some fault => [.logged (.ofFrontEnd .warning s!"cannot write history to {file.path}: {fault}")]
    | none => []

end HistoryFile

namespace Repl

/-- Does a computation of the session, with its error as a possible result. -/
def attempt {α : Type} (x : SessionM α) : ReplM (Except Error α) := fun ctx session => x ctx session

/-- What a line leads to, by the text that was printed and the reply or the error that came of it. A thrown
value which cannot be printed cannot be reported either; then the limit that it passes ends the loop. -/
def eventsOf (limits : Limits) (output : String) :
    Except Error (Option String) → List ReplEvent × Option Overrun
  | .ok none => ([.printed output], none)
  | .ok (some text) => ([.printed output, .wrote text], none)
  | .error e =>
    let failed : List ReplEvent := [.printed output, .logged (.ofFrontEnd .debug "evaluation failed")]
    match e.report limits with
    | .ok text => (failed ++ [.wrote text], none)
    | .error limit => (failed, some limit)

/-- Evaluates a line. -/
def respond (line : String) : ReplM (List ReplEvent × Option Overrun) := do
  let outcome ← attempt (Session.reply line)
  let output ← modifyGet Session.takeOutput
  return eventsOf (← read).limits output outcome

/-- Asks for lines and evaluates them. -/
def converse (prompt : String) : List LineInput → ReplM (List ReplEvent × Option Overrun)
  | .line text :: inputs => do
    let (events, failure) ← respond text
    match failure with
    | some limit => return (.asked prompt :: events, some limit)
    | none =>
      let (more, failure) ← converse prompt inputs
      return (.asked prompt :: events ++ more, failure)
  | _ => return ([.asked prompt, .wrote ""], none)

/-- Runs the loop on its inputs. The history is read before the first prompt and saved in any case. -/
def run (repl : Repl) (inputs : List LineInput) : ReplM (List ReplEvent × Option Overrun) := do
  let before := repl.history.elim [] HistoryFile.readEvents
  let (events, failure) ← converse repl.prompt inputs
  let after := repl.history.elim [] HistoryFile.saveEvents
  return (before ++ events ++ after, failure)

end Repl

namespace ReplEvent

/-- The prompts among some events. -/
def prompts (events : List ReplEvent) : List String :=
  events.filterMap fun | asked prompt => some prompt | _ => none

/-- The texts written among some events. -/
def writes (events : List ReplEvent) : List String :=
  events.filterMap fun | wrote text => some text | _ => none

/-- The text that programs printed among some events. -/
def output (events : List ReplEvent) : String :=
  String.join (events.filterMap fun | printed text => some text | _ => none)

/-- The log entries among some events. -/
def entries (events : List ReplEvent) : List LogEntry :=
  events.filterMap fun | logged entry => some entry | _ => none

/-- What a terminal shows of an event: prompts and output as they are, written texts as lines. -/
def display : ReplEvent → String
  | asked prompt => prompt
  | printed text => text
  | wrote text => text ++ "\n"
  | _ => ""

end ReplEvent

end SmallLisp
