import SmallLisp.CommandLine
import SmallLisp.Repl
import SmallLisp.Settings

/-! The program as a whole: what it writes and the status it ends with, by its command line, its environment
and its input. With a source file it runs the file and ends; an error of the file is reported apart from the
output and makes the status 1. Without one it runs the loop, for which it has to know where the history file
is. Two faults leave it without a status: a home directory that is not known, and a thrown value that cannot
be reported. -/

namespace SmallLisp

/-- What a run of the program leaves: its exit status, its output, and its log with error reports. -/
structure ProgramResult where
  exit : Nat
  output : String
  log : String
  deriving DecidableEq, Repr

/-- Why the program broke off before it came to a status. -/
inductive Breakdown
  /-- The history file is below the home directory of a user who is not known. -/
  | unknownHome
  /-- A thrown value could not be reported. -/
  | overrun (limit : Overrun)
  deriving DecidableEq, Repr

/-- The wording of a breakdown. -/
def Breakdown.message : Breakdown → String
  | .unknownHome => "Could not determine home directory."
  | .overrun limit => limit.message

namespace Program

/-- The log entries of a session's start. -/
def startEntries : List LogEntry := Session.bootstrap.map fun source => .ofInterpreter s!"bootstrap: {source}"

/-- The log entry of loading a file. -/
def loadEntry (path : String) (argv : List String) : LogEntry :=
  .ofInterpreter s!"loading {path} with argv {Text.quotedList argv}"

/-- The log entry of a file that ended with an error. -/
def failedEntry (path : String) : LogEntry := .ofFrontEnd .debug s!"running {path} failed"

/-- The log of some entries that reach a threshold, all made at one time. -/
def logText (time : String) (threshold : Nat) (entries : List LogEntry) : String :=
  String.join ((entries.filter (·.passes threshold)).map (·.line time))

/-- The lines of an input, of which the last need not be ended. -/
def inputLines (input : String) : List LineInput :=
  let lines := input.splitOn "\n"
  let lines := if lines.getLast? = some "" then lines.dropLast else lines
  lines.map .line

/-- Runs a source file. -/
def runFile (ctx : Context) (time : String) (threshold : Nat) (path : String) (argv : List String) :
    Option (Except Breakdown ProgramResult) := do
  let (outcome, session) ← Session.loadFile path argv ctx (Session.start ctx [])
  let logged := logText time threshold (startEntries ++ [loadEntry path argv])
  match outcome with
  | .ok _ => return .ok ⟨0, session.machine.output, logged⟩
  | .error e =>
    let failed := logText time threshold [failedEntry path]
    match e.report ctx.limits with
    | .ok text => return .ok ⟨1, session.machine.output, logged ++ failed ++ text ++ "\n"⟩
    | .error limit => return .error (.overrun limit)

/-- Runs the loop on an input. -/
def runLoop (ctx : Context) (time : String) (threshold : Nat) (prompt input : String) :
    Option (Except Breakdown ProgramResult) := do
  let ((events, failure), _) ← (Repl.mk prompt none).run (inputLines input) ctx (Session.start ctx [])
  let logged := logText time threshold (startEntries ++ ReplEvent.entries events)
  match failure with
  | none => return .ok ⟨0, String.join (events.map ReplEvent.display), logged⟩
  | some limit => return .error (.overrun limit)

/-- Runs the program. -/
def run (ctx : Context) (time : String) (env : Environment) (argv : List String) (input : String) :
    Option (Except Breakdown ProgramResult) :=
  match CommandLine.parse argv with
  | .help => some (.ok ⟨0, CommandLine.help, ""⟩)
  | .wrong fault => some (.ok ⟨2, "", CommandLine.complaint fault⟩)
  | .run invocation =>
    let threshold := Settings.threshold invocation.logLevel.level? env
    match invocation.file.filter (· ≠ "") with
    | some path => runFile ctx time threshold path invocation.args
    | none =>
      match Settings.historyPath env with
      | none => some (.error .unknownHome)
      | some _ => runLoop ctx time threshold (Settings.prompt env) input

end Program

end SmallLisp
