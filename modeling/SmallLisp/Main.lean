import SmallLisp.Program

/-! The command: the program on the real standard streams, environment and files. A computation of a
session knows only the files that were loaded for it; where it asks for another one, that file is loaded and
the computation is done again from the state that it began in. -/

namespace SmallLisp.Command

/-- Files loaded so far, by the path that they were asked for with. -/
abbrev Loaded := List (String × Except FileFault (List UInt8))

/-- The context in which the loaded files are at hand. -/
def context (loaded : Loaded) : Context :=
  ⟨{}, fun path => (Assoc.find? path loaded).getD (.error .notLoaded)⟩

/-- The fault that a failed attempt to read a file shows. A directory can be opened and fails only when it is
read, where the error does not name it; a path through a file cannot be opened. -/
def faultOf : IO.Error → FileFault
  | .noFileOrDirectory .. => .notFound
  | .inappropriateType none .. => .isDirectory
  | .inappropriateType (some _) .. => .notDirectory
  | .invalidArgument .. => .nameTooLong
  | .permissionDenied .. => .accessDenied
  | e => .other (toString e)

/-- Loads a file. -/
def load (path : String) : IO (Except FileFault (List UInt8)) := do
  try
    let bytes ← IO.FS.readBinFile (Path.ofText path).toText
    return .ok bytes.toList
  catch e => return .error (faultOf e)

/-- Does a computation of a session, with all the files that it asks for. -/
partial def perform {α : Type} (x : SessionM α) (session : Session) (loaded : Loaded) :
    IO (Except Error α × Session) := do
  match x (context loaded) session with
  | some (.error (.unreadable path .notLoaded), _) => perform x session ((path, ← load path) :: loaded)
  | some outcome => return outcome
  | none => throw (IO.userError "out of steps")

/-- The time of a log entry, in milliseconds of the machine's clock. -/
def clock : IO String := return toString (← IO.monoMsNow)

/-- Writes log entries that reach a threshold. -/
def writeLog (threshold : Nat) (entries : List LogEntry) : IO Unit := do
  IO.eprint (Program.logText (← clock) threshold entries)

/-- Ends the program without a status of its own. -/
def breakOff (breakdown : Breakdown) : IO UInt32 := do
  IO.eprintln breakdown.message
  return 1

/-- Runs a source file. -/
def runFile (threshold : Nat) (path : String) (argv : List String) : IO UInt32 := do
  let start := Session.start (context []) []
  writeLog threshold (Program.startEntries ++ [Program.loadEntry path argv])
  let (outcome, session) ← perform (Session.loadFile path argv) start []
  IO.print session.machine.output
  match outcome with
  | .ok _ => return 0
  | .error e =>
    writeLog threshold [Program.failedEntry path]
    match e.report (context []).limits with
    | .ok text =>
      IO.eprintln text
      return 1
    | .error limit => breakOff (.overrun limit)

/-- Answers the lines of the standard input until it ends. -/
partial def converse (threshold : Nat) (prompt : String) (input : IO.FS.Stream) (session : Session) :
    IO UInt32 := do
  IO.print prompt
  (← IO.getStdout).flush
  let line ← input.getLine
  if line.isEmpty then
    IO.println ""
    return 0
  let text := if line.endsWith "\n" then (line.dropEnd 1).toString else line
  let (outcome, session) ← perform (Session.reply text) session []
  let (events, failure) := Repl.eventsOf (context []).limits session.machine.output outcome
  IO.print (String.join (events.map ReplEvent.display))
  writeLog threshold (ReplEvent.entries events)
  match failure with
  | some limit => breakOff (.overrun limit)
  | none => converse threshold prompt input session.takeOutput.2

/-- The variables that the settings are taken from. -/
def readEnvironment : IO Environment := do
  let mut entries := []
  for name in ["MAL_PROMPT", "MAL_LOG_LEVEL", "MAL_HISTORY_FILE", "HOME"] do
    if let some value ← IO.getEnv name then
      entries := (name, value) :: entries
  let found := entries
  return fun name => Assoc.find? name found

end SmallLisp.Command

open SmallLisp in
def main (argv : List String) : IO UInt32 := do
  match CommandLine.parse argv with
  | .help =>
    IO.print CommandLine.help
    return 0
  | .wrong fault =>
    IO.eprint (CommandLine.complaint fault)
    return 2
  | .run invocation =>
    let env ← Command.readEnvironment
    let threshold := Settings.threshold invocation.logLevel.level? env
    match invocation.file.filter (· ≠ "") with
    | some path => Command.runFile threshold path invocation.args
    | none =>
      Command.writeLog threshold Program.startEntries
      match Settings.historyPath env with
      | none => Command.breakOff .unknownHome
      | some _ =>
        let session := Session.start (Command.context []) []
        Command.converse threshold (Settings.prompt env) (← IO.getStdin) session
