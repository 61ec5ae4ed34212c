/-! Log entries. Each names the part of the program that it comes from and has a severity; a threshold keeps
the less severe entries out. The names of thresholds include some that no entry has. -/

namespace SmallLisp

inductive Severity
  | debug | warning
  deriving DecidableEq, Repr

def Severity.number : Severity → Nat
  | .debug => 10
  | .warning => 30

def Severity.name : Severity → String
  | .debug => "DEBUG"
  | .warning => "WARNING"

structure LogEntry where
  source : String
  severity : Severity
  message : String
  deriving DecidableEq, Repr

namespace LogEntry

/-- An entry of the interpreter. -/
def ofInterpreter (message : String) : LogEntry := ⟨"MalInterpreter", .debug, message⟩

/-- An entry of the front end. -/
def ofFrontEnd (severity : Severity) (message : String) : LogEntry := ⟨"MalRepl", severity, message⟩

/-- Whether an entry is severe enough for a threshold. -/
def passes (threshold : Nat) (entry : LogEntry) : Bool := threshold ≤ entry.severity.number

/-- The line of an entry that was made at a time. -/
def line (time : String) (entry : LogEntry) : String :=
  s!"{time} {entry.source} {entry.severity.name} {entry.message}\n"

end LogEntry

/-- The threshold that a name in capitals stands for. -/
def threshold? : String → Option Nat
  | "CRITICAL" | "FATAL" => some 50
  | "ERROR" => some 40
  | "WARNING" | "WARN" => some 30
  | "INFO" => some 20
  | "DEBUG" => some 10
  | "NOTSET" => some 0
  | _ => none

/-- The threshold where nothing else is said. -/
def defaultThreshold : Nat := Severity.number .warning

end SmallLisp
