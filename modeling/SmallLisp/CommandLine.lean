import SmallLisp.Text.DecimalDigit
import SmallLisp.Text.Quoted

/-! The command line. Options come first; the first argument that is none is the source file, and everything
behind it belongs to the program in that file, whatever it looks like. Two dashes end the options. Long
options may be shortened as long as they stay distinct, and take their value after an equals sign or as the
next argument. Short options may be joined behind one dash. A negative number and an argument with a space in
it are no options. -/

namespace SmallLisp

/-- The log level that the options ask for. Two dashes are no level, but they take back one that was named
before. -/
inductive LevelOption
  | absent
  | blank
  | named (level : String)
  deriving DecidableEq, Repr

namespace LevelOption

/-- The option with a value. -/
def ofValue (value : String) : LevelOption := if value = "--" then .blank else .named value

/-- The level that is named. -/
def level? : LevelOption → Option String
  | named level => some level
  | _ => none

end LevelOption

/-- What a command line asks to run. -/
structure Invocation where
  file : Option String
  args : List String
  logLevel : LevelOption
  deriving DecidableEq, Repr

/-- What is wrong with a command line. -/
inductive UsageFault
  | ambiguous (option : String)
  | valueMissing
  | valueIgnored (value : String)
  | unrecognized (args : List String)
  deriving DecidableEq, Repr

inductive Command
  | run (invocation : Invocation)
  | help
  | wrong (fault : UsageFault)
  deriving DecidableEq, Repr

/-- How an argument is taken as long as options are expected. -/
inductive ArgumentRole
  | plain
  | helpFlag
  | helpWithValue (value : String)
  | logLevel (value : Option String)
  | unknown
  | ambiguous
  deriving DecidableEq, Repr

namespace CommandLine

def helpOption : String := "--help"

def logLevelOption : String := "--log-level"

/-- Whether an argument is a negative number: digits, or a point with digits behind it. -/
def isNegativeNumber (arg : String) : Bool :=
  let isDigit (c : Char) := (Text.digitValue? c).isSome
  let digitsOnly (cs : List Char) := !cs.isEmpty && cs.all isDigit
  let number (cs : List Char) := digitsOnly cs ||
    match cs.dropWhile isDigit with
    | '.' :: fraction => digitsOnly fraction
    | _ => false
  match arg.toList with
  | '-' :: cs => number cs || (cs.getLast? = some '\n' && number cs.dropLast)
  | _ => false

/-- The role of an argument that no option is spelled like. -/
def otherRole (arg : String) : ArgumentRole :=
  if isNegativeNumber arg || arg.contains ' ' then .plain else .unknown

/-- The role of a long option, which may be shortened, with the value behind its equals sign. -/
def longRole (arg name : String) (value : Option String) : ArgumentRole :=
  if name = helpOption then value.elim .helpFlag .helpWithValue
  else if name = logLevelOption then .logLevel value
  else
    match helpOption.startsWith name, logLevelOption.startsWith name with
    | true, true => .ambiguous
    | true, false => value.elim .helpFlag .helpWithValue
    | false, true => .logLevel value
    | false, false => otherRole arg

/-- The role of short options joined to a first `-h`, which are all `h` if they are known. -/
def joinedRole (options : List Char) : ArgumentRole :=
  match options.dropWhile (· = 'h') with
  | [] => .helpFlag
  | rest => .helpWithValue (String.ofList rest)

/-- The role of `-h` with more characters behind it: joined options, in front of which an equals sign may
stand, but not alone. -/
def shortHelpRole : List Char → ArgumentRole
  | ['='] => .helpWithValue ""
  | '=' :: options => joinedRole options
  | options => joinedRole options

/-- The role of an argument. -/
def roleOf (arg : String) : ArgumentRole :=
  match arg.toList with
  | '-' :: '-' :: cs =>
    let name := cs.takeWhile (· ≠ '=')
    let value := match cs.dropWhile (· ≠ '=') with
      | _ :: value => some (String.ofList value)
      | [] => none
    longRole arg (String.ofList ('-' :: '-' :: name)) value
  | '-' :: 'h' :: tail => shortHelpRole tail
  | '-' :: _ :: _ => otherRole arg
  | _ => .plain

/-- The file and its arguments. Two dashes count for nothing beside the file. -/
def splitProgram : List String → Option String × List String
  | ["--"] => (none, [])
  | "--" :: file :: args => (some file, args)
  | file :: "--" :: args => (some file, args)
  | file :: args => (some file, args)
  | [] => (none, [])

/-- What is to be run, unless there were unknown options in front of it. -/
def finish (level : LevelOption) (unknown : List String) (program : List String) : Command :=
  if unknown.isEmpty then
    let (file, args) := splitProgram program
    .run ⟨file, args, level⟩
  else .wrong (.unrecognized unknown)

/-- Takes options up to the first argument that is none. -/
def scan (level : LevelOption) (unknown : List String) : List String → Command
  | [] => finish level unknown []
  | "--" :: args => finish level unknown ("--" :: args)
  | arg :: args =>
    match roleOf arg with
    | .plain => finish level unknown (arg :: args)
    | .helpFlag => .help
    | .helpWithValue value => .wrong (.valueIgnored value)
    | .logLevel (some value) => scan (.ofValue value) unknown args
    | .logLevel none =>
      match args with
      | value :: args =>
        if value ≠ "--" && roleOf value = .plain then scan (.named value) unknown args
        else .wrong .valueMissing
      | [] => .wrong .valueMissing
    | .unknown | .ambiguous => scan level (unknown ++ [arg]) args

/-- Reads a command line. An option that could be two is a fault wherever it stands in front of two dashes,
even among the arguments of the program. -/
def parse (argv : List String) : Command :=
  match (argv.takeWhile (· ≠ "--")).find? (roleOf · = .ambiguous) with
  | some arg => .wrong (.ambiguous arg)
  | none => scan .absent [] argv

/-- The first line of the help, which also stands in front of every complaint. -/
def usage : String := "usage: mal [-h] [--log-level LOG_LEVEL] [file] ...\n"

/-- The help. -/
def help : String := usage ++ "
A small Lisp interpreter

positional arguments:
  file                  Source file to run (starts the REPL when omitted)
  args                  Arguments made available to the program as *ARGV*

options:
  -h, --help            show this help message and exit
  --log-level LOG_LEVEL
                        Logging level (default: $MAL_LOG_LEVEL or WARNING)

Examples:
  # Start the interactive REPL
  mal

  # Run a program; remaining arguments are bound to *ARGV*
  mal program.mal one two
"

/-- The wording of a fault. -/
def faultMessage : UsageFault → String
  | .ambiguous option => s!"ambiguous option: {option} could match {helpOption}, {logLevelOption}"
  | .valueMissing => s!"argument {logLevelOption}: expected one argument"
  | .valueIgnored value => s!"argument -h/{helpOption}: ignored explicit argument {Text.quoted value}"
  | .unrecognized args => "unrecognized arguments: " ++ " ".intercalate args

/-- The complaint about a command line. -/
def complaint (fault : UsageFault) : String := usage ++ "mal: error: " ++ faultMessage fault ++ "\n"

end CommandLine

end SmallLisp
