import SmallLisp.Log
import SmallLisp.Path
import SmallLisp.Text.Blank

/-! The settings that come from environment variables: the prompt, the history file and the log threshold. A
variable that is absent, and for the last two also one that says nothing, leaves the default in place. -/

namespace SmallLisp

/-- The values of environment variables. -/
abbrev Environment := String → Option String

namespace Settings

/-- The prompt where nothing else is said. -/
def defaultPrompt : String := "user> "

/-- The home directory where nothing else is said. -/
def defaultHome : String := "/home/mal"

/-- The prompt of the loop. -/
def prompt (env : Environment) : String := (env "MAL_PROMPT").getD defaultPrompt

/-- The home directory that the first part of a path names by a tilde, with or without a user behind it. -/
def homeOf? (env : Environment) (part : String) : Option Path :=
  let home := if part = "~" then some ((env "HOME").getD defaultHome)
    else if part = "~root" then some "/root" else none
  match home with
  | none => none
  | some text =>
    let trimmed := String.ofList (text.toList.reverse.dropWhile (· = '/')).reverse
    if trimmed.startsWith "~" then none else some (Path.ofText (if trimmed = "" then "/" else trimmed))

/-- The path with its tilde resolved; `none` if it names a home that is not known. -/
def expandHome (env : Environment) (path : Path) : Option Path :=
  match path.parts with
  | first :: rest =>
    if path.isAbsolute || !first.startsWith "~" then some path
    else (homeOf? env first).map fun home => ⟨home.root, home.parts ++ rest⟩
  | [] => some path

/-- The history file of the loop. Blanks around its path do not count. -/
def historyPath (env : Environment) : Option Path :=
  let text := Text.trim ((env "MAL_HISTORY_FILE").getD "")
  if text = "" then some (Path.ofText (defaultHome ++ "/.mal-history"))
  else expandHome env (Path.ofText text)

/-- The capital of a letter, as far as the names of thresholds depend on it: the dotless i and the long s
have the capitals of plain letters. -/
def capital (c : Char) : Char :=
  if c = 'ı' then 'I' else if c = 'ſ' then 'S' else c.toUpper

/-- The log threshold. An override wins over the variable, and an unknown name stands for the default. -/
def threshold (override : Option String) (env : Environment) : Nat :=
  let names := [override, env "MAL_LOG_LEVEL"].filterMap fun name => name.filter (· ≠ "")
  match names with
  | name :: _ => (threshold? (name.map capital)).getD defaultThreshold
  | [] => defaultThreshold

end Settings

end SmallLisp
