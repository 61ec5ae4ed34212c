/-! Paths of files, in the form in which they are used and shown. A path is normal when it has no empty and
no `.` parts; `..` stays, because the part before it may be a link. Two slashes at the very beginning, and not
more, are kept apart from one. -/

namespace SmallLisp

/-- A path: the slashes at its beginning, and the parts between its slashes. -/
structure Path where
  root : String
  parts : List String
  deriving DecidableEq, Repr

namespace Path

/-- The path that a text names, in normal form. -/
def ofText (text : String) : Path :=
  let slashes := (text.toList.takeWhile (· = '/')).length
  let root := if slashes = 0 then "" else if slashes = 2 then "//" else "/"
  ⟨root, (text.splitOn "/").filter fun part => part ≠ "" && part ≠ "."⟩

/-- The text of a path. The path without parts is the current directory or the root itself. -/
def toText (p : Path) : String :=
  if p.parts.isEmpty then (if p.root = "" then "." else p.root)
  else p.root ++ "/".intercalate p.parts

/-- Whether a path starts at the root and not at the current directory. -/
def isAbsolute (p : Path) : Bool := p.root ≠ ""

end Path

end SmallLisp
