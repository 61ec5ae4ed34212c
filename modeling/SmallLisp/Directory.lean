import SmallLisp.Error
import SmallLisp.Path

/-! A working directory: the files that a program can read. What is above the directory is known to be
directories and nothing else. -/

namespace SmallLisp

/-- Files with their bytes, and folders that need not hold any file. All paths are relative. -/
structure Directory where
  files : List (List String × List UInt8)
  folders : List (List String)

namespace Directory

/-- The directory with files and folders at the given paths. -/
def ofPaths (files : List (String × List UInt8)) (folders : List String) : Directory :=
  let parts (path : String) := (Path.ofText path).parts
  ⟨files.map fun (path, bytes) => (parts path, bytes), folders.map parts⟩

/-- Whether a path leads to a folder: one of its own, or one around a file. -/
def isFolder (d : Directory) (parts : List String) : Bool :=
  d.folders.any parts.isPrefixOf || d.files.any fun file => parts.isPrefixOf file.1.dropLast

/-- The longest name that a file can have, in bytes. -/
def nameLimit : Nat := 255

/-- The number of bytes in a path from which on it is too long. -/
def pathLimit : Nat := 4096

/-- The fault of a path on from some folder above the directory. -/
def faultAbove (parts : List String) : FileFault :=
  match parts.dropWhile (· = "..") with
  | [] => .isDirectory
  | part :: _ => if nameLimit < part.utf8ByteSize then .nameTooLong else .notFound

/-- Follows the parts of a path from a folder. -/
def follow (d : Directory) (folder : List String) : List String → Except FileFault (List UInt8)
  | [] => .error .isDirectory
  | ".." :: rest =>
    if folder.isEmpty then .error (faultAbove rest)
    else follow d folder.dropLast rest
  | part :: rest =>
    let next := folder ++ [part]
    if nameLimit < part.utf8ByteSize then .error .nameTooLong
    else if d.isFolder next then follow d next rest
    else match d.files.find? (·.1 = next) with
      | some file => if rest.isEmpty then .ok file.2 else .error .notDirectory
      | none => .error .notFound

/-- The bytes of the file at a path. -/
def read (d : Directory) (path : String) : Except FileFault (List UInt8) :=
  let p := Path.ofText path
  if pathLimit ≤ p.toText.utf8ByteSize then .error .nameTooLong
  else if p.isAbsolute then .error (faultAbove p.parts)
  else d.follow [] p.parts

end Directory

end SmallLisp
