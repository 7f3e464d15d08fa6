import TypedLisp.Package.Path

/-!
# Files by path

What a command asks of files: whether a path leads to one, and its text. A `Directory` answers from
memory. A path is walked name by name, and each name but the last has to lead to a directory, so
that `sub/../a` is a file only where `sub` is a directory.
-/

namespace TypedLisp

/-- Why a file cannot be read: what the system says, with its number, or what is wrong with the path
or with the bytes. -/
inductive FileError where
  | system (details : String) (code : Nat)
  | nulInPath
  | notText
deriving DecidableEq, Repr

namespace FileError

/-- Nothing is there. -/
def notFound : FileError := .system "No such file or directory" 2

/-- A path goes on after a file. -/
def notDirectory : FileError := .system "Not a directory" 20

/-- A directory has no text. -/
def isDirectory : FileError := .system "Is a directory" 21

/-- A name or a path has too many bytes. -/
def nameTooLong : FileError := .system "File name too long" 36

def message : FileError → String
  | .system details code => details ++ " (os error " ++ toString code ++ ")"
  | .nulInPath => "file name contained an unexpected NUL byte"
  | .notText => "stream did not contain valid UTF-8"

end FileError

/-- How a command sees files. -/
structure Files (m : Type → Type) where
  isFile : String → m Bool
  /-- The text of a file, or why it cannot be read. -/
  read : String → m (Except FileError String)

/-- The most bytes that a name in a path can have. -/
def maxNameBytes : Nat := 255

/-- The most bytes that a path can have. -/
def maxPathBytes : Nat := 4095

/-- A working directory in memory: its files, each with the names that lead to it. -/
structure Directory where
  entries : List (List String × String)
deriving DecidableEq, Repr

/-- Where the walk along a path stands: in a directory outside the working directory, in one inside
it, or at a file. -/
inductive Place where
  | outside
  | inside (names : List String)
  | file (text : String)
deriving DecidableEq, Repr

namespace Directory

/-- The names on a path, without the empty ones and `.`. -/
def pathNames (path : String) : List String :=
  (path.splitOn "/").filter fun name => name ≠ "" ∧ name ≠ "."

/-- The directory that holds some files. Of two files with one path, the later one counts. -/
def ofFiles (files : List (String × String)) : Directory :=
  ⟨(files.map fun (path, text) => (pathNames path, text)).reverse⟩

/-- What stands at the end of some names. A name leads to a directory if there is a file in it. -/
def lookup? (d : Directory) (names : List String) : Option Place :=
  match d.entries.find? (·.1 = names) with
  | some (_, text) => some (.file text)
  | none => if d.entries.any (names.isPrefixOf ·.1) then some (.inside names) else none

/-- Follows one name. Outside the working directory nothing is known but directories above. -/
def step (d : Directory) : Place → String → Except FileError Place
  | .file _, _ => .error .notDirectory
  | place, "" => .ok place
  | place, "." => .ok place
  | .outside, ".." => .ok .outside
  | .inside [], ".." => .ok .outside
  | .inside names, ".." => .ok (.inside names.dropLast)
  | place, name =>
    if maxNameBytes < name.utf8ByteSize then .error .nameTooLong
    else
      match place with
      | .inside names => (d.lookup? (names ++ [name])).elim (.error .notFound) .ok
      | _ => .error .notFound

/-- Where a path leads. -/
def resolve (d : Directory) (path : String) : Except FileError Place :=
  if path.contains '\x00' then .error .nulInPath
  else if path = "" then .error .notFound
  else if maxPathBytes < path.utf8ByteSize then .error .nameTooLong
  else (path.splitOn "/").foldlM d.step (if Path.isAbsolute path then .outside else .inside [])

/-- The text of the file at a path. -/
def read (d : Directory) (path : String) : Except FileError String :=
  match d.resolve path with
  | .ok (.file text) => .ok text
  | .ok _ => .error .isDirectory
  | .error e => .error e

/-- The directory as the files of a command. -/
def files (d : Directory) : Files Id where
  isFile path := (d.read path).isOk
  read path := d.read path

end Directory

end TypedLisp
