import TypedLisp.CommandLine

/-!
# The program

Runs the command line on the files of the system.
-/

namespace TypedLisp

/-- What the system says under a number. Some of its calls give the number with a minus sign. -/
def FileError.ofCode (code : UInt32) (details : String) : FileError :=
  match code.toNat.min (UInt32.size - code.toNat) with
  | 2 => .notFound
  | 13 => .system "Permission denied" 13
  | 20 => .notDirectory
  | 21 => .isDirectory
  | 36 => .nameTooLong
  | n => .system details n

/-- Why the system did not read a file. -/
def FileError.ofSystem : IO.Error → FileError
  | .noFileOrDirectory _ _ _ => .notFound
  | .inappropriateType _ code details | .invalidArgument _ code details
  | .permissionDenied _ code details | .resourceExhausted _ code details => .ofCode code details
  | .userError _ => .notText
  | e => .system (toString e) 0

/-- The files of the system. -/
def systemFiles : Files IO where
  isFile path := do
    match ← (IO.FS.readFile path).toBaseIO with
    | .ok _ => return true
    | .error (.userError _) => return true
    | .error (.permissionDenied _ _ _) => return true
    | .error _ => return false
  read path := do
    if path.contains '\x00' then return .error .nulInPath
    match ← (IO.FS.readFile path).toBaseIO with
    | .ok text => return .ok text
    | .error e => return .error (.ofSystem e)

end TypedLisp

def main (args : List String) : IO UInt32 := do
  let out ← TypedLisp.Command.main TypedLisp.systemFiles args
  (← IO.getStdout).putStr out.stdout
  (← IO.getStderr).putStr out.stderr
  return UInt32.ofNat out.code
