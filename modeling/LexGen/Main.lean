import LexGen.Command.Run

/-!
# The program

Connects the command to the files and the streams of the operating system.
-/

namespace LexGen.Command

/-- The cause that the operating system gives for a failure. -/
def FileError.ofError : IO.Error → FileError
  | .noFileOrDirectory .. => .notFound
  | .inappropriateType _ 20 _ => .notDirectory
  | .inappropriateType _ 21 _ => .isDirectory
  | .invalidArgument _ 36 _ => .nameTooLong
  | .permissionDenied _ code details => .other (details ++ " (os error " ++ code.toNat.repr ++ ")")
  | error => .other (toString error)

/-- Bytes as text. -/
def decoded (bytes : ByteArray) : Except FileError String :=
  match String.fromUTF8? bytes with
  | some text => .ok text
  | none => .error .notUtf8

def operatingSystem : System IO where
  readFile path := do
    match ← (do (← IO.FS.Handle.mk path .read).readBinToEnd : IO ByteArray).toBaseIO with
    | .ok bytes => return decoded bytes
    | .error error => return .error (.ofError error)
  readInput := do
    match ← ((← IO.getStdin).readBinToEnd).toBaseIO with
    | .ok bytes => return decoded bytes
    | .error error => return .error (.ofError error)
  writeFile path content := do
    match ← (IO.FS.writeFile path content).toBaseIO with
    | .ok _ => return .ok ()
    | .error error => return .error (.ofError error)

end LexGen.Command

def main (arguments : List String) : IO UInt32 := do
  let outcome ← LexGen.Command.run LexGen.Command.operatingSystem arguments
  (← IO.getStdout).putStr outcome.stdout
  (← IO.getStderr).putStr outcome.stderr
  return outcome.code.toUInt32
