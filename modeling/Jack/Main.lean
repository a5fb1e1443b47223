import Jack.Project.CommandLine

/-!
Contract: the compiler as a program.

Owns: the file system of the machine, and the way of a response to the outside.

Does not own: any decision.
-/

set_option autoImplicit false

namespace Jack.Program

/-- Text as the operations of the machine want it. Names that are no text lead
nowhere. -/
def nameOf (path : Bytes) : IO String :=
  match String.fromUTF8? (ByteArray.mk path.toArray) with
  | some name => return name
  | none => throw (IO.userError "name without text")

def locate (path : Bytes) := do
  return (← IO.currentDir) / (← nameOf path)

/-- The refusal that an error of the machine stands for. -/
def refusalOf : IO.Error → Refusal
  | .noFileOrDirectory .. => .missing
  | .alreadyExists .. => .taken
  | .inappropriateType .. => .notDirectory
  | .invalidArgument .. => .invalid
  | .resourceExhausted .. => .nameTooLong
  | _ => .missing

/-- Runs an operation of the machine. An empty path leads nowhere. -/
def attempt {Value : Type} (path : Bytes) (operation : IO Value) :
    IO (Except Refusal Value) := do
  if path.isEmpty then return .error .missing
  try
    return .ok (← operation)
  catch error => return .error (refusalOf error)

def kindOf (path : Bytes) : IO (Except Refusal FileKind) :=
  attempt path do
    let found ← (← locate path).metadata
    return if found.type == .dir then .directory else .file

/-- Runs an operation on a file; a directory is refused. -/
def onFile {Value : Type} (path : Bytes) (operation : IO Value) :
    IO (Except Refusal Value) := do
  match ← kindOf path with
  | .ok .directory => return .error .isDirectory
  | _ => attempt path operation

instance : Files IO where
  workingDirectory := return utf8 (← IO.currentDir).toString
  kind := kindOf
  entries path := attempt path do
    let found ← (← locate path).readDir
    let named ← found.toList.mapM fun entry => do
      let details ← entry.path.metadata
      let kind : FileKind := if details.type == .dir then .directory else .file
      return (utf8 entry.fileName, kind)
    return named.mergeSort fun left right => left.1 ≤ right.1
  content path := onFile path do
    return (← IO.FS.readBinFile (← locate path)).toList
  create path := attempt path do
    IO.FS.createDir (← locate path)
  write path text := onFile path do
    IO.FS.writeBinFile (← locate path) (ByteArray.mk text.toArray)
  append path text := onFile path do
    let file ← IO.FS.Handle.mk (← locate path) .append
    file.write (ByteArray.mk text.toArray)

end Jack.Program

/-- Compiles the project that the arguments name. -/
def main (arguments : List String) : IO UInt32 := do
  let random := (← IO.getRandomBytes 16).toList
  let response ← Jack.CommandLine.run (m := IO) (arguments.map Jack.utf8) random
  (← IO.getStdout).write (ByteArray.mk response.printed.toArray)
  (← IO.getStderr).write (ByteArray.mk response.remarks.toArray)
  return UInt32.ofNat response.exit
