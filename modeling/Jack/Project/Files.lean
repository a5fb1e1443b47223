import Jack.Project.Path

/-!
Contract: what the compiler asks of a file system.

Owns: the operations, the refusals, the wording of a refused operation, and making a
directory together with those that it lies in.

Does not own: any file system.
-/

set_option autoImplicit false

namespace Jack

inductive Refusal where
  | missing
  | notDirectory
  | isDirectory
  | taken
  | nameTooLong
  | invalid
deriving DecidableEq, Repr

def Refusal.message : Refusal → String
  | missing => "no such file or directory"
  | notDirectory => "not a directory"
  | isDirectory => "is a directory"
  | taken => "file exists"
  | nameTooLong => "file name too long"
  | invalid => "invalid argument"

inductive FileKind where
  | file
  | directory
deriving DecidableEq, Repr

/-- The operations on files that can be refused. -/
inductive FileOperation where
  | stat
  | openFile
  | read
  | makeDirectory
deriving DecidableEq, Repr

def FileOperation.name : FileOperation → String
  | stat => "stat"
  | openFile => "open"
  | read => "read"
  | makeDirectory => "mkdir"

/-- A refused operation, with the path as it was given. -/
structure FileFault where
  operation : FileOperation
  path : Bytes
  refusal : Refusal
deriving DecidableEq, Repr

def FileFault.message (fault : FileFault) : Bytes :=
  utf8 fault.operation.name ++ utf8 " " ++ fault.path ++ utf8 ": " ++
    utf8 fault.refusal.message

/-- A file system. Relative paths start at the working directory. -/
class Files (m : Type → Type) where
  /-- The path of the working directory from the root. -/
  workingDirectory : m Bytes
  /-- What a path leads to. -/
  kind : Bytes → m (Except Refusal FileKind)
  /-- The names in a directory with what they lead to, in the order of their bytes. -/
  entries : Bytes → m (Except Refusal (List (Bytes × FileKind)))
  /-- The content of a file. -/
  content : Bytes → m (Except Refusal Bytes)
  /-- Makes a directory in one that exists. -/
  create : Bytes → m (Except Refusal Unit)
  /-- Gives a file a new content, and makes it when it is missing. -/
  write : Bytes → Bytes → m (Except Refusal Unit)
  /-- Adds to the end of a file, and makes it when it is missing. -/
  append : Bytes → Bytes → m (Except Refusal Unit)

namespace Files

variable {m : Type → Type} [Monad m] [Files m]

/-- An operation with its refusal put into words. -/
def attempt {Value : Type} (operation : FileOperation) (path : Bytes)
    (step : m (Except Refusal Value)) : m (Except FileFault Value) := do
  return (← step).mapError fun refusal => { operation, path, refusal }

def stat (path : Bytes) : m (Except FileFault FileKind) :=
  attempt .stat path (kind path)

def list (path : Bytes) : m (Except FileFault (List (Bytes × FileKind))) :=
  attempt .openFile path (entries path)

/-- Reads a file. A directory can be opened but not read. -/
def read (path : Bytes) : m (Except FileFault Bytes) := do
  match ← content path with
  | .ok text => return .ok text
  | .error .isDirectory =>
      return .error { operation := .read, path, refusal := .isDirectory }
  | .error refusal => return .error { operation := .openFile, path, refusal }

def save (path text : Bytes) : m (Except FileFault Unit) :=
  attempt .openFile path (write path text)

def extend (path text : Bytes) : m (Except FileFault Unit) :=
  attempt .openFile path (append path text)

/-- The path that a path lies in by its text alone, unless that is the root or the
working directory. -/
def parent? (path : Bytes) : Option Bytes :=
  match Path.upToSeparator (Bytes.trimEnd Path.separator path) with
  | first :: second :: rest => some ((first :: second :: rest).dropLast)
  | _ => none

/-- Makes a directory when the file system has none there yet. A directory that can
not be made because there already is one is as good. -/
def makeOne (path : Bytes) : m (Except FileFault Unit) := do
  match ← create path with
  | .ok _ => return .ok ()
  | .error refusal =>
      match ← kind path with
      | .ok .directory => return .ok ()
      | _ => return .error { operation := .makeDirectory, path, refusal }

/-- A parent is shorter. -/
theorem length_lt_of_parent? {path parent : Bytes} (found : parent? path = some parent) :
    parent.length < path.length := by
  unfold parent? at found
  split at found
  · rename_i first second rest shape
    have trimmed := Bytes.length_trimEnd_le Path.separator path
    have kept := Path.length_upToSeparator_le (Bytes.trimEnd Path.separator path)
    rw [shape] at kept
    cases found
    simp only [List.length_dropLast, List.length_cons] at kept ⊢
    omega
  · cases found

/-- Makes a directory and those that it lies in, as far as they are missing. -/
def makeDirectories (path : Bytes) : m (Except FileFault Unit) := do
  match ← kind path with
  | .ok .directory => return .ok ()
  | .ok .file =>
      return .error { operation := .makeDirectory, path, refusal := .notDirectory }
  | .error _ =>
      match _ : parent? path with
      | none => makeOne path
      | some parent =>
          match ← makeDirectories parent with
          | .error fault => return .error fault
          | .ok _ => makeOne path
termination_by path.length
decreasing_by exact length_lt_of_parent? ‹parent? path = some parent›

end Files

end Jack
