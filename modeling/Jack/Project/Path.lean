import Jack.Text.Bytes

/-!
Contract: paths as text.

Owns: the shortest equivalent of a path, joining, the directory and the last element
of a path, and absolute paths.

Does not own: which paths exist. Nothing here looks at a file system.
-/

set_option autoImplicit false

namespace Jack.Path

def separator : UInt8 := ascii '/'

/-- The elements of a path. An empty one stands in front of a leading separator,
behind a final one, and between two that touch. -/
def elements (path : Bytes) : List Bytes :=
  Bytes.split separator path

def isAbsolute (path : Bytes) : Bool :=
  path.head? == some separator

def isIdle (element : Bytes) : Bool :=
  element.isEmpty || element == utf8 "."

def isParent (element : Bytes) : Bool :=
  element == utf8 ".."

/-- Follows one more element. `kept` holds the elements so far, the last one first.
Above the root there is only the root. -/
def follow (absolute : Bool) (kept : List Bytes) (element : Bytes) : List Bytes :=
  if isIdle element then kept
  else if isParent element then
    match kept with
    | [] => if absolute then [] else [element]
    | last :: others => if isParent last then element :: kept else others
  else element :: kept

/-- The shortest path that leads to the same place by its text alone. -/
def clean (path : Bytes) : Bytes :=
  let absolute := isAbsolute path
  let kept := (elements path).foldl (follow absolute) []
  let text := List.intercalate [separator] kept.reverse
  if absolute then separator :: text
  else if text.isEmpty then utf8 "."
  else text

/-- The path of `name` in a directory. The empty directory adds nothing. -/
def join (directory name : Bytes) : Bytes :=
  if !directory.isEmpty then clean (directory ++ separator :: name)
  else if !name.isEmpty then clean name
  else []

/-- Up to the last separator, which is included. -/
def upToSeparator (path : Bytes) : Bytes :=
  (path.reverse.dropWhile (· != separator)).reverse

/-- What stands up to the last separator is no longer than the path. -/
theorem length_upToSeparator_le (path : Bytes) :
    (upToSeparator path).length ≤ path.length := by
  simpa [upToSeparator] using Bytes.length_dropWhile_le (· != separator) path.reverse

/-- Behind the last separator. -/
def behindSeparator (path : Bytes) : Bytes :=
  (path.reverse.takeWhile (· != separator)).reverse

def directory (path : Bytes) : Bytes :=
  clean (upToSeparator path)

/-- The last element of a path, whatever separators follow it. -/
def lastElement (path : Bytes) : Bytes :=
  if path.isEmpty then utf8 "."
  else
    let name := behindSeparator (Bytes.trimEnd separator path)
    if name.isEmpty then [separator] else name

/-- The path from the root, for a path that is taken from `current`. -/
def absolute (current path : Bytes) : Bytes :=
  if isAbsolute path then clean path else join current path

end Jack.Path
