import Jack.Project.Files
import Std.Data.TreeMap

/-!
Contract: a file system that is a plain value.

Owns: the tree of files and directories, the way of a path through it, and the file
operations as changes of the tree.

Does not own: links, permissions and time stamps; there are none.
-/

set_option autoImplicit false

namespace Jack

inductive FileNode where
  | file (content : Bytes)
  | directory
deriving DecidableEq, Repr

def FileNode.kind : FileNode → FileKind
  | file _ => .file
  | directory => .directory

/-- A place: the names that lead to it from the root. -/
abbrev Place := List Bytes

/-- The nodes by their places, without the root, and the working directory. -/
structure FileTree where
  nodes : Std.TreeMap Place FileNode := {}
  current : Place := []

/-- Where a path ends: at a node, or at a free name in a directory. A free name can
be written as the name of a directory, with a separator behind it. -/
inductive Location where
  | present (place : Place) (node : FileNode)
  | vacant (place : Place) (asDirectory : Bool)
deriving DecidableEq, Repr

namespace FileTree

/-- The longest name that a file can have. -/
def maxName : Nat := 255

/-- The longest path that can be followed. -/
def maxPath : Nat := 4095

/-- The node at a place. The root is a directory. -/
def node? (tree : FileTree) (place : Place) : Option FileNode :=
  if place.isEmpty then some .directory else tree.nodes[place]?

/-- Follows the elements of a path from a place on. -/
def walk (tree : FileTree) (place : Place) : List Bytes → Except Refusal Location
  | [] =>
      match tree.node? place with
      | some node => .ok (.present place node)
      | none => .error .missing
  | element :: rest =>
      match tree.node? place with
      | none => .error .missing
      | some (.file _) => .error .notDirectory
      | some .directory =>
          if Path.isIdle element then tree.walk place rest
          else if Path.isParent element then tree.walk place.dropLast rest
          else if maxName < element.length then .error .nameTooLong
          else if (tree.node? (place ++ [element])).isSome then
            tree.walk (place ++ [element]) rest
          else if rest.all List.isEmpty then
            .ok (.vacant (place ++ [element]) !rest.isEmpty)
          else .error .missing

def locate (tree : FileTree) (path : Bytes) : Except Refusal Location :=
  if path.contains 0 then .error .invalid
  else if path.isEmpty then .error .missing
  else if maxPath < path.length then .error .nameTooLong
  else tree.walk (if Path.isAbsolute path then [] else tree.current) (Path.elements path)

def find (tree : FileTree) (path : Bytes) : Except Refusal (Place × FileNode) := do
  match ← tree.locate path with
  | .present place node => return (place, node)
  | .vacant _ _ => throw .missing

def put (tree : FileTree) (place : Place) (node : FileNode) : FileTree :=
  { tree with nodes := tree.nodes.insert place node }

def content (tree : FileTree) (path : Bytes) : Except Refusal Bytes := do
  match ← tree.find path with
  | (_, .file content) => return content
  | (_, .directory) => throw .isDirectory

/-- The names in a directory, in the order of their bytes. -/
def entries (tree : FileTree) (path : Bytes) : Except Refusal (List (Bytes × FileKind)) := do
  match ← tree.find path with
  | (_, .file _) => throw .notDirectory
  | (place, .directory) =>
      return tree.nodes.toList.filterMap fun (other, node) =>
        if other.dropLast = place then other.getLast?.map (·, node.kind) else none

def create (tree : FileTree) (path : Bytes) : Except Refusal FileTree := do
  match ← tree.locate path with
  | .present _ _ => throw .taken
  | .vacant place _ => return tree.put place .directory

/-- The tree with a file of which the content changes. A file that is missing has the
empty content before. -/
def edit (tree : FileTree) (path : Bytes) (change : Bytes → Bytes) :
    Except Refusal FileTree := do
  match ← tree.locate path with
  | .present place (.file before) => return tree.put place (.file (change before))
  | .present _ .directory => throw .isDirectory
  | .vacant _ true => throw .isDirectory
  | .vacant place false => return tree.put place (.file (change []))

/-- A change that leaves the tree as it is when it is refused. -/
def apply (change : FileTree → Except Refusal FileTree) :
    StateM FileTree (Except Refusal Unit) := fun tree =>
  match change tree with
  | .ok after => (.ok (), after)
  | .error refusal => (.error refusal, tree)

/-- A question that leaves the tree as it is. -/
def ask {Value : Type} (question : FileTree → Value) : StateM FileTree Value := fun tree =>
  (question tree, tree)

instance : Files (StateM FileTree) where
  workingDirectory := ask fun tree =>
    Path.separator :: List.intercalate [Path.separator] tree.current
  kind path := ask fun tree => (tree.find path).map fun found => found.2.kind
  entries path := ask fun tree => tree.entries path
  content path := ask fun tree => tree.content path
  create path := apply fun tree => tree.create path
  write path text := apply fun tree => tree.edit path fun _ => text
  append path text := apply fun tree => tree.edit path fun before => before ++ text

end FileTree

end Jack
