/-!
A file tree without links: a node is a file or a directory, and a directory lists its entries by name. A location is
the list of names that leads to a node from the root; looking up and changing nodes is by location.
-/
namespace DeferredBinding

/-- A file with its bytes, or a directory with its entries in the order of their names. -/
inductive Node where
  | file (bytes : ByteArray)
  | directory (entries : List (String × Node))

/-- The names that lead to a node from the root. -/
abbrev Location := List String

namespace Node

/-- A directory without entries. -/
def empty : Node :=
  .directory []

/-- The entries of a directory; a file has none. -/
def entries : Node → List (String × Node)
  | .file _ => []
  | .directory es => es

/-- Whether a node is a directory. -/
def isDirectory : Node → Bool
  | .directory _ => true
  | .file _ => false

/-- The entry of a directory under a name. -/
def child? (node : Node) (name : String) : Option Node :=
  List.lookup name node.entries

/-- The entries with one put under a name, in the place that its name has. -/
def insertEntry (name : String) (node : Node) : List (String × Node) → List (String × Node)
  | [] => [(name, node)]
  | (k, old) :: rest =>
    if k = name then (name, node) :: rest
    else if name < k then (name, node) :: (k, old) :: rest
    else (k, old) :: insertEntry name node rest

/-- The entries without the ones under a name. -/
def eraseEntry (name : String) (es : List (String × Node)) : List (String × Node) :=
  es.filter fun e => e.1 != name

/-- A directory with a node put under a name, or with that name removed; a file stays as it is. -/
def setChild (name : String) (new : Option Node) : Node → Node
  | .file bytes => .file bytes
  | .directory es =>
    match new with
    | some node => .directory (insertEntry name node es)
    | none => .directory (eraseEntry name es)

/-- The node at a location. -/
def at? : Location → Node → Option Node
  | [], node => some node
  | name :: rest, node => (node.child? name).bind (at? rest)

/-- The tree with the node at a location replaced, or removed; locations that lead through no directory are left
alone. -/
def set (new : Option Node) : Location → Node → Node
  | [], node => new.getD node
  | [name], node => node.setChild name new
  | name :: rest, node =>
    match node.child? name with
    | some inner => node.setChild name (some (inner.set new rest))
    | none => node

mutual

/-- The files below a node with their locations, depth first in the order of the entries. -/
def files : Node → List (Location × ByteArray)
  | .file bytes => [([], bytes)]
  | .directory es => filesOf es

/-- The files below the entries of a directory. -/
def filesOf : List (String × Node) → List (Location × ByteArray)
  | [] => []
  | (name, node) :: rest => (node.files.map fun f => (name :: f.1, f.2)) ++ filesOf rest

end

mutual

/-- Everything below a node with its location, depth first, a directory before its contents; a file comes with its
bytes. -/
def listing : Node → List (Location × Option ByteArray)
  | .file _ => []
  | .directory es => listingOf es

/-- Everything at and below the entries of a directory. -/
def listingOf : List (String × Node) → List (Location × Option ByteArray)
  | [] => []
  | (name, .file bytes) :: rest => ([name], some bytes) :: listingOf rest
  | (name, .directory es) :: rest =>
    ([name], none) :: ((listingOf es).map fun f => (name :: f.1, f.2)) ++ listingOf rest

end

end Node

end DeferredBinding
