import DeferredBinding.Disk.Node
import DeferredBinding.Disk.Refusal
import DeferredBinding.Path

/-!
How the system follows a path through a file tree. Every part of a path but the last has to lead to a directory; what
the last part is allowed to be depends on the operation, so a walk ends just before it.
-/
namespace DeferredBinding

/-- A file tree with the directory that relative paths start from. -/
structure Disk where
  root : Node
  cwd : Location

namespace Disk

/-- The last part of a path: a name, a dot, two dots, or nothing but the root. -/
inductive Last where
  | name (s : String)
  | dot
  | dots
  | root
  deriving DecidableEq, Repr

/-- Where a walk ends: the directory that holds the last part, the last part, and whether slashes follow it. -/
structure Spot where
  directory : Location
  last : Last
  slash : Bool
  deriving DecidableEq, Repr

/-- A name has at most 255 bytes. -/
def nameLimit : Nat := 255

/-- A path has fewer than 4096 bytes. -/
def pathLimit : Nat := 4096

/-- The directory at a name below a directory. -/
def enterName (disk : Disk) (here : Location) (name : String) : Except Refusal Location :=
  if nameLimit < name.utf8ByteSize then .error .nameTooLong
  else match disk.root.at? (here ++ [name]) with
    | none => .error .notFound
    | some (.file _) => .error .notDirectory
    | some (.directory _) => .ok (here ++ [name])

/-- The directory that one part of a path leads to. -/
def enter (disk : Disk) (here : Location) (part : String) : Except Refusal Location :=
  if part == "." then .ok here
  else if part == ".." then .ok here.dropLast
  else disk.enterName here part

/-- The last part of a path by its text. -/
def Last.ofPart (part : String) : Last :=
  if part == "." then .dot
  else if part == ".." then .dots
  else .name part

/-- Follows the parts of a path up to the last. -/
def follow (disk : Disk) (slash : Bool) (here : Location) : List String → Except Refusal Spot
  | [] => .ok ⟨here, .root, slash⟩
  | [part] => .ok ⟨here, .ofPart part, slash⟩
  | part :: next :: rest => do
    let here ← disk.enter here part
    disk.follow slash here (next :: rest)

/-- Where a path leads, up to its last part. -/
def walk (disk : Disk) (p : Path) : Except Refusal Spot :=
  if p.text.toList.contains (Char.ofNat 0) then .error .nulByte
  else if p.text == "" then .error .notFound
  else if pathLimit ≤ p.text.utf8ByteSize then .error .nameTooLong
  else
    let parts := p.pieces.filter (· != "")
    disk.follow (p.text.toList.getLast? == some '/') (if p.isAbsolute then [] else disk.cwd) parts

/-- The location that a spot names, which may hold nothing. -/
def Spot.location (spot : Spot) : Location :=
  match spot.last with
  | .name s => spot.directory ++ [s]
  | .dot => spot.directory
  | .dots => spot.directory.dropLast
  | .root => spot.directory

/-- The location and the node that a path leads to. -/
def find (disk : Disk) (p : Path) : Except Refusal (Location × Node) := do
  let spot ← disk.walk p
  match spot.last with
  | .name s => if nameLimit < s.utf8ByteSize then .error .nameTooLong
  | _ => pure ()
  match disk.root.at? spot.location with
  | none => .error .notFound
  | some (.file bytes) =>
    if spot.slash then .error .notDirectory else .ok (spot.location, .file bytes)
  | some node => .ok (spot.location, node)

/-- The node that a path leads to. -/
def stat (disk : Disk) (p : Path) : Except Refusal Node :=
  (disk.find p).map (·.2)

end Disk

end DeferredBinding
