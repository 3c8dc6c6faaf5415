import DeferredBinding.Disk.Walk

/-!
The operations of the system on a file tree. Each gives its result, or the reason it was refused, with the tree after
it; an operation may be refused after a part of its work is done.
-/
namespace DeferredBinding.Disk

/-- The disk with the node at a location replaced or removed. -/
def update (disk : Disk) (location : Location) (new : Option Node) : Disk :=
  { disk with root := disk.root.set new location }

/-- Whether a path leads to anything. -/
def exists? (disk : Disk) (p : Path) : Bool :=
  match disk.stat p with
  | .ok _ => true
  | .error _ => false

/-- Whether a path leads to a file. -/
def isFile (disk : Disk) (p : Path) : Bool :=
  match disk.stat p with
  | .ok (.file _) => true
  | _ => false

/-- Whether a path leads to a directory. -/
def isDirectory (disk : Disk) (p : Path) : Bool :=
  match disk.stat p with
  | .ok (.directory _) => true
  | _ => false

/-- The bytes of a file. -/
def read (disk : Disk) (p : Path) : Except Refusal ByteArray := do
  match ← disk.stat p with
  | .file bytes => .ok bytes
  | .directory _ => .error .isDirectory

/-- Writes a file, in the place of one that is there. A file is never written by a path that ends in a slash. -/
def write (disk : Disk) (p : Path) (bytes : ByteArray) : Except Refusal Disk := do
  let spot ← disk.walk p
  match spot.last with
  | .name s =>
    if spot.slash then .error .isDirectory
    else if nameLimit < s.utf8ByteSize then .error .nameTooLong
    else match disk.root.at? spot.location with
      | some (.directory _) => .error .isDirectory
      | _ => .ok (disk.update spot.location (some (.file bytes)))
  | _ => .error .isDirectory

/-- Makes a directory where nothing is. -/
def makeDirectory (disk : Disk) (p : Path) : Except Refusal Disk := do
  let spot ← disk.walk p
  match spot.last with
  | .name s =>
    if nameLimit < s.utf8ByteSize then .error .nameTooLong
    else match disk.root.at? spot.location with
      | some _ => .error .exists
      | none => .ok (disk.update spot.location (some .empty))
  | _ => .error .exists

/-- Removes a directory with everything below it. A directory that is named by dots is emptied, and then refused. -/
def removeTree (disk : Disk) (p : Path) : Except Refusal Unit × Disk :=
  match disk.walk p, disk.find p with
  | .ok spot, .ok (location, .directory _) =>
    match spot.last with
    | .name _ => (.ok (), disk.update location none)
    | .dot => (.error .invalid, disk.update location (some .empty))
    | .dots => (.error .notEmpty, disk.update location (some .empty))
    | .root => (.error .busy, disk.update location (some .empty))
  | .ok _, .ok (_, .file _) => (.error .notDirectory, disk)
  | .ok _, .error e => (.error e, disk)
  | .error e, _ => (.error e, disk)

/-- Moves a directory to a place where nothing is, or an empty directory. -/
def rename (disk : Disk) (source target : Path) : Except Refusal Disk := do
  let source ← disk.walk source
  let target ← disk.walk target
  match source.last, target.last with
  | .name s, .name t =>
    if nameLimit < s.utf8ByteSize ∨ nameLimit < t.utf8ByteSize then .error .nameTooLong
    else match disk.root.at? source.location with
      | none => .error .notFound
      | some (.file bytes) =>
        if source.slash ∨ target.slash then .error .notDirectory
        else match disk.root.at? target.location with
          | some (.directory _) => .error .isDirectory
          | _ =>
            if source.location = target.location then .ok disk
            else .ok ((disk.update source.location none).update target.location (some (.file bytes)))
      | some node =>
        if source.location = target.location then .ok disk
        else if source.location.isPrefixOf target.location then .error .invalid
        else match disk.root.at? target.location with
          | some (.file _) => .error .notDirectory
          | some (.directory (_ :: _)) => .error .notEmpty
          | _ => .ok ((disk.update source.location none).update target.location (some node))
  | _, _ => .error .busy

/-- The files below a directory with their names from it, depth first in the order of their names. -/
def filesBelow (disk : Disk) (p : Path) : Except Refusal (List (Location × ByteArray)) := do
  match ← disk.stat p with
  | .file _ => .error .notDirectory
  | node => .ok node.files

end DeferredBinding.Disk
