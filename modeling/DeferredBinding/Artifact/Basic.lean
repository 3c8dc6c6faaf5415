import DeferredBinding.Dict
import DeferredBinding.Text.Sha256

/-!
Artifacts, the things that are carried through a link: files to be written, and compiled results. A result is named by
the hash of its code, so permutations that compile to the same code share one.
-/
namespace DeferredBinding

/-- Whether a file is for the public directory or for the private one. -/
inductive Visibility where
  | publicly
  | privately
  deriving DecidableEq, Repr

/-- A file to be written. -/
@[ext]
structure Emitted where
  path : String
  contents : ByteArray
  visibility : Visibility
  producer : String

/-- Equality of files is decided field by field. -/
instance : DecidableEq Emitted := fun a b =>
  haveI := ByteArray.instDecidableEq a.contents b.contents
  decidable_of_decidable_of_iff Emitted.ext_iff.symm

/-- Values of the open properties that lead to a result. -/
abbrev Selection := Dict String

/-- The code of one or more permutations, with the selections that lead to it. -/
structure CompiledResult where
  strongName : String
  code : String
  ids : List Nat
  selections : List Selection
  deriving DecidableEq

/-- A file or a compiled result. -/
inductive Artifact where
  | emitted (file : Emitted)
  | compilation (result : CompiledResult)
  deriving DecidableEq

/-- The two kinds of artifact. -/
inductive ArtifactKind where
  | emitted
  | compilation
  deriving DecidableEq, Repr

/-- What makes an artifact itself: its kind, and its path or strong name. -/
structure ArtifactId where
  kind : ArtifactKind
  key : String
  deriving DecidableEq, Repr

/-- The name of a kind. -/
def ArtifactKind.label : ArtifactKind → String
  | .emitted => "emitted"
  | .compilation => "compilation"

/-- The order of identities: files come before results, and keys are in order. -/
def ArtifactId.before (a b : ArtifactId) : Bool :=
  match a.kind, b.kind with
  | .emitted, .compilation => true
  | .compilation, .emitted => false
  | _, _ => a.key < b.key

/-- The strong name of a byte sequence: its hash in hexadecimal. -/
def strongName (bytes : ByteArray) : String :=
  Sha256.hex bytes

/-- The name of the file that a result is deployed as. -/
def cacheFile (strongName : String) : String :=
  strongName ++ ".cache.js"

namespace Emitted

/-- A public file. -/
def ofText (producer path text : String) : Emitted :=
  ⟨path, text.toUTF8, .publicly, producer⟩

/-- A private file. -/
def privateText (producer path text : String) : Emitted :=
  ⟨path, text.toUTF8, .privately, producer⟩

/-- Whether a file is public. -/
def isPublic (e : Emitted) : Bool :=
  e.visibility == .publicly

end Emitted

namespace CompiledResult

/-- The result with a code, which no permutation has led to yet. -/
def ofCode (code : String) : CompiledResult :=
  ⟨DeferredBinding.strongName code.toUTF8, code, [], []⟩

/-- The result with the id of a permutation recorded once. -/
def addId (r : CompiledResult) (id : Nat) : CompiledResult :=
  if r.ids.contains id then r else { r with ids := r.ids ++ [id] }

/-- The result with a selection recorded once. -/
def addSelection (r : CompiledResult) (s : Selection) : CompiledResult :=
  if r.selections.contains s then r else { r with selections := r.selections ++ [s] }

/-- The result with a list of selections recorded in order. -/
def addSelections (r : CompiledResult) (l : List Selection) : CompiledResult :=
  l.foldl addSelection r

end CompiledResult

namespace Artifact

/-- The kind of an artifact. -/
def kind : Artifact → ArtifactKind
  | .emitted _ => .emitted
  | .compilation _ => .compilation

/-- The path of a file, or the strong name of a result. -/
def key : Artifact → String
  | .emitted e => e.path
  | .compilation r => r.strongName

/-- What makes an artifact itself. -/
def identity (a : Artifact) : ArtifactId :=
  ⟨a.kind, a.key⟩

/-- The file that an artifact is. -/
def emitted? : Artifact → Option Emitted
  | .emitted e => some e
  | .compilation _ => none

/-- The result that an artifact is. -/
def compilation? : Artifact → Option CompiledResult
  | .compilation r => some r
  | .emitted _ => none

end Artifact

end DeferredBinding
