import DeferredBinding.Artifact.Set
import DeferredBinding.Json.Printer
import DeferredBinding.Json.Shape

/-!
Artifacts as JSON. A set is written as the list of its artifacts, each with its kind; the bytes of a file are written in
base64.
-/
namespace DeferredBinding

/-- Ids are 64-bit words. -/
def idBound : Nat := Nat.pow 2 64

/-- Arrays and objects that are kept may nest at most this deep. -/
def nestingBound : Nat := 127

/-- The name of a visibility. -/
def Visibility.label : Visibility → String
  | .publicly => "public"
  | .privately => "private"

/-- The visibility with a name. -/
def Visibility.ofLabel? (s : String) : Option Visibility :=
  if s == "public" then some .publicly
  else if s == "private" then some .privately
  else none

/-- A map of texts as a value. -/
def Dict.toJson (d : Dict String) : Json :=
  .record (d.entries.map fun e => (e.1, .text e.2))

/-- The map that an object of texts gives, a later field winning over an earlier one. -/
def Dict.ofJson? (v : Json) : Option (Dict String) :=
  v.textFields?.map Dict.ofList

namespace Artifact

/-- An artifact as a value, its kind first. -/
def toJson : Artifact → Json
  | .emitted e => .record [
      ("kind", .text "emitted"),
      ("partial_path", .text e.path),
      ("contents", .text (Base64.ofBytes e.contents)),
      ("visibility", .text e.visibility.label),
      ("producer", .text e.producer)]
  | .compilation r => .record [
      ("kind", .text "compilation"),
      ("strong_name", .text r.strongName),
      ("code", .text r.code),
      ("permutation_ids", .array (r.ids.map .nat)),
      ("selection_permutations", .array (r.selections.map Dict.toJson))]

/-- The file with the fields of a value. -/
def readEmitted? (v : Json) : Option Emitted := do
  match ← v.fieldsOf? ["partial_path", "contents", "visibility", "producer"] with
  | [some path, some contents, some visibility, some producer] =>
    some {
      path := ← path.text?
      contents := ← contents.bytes?
      visibility := ← visibility.choice? Json.isBlank Visibility.ofLabel?
      producer := ← producer.text? }
  | _ => none

/-- The result with the fields of a value. -/
def readCompilation? (v : Json) : Option CompiledResult := do
  match ← v.fieldsOf? ["strong_name", "code", "permutation_ids", "selection_permutations"] with
  | [some name, some code, some ids, some selections] =>
    some {
      strongName := ← name.text?
      code := ← code.text?
      ids := ← ids.list? (Json.natBelow? idBound)
      selections := ← selections.list? Dict.ofJson? }
  | _ => none

/-- The kind that a value gives, as a field or as the first item, and the value without it. -/
def splitKind? : Json → Option (String × Json)
  | .object fields =>
    match fields.filter fun f => f.1 == some "kind" with
    | [(_, kind)] => kind.text?.map fun k => (k, .object (fields.filter fun f => f.1 != some "kind"))
    | _ => none
  | .array (kind :: items) => kind.text?.map fun k => (k, .array items)
  | _ => none

/-- The artifact that a value gives. As its kind may be anywhere in it, all of it has to be legible and not nested too
deep, `level` being the number of arrays and objects around it. -/
def ofJson? (level : Nat) (v : Json) : Option Artifact := do
  if !v.isLegible || nestingBound < level + v.depth then none
  let (kind, rest) ← splitKind? v
  if kind == "emitted" then (readEmitted? rest).map .emitted
  else if kind == "compilation" then (readCompilation? rest).map .compilation
  else none

end Artifact

namespace ArtifactSet

/-- A set as a value. -/
def toJson (s : ArtifactSet) : Json :=
  .array (s.entries.map Artifact.toJson)

/-- The set that a value gives, `level` being the number of arrays and objects around it. -/
def ofJson? (level : Nat) (v : Json) : Option ArtifactSet :=
  (v.list? (Artifact.ofJson? (level + 1))).map ofList

end ArtifactSet

end DeferredBinding
