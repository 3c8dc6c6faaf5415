import DeferredBinding.Link.Chain

/-!
The manifest linker. It emits two private files on the compiled results: a plain list of the selections that lead to
each, and the same as JSON with the ids of the permutations.
-/
namespace DeferredBinding.Manifest

open Text (concat)

/-- The name of the linker. -/
def linkerName : String := "manifest"

/-- The name of the plain list. -/
def mappingsFile : String := "compilation-mappings.txt"

/-- The name of the JSON file. -/
def permutationsFile : String := "permutations.json"

/-- A block of the plain list: the file of a result, the values that lead to it, and an empty line. -/
def block (strongName : String) (entries : List (String × String)) : String :=
  cacheFile strongName ++ "\n" ++ concat (entries.map fun e => e.1 ++ " " ++ e.2 ++ "\n") ++ "\n"

/-- The blocks of a result: one for each selection, or an empty one. -/
def blocks (r : CompiledResult) : String :=
  if r.selections.isEmpty then block r.strongName []
  else concat (r.selections.map fun s => block r.strongName s.entries)

/-- The plain list for a list of results. -/
def mappings (results : List CompiledResult) : String :=
  concat (results.map blocks)

/-- A result as a value. -/
def entry (r : CompiledResult) : Json :=
  .record [
    ("strong_name", .text r.strongName),
    ("permutations", .array (r.ids.map .nat)),
    ("selections", .array (r.selections.map Dict.toJson))]

/-- The JSON text for a list of results. -/
def permutations (results : List CompiledResult) : String :=
  (Json.array (results.map entry)).prettyText

/-- Emits the two files. -/
def run (_ : LinkContext) (s : ArtifactSet) : Except LinkError ArtifactSet :=
  let results := s.compilations
  .ok ((s.add (.emitted (.privateText linkerName mappingsFile (mappings results)))).add
    (.emitted (.privateText linkerName permutationsFile (permutations results))))

/-- The manifest linker. -/
def linker : Linker :=
  ⟨linkerName, .post, run⟩

end DeferredBinding.Manifest
