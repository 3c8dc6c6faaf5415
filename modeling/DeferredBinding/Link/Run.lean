import DeferredBinding.Link.Dispatch
import DeferredBinding.Link.Manifest

/-!
A link: the result of every permutation of a record is read, results with the same code are merged, and the chain of
linkers is run on the results and the generated artifacts.
-/
namespace DeferredBinding

/-- The linkers that every registry starts with. -/
def Registry.builtin : Registry :=
  ((Dict.empty).insert Dispatch.linkerName Dispatch.linker).insert Manifest.linkerName Manifest.linker

/-- What a link is told besides the module and the record. -/
structure LinkOptions where
  pins : List (String × String)
  registry : Registry

/-- A link under way: its context, its chain, and what it has merged so far. -/
structure Linking where
  context : LinkContext
  linkers : List Linker
  results : List CompiledResult
  artifacts : ArtifactSet

/-- The list with the result of a code updated, or added at the end where there is none. -/
def mergeResult (update : CompiledResult → CompiledResult) (fresh : CompiledResult) :
    List CompiledResult → List CompiledResult
  | [] => [update fresh]
  | r :: rest => if r.strongName = fresh.strongName then update r :: rest else r :: mergeResult update fresh rest

namespace Linking

/-- A link before anything is read. -/
def start (m : Module) (style : OutputStyle) (linkers : List Linker) : Linking :=
  ⟨.start m style (linkers.map (·.name)), linkers, [], .empty⟩

/-- The merged result with a strong name. -/
def result? (l : Linking) (name : String) : Option CompiledResult :=
  l.results.find? fun r => r.strongName == name

/-- The link with the code of a permutation merged in, under the selections that lead to it. -/
def merge (l : Linking) (id : Nat) (code : String) (selections : List Selection) : Linking :=
  { l with results := mergeResult (fun r => (r.addId id).addSelections selections) (.ofCode code) l.results }

/-- The link with further artifacts. -/
def addArtifacts (l : Linking) (s : ArtifactSet) : Linking :=
  { l with artifacts := l.artifacts.addAll s.entries }

/-- The artifacts that the chain starts from: the results, then the other artifacts. -/
def initial (l : Linking) : ArtifactSet :=
  (ArtifactSet.ofList (l.results.map .compilation)).addAll l.artifacts.entries

/-- The link after its results and artifacts are handed to the chain. -/
def emptied (l : Linking) : Linking :=
  { l with results := [], artifacts := .empty }

/-- The open parts of the combinations of a permutation that are reachable. -/
def selectionsFor (c : LinkContext) (p : Permutation) : Except LinkError (List Selection) :=
  (p.oracles.filter c.reaches).mapM c.openPart

variable {m : Type → Type} [Monad m] [Host m]

/-- Where notes on merging and running come from. -/
def contextOrigin : String := "weft_link::context"

/-- Where notes on the whole link come from. -/
def linkOrigin : String := "weft_link::link"

/-- The code of a permutation, read from its file. -/
def readCode (path : Path) (id : Nat) : ExceptT LinkError m String := do
  match ← (Host.readText path : m (Except Refusal String)) with
  | .error .notFound => throw (.resultMissing id path)
  | .error e => throw (.resultUnreadable id path e)
  | .ok code => return code

/-- Notes in the log that the code of a permutation was merged. -/
def noteMerged (id : Nat) (code : String) : ExceptT LinkError m Unit :=
  (Host.log ⟨.debug, contextOrigin,
    "Permutation " ++ Text.decimal id ++ " compiled to " ++ strongName code.toUTF8 ++ " (" ++
      Text.decimal code.utf8ByteSize ++ " bytes)"⟩ : m Unit)

/-- Reads the code of a permutation and merges it in, under the selections that lead to it. The merged result is given
with the link. -/
def compile (l : Linking) (path : Path) (id : Nat) (selections : List Selection) :
    ExceptT LinkError m (CompiledResult × Linking) := do
  let code ← readCode path id
  noteMerged id code
  let l := l.merge id code selections
  return ((l.result? (strongName code.toUTF8)).getD (.ofCode code), l)

/-- Merges the result of a permutation of the record. -/
def finish (l : Linking) (p : Permutation) (path : Path) : ExceptT LinkError m Linking := do
  let selections ← selectionsFor l.context p
  let (result, l) ← l.compile path p.id selections
  (Host.log ⟨.debug, linkOrigin,
    "Finished permutation " ++ Text.decimal p.id ++ " with " ++ Text.decimal result.selections.length ++
      " selection(s)"⟩ : m Unit)
  return l

/-- Merges the results of a list of permutations, each with its file. -/
def finishAll (l : Linking) : List (Permutation × Path) → ExceptT LinkError m Linking
  | [] => return l
  | (p, path) :: rest => do
    let l ← l.finish p path
    finishAll l rest

/-- Runs the linkers of a chain in order, with a note on each. -/
def runLinkers (c : LinkContext) : List Linker → ArtifactSet → ExceptT LinkError m ArtifactSet
  | [], s => return s
  | k :: rest, s => do
    (Host.log ⟨.debug, contextOrigin,
      "Invoking linker '" ++ k.name ++ "' (" ++ Text.decimal s.size ++ " artifacts)"⟩ : m Unit)
    let s ← k.run c s
    runLinkers c rest s

/-- Runs the chain of a link. -/
def invoke (l : Linking) : ExceptT LinkError m ArtifactSet :=
  runLinkers l.context l.linkers l.initial

/-- The link of a module and a record before anything is read: its chain is built, and the pins of the record and then
the further pins are applied. -/
def prepare (mod : Module) (record : Record) (options : LinkOptions) : Except LinkError Linking := do
  let linkers ← options.registry.buildChain mod.linkers
  let l := start mod record.style linkers
  let c ← l.context.pinAll record.pins.entries
  let c ← c.pinAll options.pins
  return { l with context := c }

end Linking

variable {m : Type → Type} [Monad m] [Host m]

/-- Links a record of a module with one result file for each of its permutations. -/
def link (mod : Module) (record : Record) (files : List Path) (options : LinkOptions) :
    ExceptT LinkError m ArtifactSet := do
  if record.permutations.length ≠ files.length then
    throw (.countMismatch record.permutations.length files.length)
  if record.moduleName ≠ mod.name then
    throw (.moduleMismatch mod.name record.moduleName)
  let l ← Linking.prepare mod record options
  (Host.log ⟨.info, Linking.linkOrigin, "Linking module " ++ mod.name⟩ : m Unit)
  let l ← l.finishAll (record.permutations.zip files)
  let s ← (l.addArtifacts record.generated).invoke
  (Host.log ⟨.info, Linking.linkOrigin, "Link succeeded"⟩ : m Unit)
  return s

/-- The result files of the permutations from an id on; each has to be there. -/
def locateFrom (workDir : Path) (id : Nat) : Nat → ExceptT LinkError m (List Path)
  | 0 => return []
  | count + 1 => do
    let path := resultFile workDir id
    if ← (Host.isFile path : m Bool) then
      let rest ← locateFrom workDir (id + 1) count
      return path :: rest
    else throw (.resultMissing id path)

/-- The result files of a number of permutations. -/
def locateResults (workDir : Path) (count : Nat) : ExceptT LinkError m (List Path) :=
  locateFrom workDir 0 count

/-- Links the record in a working directory with the results beside it. -/
def linkWorkDir (workDir : Path) (mod : Module) (options : LinkOptions) : ExceptT LinkError m ArtifactSet := do
  let record ← Record.read (workDir.join recordFile)
  let files ← locateResults workDir record.permutations.length
  link mod record files options

end DeferredBinding
