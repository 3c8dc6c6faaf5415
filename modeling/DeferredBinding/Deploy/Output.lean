import DeferredBinding.Artifact.Set
import DeferredBinding.Deploy.Layout

/-!
Writing the files of a set of artifacts. Each directory is first filled in a staging directory next to it; only when
all files are written does the staging directory take the place of the old one. A stage that is not used in the end is
removed.
-/
namespace DeferredBinding

/-- What was written where. -/
structure OutputReport where
  layout : Layout
  publicFiles : Nat
  privateFiles : Nat
  advisories : List String
  deriving DecidableEq, Repr

namespace Output

/-- Where notes on the output come from. -/
def origin : String := "weft_link::output"

/-- Accepts files whose paths stay inside the directory they are written to. -/
def checkPaths : List Emitted → Except LinkError Unit
  | [] => .ok ()
  | e :: rest => if (⟨e.path⟩ : Path).isPlain then checkPaths rest else .error (.invalidArtifactPath e.path)

/-- The staging directory of a directory. -/
def stagingDir (target : Path) : Path :=
  (target.parent?.getD ⟨"."⟩).join ("." ++ target.fileName?.getD "" ++ ".staging")

variable {m : Type → Type} [Monad m] [Host m]

/-- The result of an operation on the disk, a refusal being reported with the path it concerns. -/
def onDisk (path : Path) (operation : m (Except Refusal Unit)) : ExceptT LinkError m Unit := do
  match ← (operation : m (Except Refusal Unit)) with
  | .ok _ => pure ()
  | .error e => throw (.diskFailed path e)

/-- Makes an empty staging directory. -/
def openStage (stage : Path) : ExceptT LinkError m Unit := do
  onDisk stage (Host.clear stage)
  onDisk stage (Host.makeDirectories stage)

/-- Writes a file into a staging directory. -/
def stageFile (stage : Path) (e : Emitted) : ExceptT LinkError m Unit := do
  let path := stage.join e.path
  match path.parent? with
  | some parent => onDisk parent (Host.makeDirectories parent)
  | none => pure ()
  onDisk path (Host.write path e.contents)
  (Host.log ⟨.debug, origin, "Staged " ++ e.path ++ " from " ++ e.producer⟩ : m Unit)

/-- Writes files into a staging directory in order. -/
def stageFiles (stage : Path) : List Emitted → ExceptT LinkError m Unit
  | [] => pure ()
  | e :: rest => do
    stageFile stage e
    stageFiles stage rest

/-- Removes a staging directory, whether or not that succeeds. -/
def discard (stage : Path) : ExceptT LinkError m Unit := do
  let _ ← (Host.removeTree stage : m (Except Refusal Unit))

/-- Runs a step; where it fails, a staging directory is removed before the failure is passed on. -/
def discarding {α : Type} (stage : Path) (step : ExceptT LinkError m α) : ExceptT LinkError m α :=
  tryCatch step fun e => do
    discard stage
    throw e

/-- Puts a staging directory in the place of its target. -/
def commit (target : Path) : ExceptT LinkError m Unit :=
  discarding (stagingDir target) do
    onDisk target (Host.clear target)
    onDisk target (Host.rename (stagingDir target) target)

/-- Fills the staging directory of a target. -/
def fill (target : Path) (files : List Emitted) : ExceptT LinkError m Unit := do
  openStage (stagingDir target)
  discarding (stagingDir target) (stageFiles (stagingDir target) files)

/-- Replaces one directory that holds both kinds of file. -/
def replaceShared (target : Path) (publics privates : List Emitted) : ExceptT LinkError m Unit := do
  fill target (publics ++ privates)
  commit target

/-- Replaces the public directory and removes the private one, which would hold nothing. -/
def replacePublic (l : Layout) (publics : List Emitted) : ExceptT LinkError m Unit := do
  fill l.publicDir publics
  commit l.publicDir
  onDisk l.privateDir (Host.clear l.privateDir)

/-- Replaces both directories; both are staged before either is replaced. -/
def replaceBoth (l : Layout) (publics privates : List Emitted) : ExceptT LinkError m Unit := do
  fill l.publicDir publics
  discarding (stagingDir l.publicDir) (fill l.privateDir privates)
  discarding (stagingDir l.privateDir) (commit l.publicDir)
  commit l.privateDir

/-- Replaces the directories of a layout. -/
def replace (l : Layout) (publics privates : List Emitted) : ExceptT LinkError m Unit :=
  if l.shared then replaceShared l.publicDir publics privates
  else if privates.isEmpty then replacePublic l publics
  else replaceBoth l publics privates

/-- The advice for private files that were put next to the public ones. -/
def advice (privateDir : Path) : String :=
  "Non-public artifacts were written to '" ++ privateDir.text ++
    "' inside the output directory; use --extra to put them elsewhere"

/-- The advice on a layout, given once: when the private directory was not there before and is there now. -/
def advise (l : Layout) (before : Bool) : ExceptT LinkError m (List String) := do
  let after ← (Host.pathExists l.privateDir : m Bool)
  if l.beside && !before && after then
    (Host.log ⟨.warn, origin, advice l.privateDir⟩ : m Unit)
    return [advice l.privateDir]
  else return []

/-- Writes the files of a set of artifacts for a module. -/
def produce (s : ArtifactSet) (mod : Module) (out : Path) (extra : Option Path) :
    ExceptT LinkError m OutputReport := do
  let l ← Layout.resolve mod out extra
  let before ← (Host.pathExists l.privateDir : m Bool)
  checkPaths s.emitted
  let publics := s.emitted.filter (·.isPublic)
  let privates := s.emitted.filter fun e => !e.isPublic
  replace l publics privates
  let advisories ← advise l before
  (Host.log ⟨.info, origin,
    "Wrote " ++ Text.decimal publics.length ++ " public and " ++ Text.decimal privates.length ++
      " private file(s) for module " ++ mod.name⟩ : m Unit)
  return ⟨l, publics.length, privates.length, advisories⟩

end Output

end DeferredBinding
