import DeferredBinding.CommandLine.Arguments
import DeferredBinding.CommandLine.Explanation
import DeferredBinding.Deploy.Output
import DeferredBinding.Link.Run

/-!
The commands: precompile a module, link it, list its permutations, explain a code. Each ends in text for the two output
streams and an exit status.
-/
namespace DeferredBinding.CommandLine

open Text (decimal concat)

/-- Why a command fails. -/
inductive Failure where
  | link (e : LinkError)
  | definition (doing : Option String) (e : DefinitionError)
  | other (message : String) (causes : List String)

/-- The diagnostic for a failure. -/
def Failure.diagnostic : Failure → Diagnostic
  | .link e => e.diagnostic
  | .definition none e => ⟨.invalidModule, .error, e.message, none, e.causes, none⟩
  | .definition (some doing) e => ⟨.invalidModule, .error, doing, none, e.message :: e.causes, none⟩
  | .other message causes => ⟨.internalError, .error, message, none, causes, none⟩

/-- What a command prints. -/
structure Printed where
  stdout : String
  stderr : String
  deriving DecidableEq, Repr

/-- The end of a run: a page of help, arguments refused, or an exit status with what was printed and how much of the log
is shown. -/
inductive Outcome where
  | help
  | refused
  | ended (status : Nat) (printed : Printed) (logRank : Nat)

/-- Notes up to this rank are shown: only errors at first, more with every further step of verbosity, and none where the
program is to be quiet. -/
def Settings.logRank (s : Settings) : Nat :=
  if s.quiet then 0
  else match s.verbosity with
    | 0 => Level.error.rank
    | 1 => Level.info.rank
    | 2 => Level.debug.rank
    | _ => Level.trace.rank

/-- A note as a line of the log. -/
def noteLine (n : Note) : String :=
  let label := n.level.label
  "[" ++ label ++ String.ofList (List.replicate (5 - label.length) ' ') ++ " " ++ n.origin ++ "] " ++ n.text ++ "\n"

/-- The log up to a rank, oldest note first. -/
def logText (rank : Nat) (notes : List Note) : String :=
  concat ((notes.filter fun n => n.level.rank ≤ rank).map noteLine)

/-- The name and version of the program, or of one of its commands. -/
def versionLine (command : Option String) : String :=
  (match command with
    | some name => "weft-" ++ name
    | none => "weft") ++ " 0.2.117\n"

variable {m : Type → Type} [Monad m] [Host m]

/-- The module that a file defines. -/
def loadModule (file : Path) : ExceptT Failure m Module :=
  ExceptT.adapt (Failure.definition (some ("failed to load module " ++ file.text))) (Module.load file)

/-- The pins that a list of texts gives. -/
def parsePins (pins : List String) : Except Failure (List (String × String)) :=
  (pins.mapM parsePin).mapError (Failure.definition none)

/-- The properties of a module narrowed by pins. -/
def narrow (mod : Module) (pins : List (String × String)) : Except Failure Model :=
  (mod.properties.pinAll pins).mapError (Failure.definition none)

/-- Where notes on precompiling come from. -/
def precompileOrigin : String := "weft::commands::precompile"

/-- The public files of a directory as artifacts. -/
def resources (files : List (Location × ByteArray)) : ArtifactSet :=
  .ofList (files.map fun f => .emitted ⟨Text.join "/" f.1, f.2, .publicly, "public"⟩)

/-- The artifacts for the public directory of a module, if it has one. -/
def collectResources : Option Path → ExceptT Failure m ArtifactSet
  | none => return .empty
  | some dir => do
    if ← (Host.isDirectory dir : m Bool) then
      match ← (Host.filesBelow dir : m (Except Refusal (List (Location × ByteArray)))) with
      | .ok files => return resources files
      | .error e => throw (.other ("failed to scan " ++ dir.text) [e.message])
    else
      (Host.log ⟨.warn, precompileOrigin,
        "Public directory " ++ dir.text ++ " does not exist; no resources collected"⟩ : m Unit)
      return .empty

/-- The text of a file that is compiled by all permutations, empty where none is given. -/
def readBody : Option Path → ExceptT Failure m String
  | none => return ""
  | some path => do
    match ← (Host.readText path : m (Except Refusal String)) with
    | .ok text => return text
    | .error e => throw (.other ("failed to read IR " ++ path.text) [e.message])

/-- The record for a module, with its properties narrowed by pins. -/
def precompile (file : Path) (ir : Option Path) (style : OutputStyle) (pins : List String) :
    ExceptT Failure m Record := do
  let mod ← loadModule file
  let pins ← parsePins pins
  let model ← narrow mod pins
  let body ← readBody ir
  let generated ← collectResources mod.publicDir
  return ⟨mod.name, style, body, model.permutations, .ofList pins, generated⟩

/-- Runs the precompile command. -/
def runPrecompile (s : Settings) (file workDir : Path) (ir : Option Path) (style : OutputStyle)
    (pins : List String) : ExceptT Failure m Printed := do
  let record ← precompile file ir style pins
  let path := workDir.join recordFile
  ExceptT.adapt Failure.link (record.write path)
  let permutations := record.permutations.length
  let resources := record.generated.size
  match s.format with
  | .json => return ⟨(Json.record [
      ("module", .text record.moduleName),
      ("path", .text path.text),
      ("permutations", .nat permutations),
      ("resources", .nat resources),
      ("success", .bool true)]).compactText ++ "\n", ""⟩
  | .text =>
    if s.quiet then return ⟨"", ""⟩
    else return ⟨"Precompiled " ++ record.moduleName ++ ": " ++ decimal permutations ++ " permutation(s), " ++
      decimal resources ++ " resource(s)\n  Wrote " ++ path.text ++ "\n", ""⟩

/-- The warnings for the advice on an output. -/
def warnings (r : OutputReport) : List Diagnostic :=
  r.advisories.map fun advice => {
    code := .legacyPlacement
    severity := .warning
    message := advice
    path := some r.layout.privateDir
    causes := []
    help := some "pass --extra DIR to keep private files out of the output directory" }

/-- The number of permutations that the results of a set stand for. -/
def linkedPermutations (s : ArtifactSet) : Nat :=
  (s.compilations.flatMap (·.ids)).length

/-- What the link command prints as JSON. -/
def linkJson (mod : Module) (s : ArtifactSet) (r : OutputReport) : Json :=
  .record [
    ("module", .text mod.name),
    ("permutations", .nat (linkedPermutations s)),
    ("private_dir", .text r.layout.privateDir.text),
    ("private_files", .nat r.privateFiles),
    ("public_dir", .text r.layout.publicDir.text),
    ("public_files", .nat r.publicFiles),
    ("results", .texts (s.compilations.map (·.strongName))),
    ("success", .bool true),
    ("warnings", .array ((warnings r).map fun d =>
      .record [("code", .text d.code.label), ("message", .text d.message)]))]

/-- What the link command prints in words. -/
def linkText (mod : Module) (s : ArtifactSet) (r : OutputReport) : String :=
  "Linked " ++ mod.name ++ ": " ++ decimal (linkedPermutations s) ++ " permutation(s) into " ++
    decimal s.compilations.length ++ " result(s)\n  " ++
    decimal r.publicFiles ++ " public file(s) in " ++ r.layout.publicDir.text ++ "\n" ++
    (if r.privateFiles = 0 then ""
    else "  " ++ decimal r.privateFiles ++ " private file(s) in " ++ r.layout.privateDir.text ++ "\n")

/-- Runs the link command. -/
def runLink (s : Settings) (colored : Bool) (file workDir out : Path) (extra : Option Path) (pins : List String) :
    ExceptT Failure m Printed := do
  let mod ← loadModule file
  let pins ← parsePins pins
  let artifacts ← ExceptT.adapt Failure.link (linkWorkDir workDir mod ⟨pins, .builtin⟩)
  let report ← ExceptT.adapt Failure.link (Output.produce artifacts mod out extra)
  match s.format with
  | .json => return ⟨(linkJson mod artifacts report).compactText ++ "\n", ""⟩
  | .text =>
    if s.quiet then return ⟨"", ""⟩
    else return ⟨linkText mod artifacts report, concat ((warnings report).map (Diagnostic.terminal colored))⟩

/-- The lines on a permutation. -/
def permutationText (p : Permutation) : String :=
  "permutation " ++ decimal p.id ++ ":\n" ++
    concat (p.oracles.map fun o => "  " ++ (if o.props.isEmpty then "(no properties)" else o.describe) ++ "\n")

/-- A permutation as a value, each oracle being a map. -/
def permutationJson (p : Permutation) : Json :=
  .record [
    ("id", .nat p.id),
    ("oracles", .array (p.oracles.map fun o => (Dict.ofList o.pairs).toJson))]

/-- Runs the command that lists permutations. -/
def runPerms (s : Settings) (file : Path) (pins : List String) : ExceptT Failure m Printed := do
  let mod ← loadModule file
  let model ← narrow mod (← parsePins pins)
  match s.format with
  | .json => return ⟨(Json.array (model.permutations.map permutationJson)).prettyText ++ "\n", ""⟩
  | .text => return ⟨concat (model.permutations.map permutationText), ""⟩

/-- Runs the command that explains a code. -/
def runExplain (s : Settings) (colored : Bool) (code : String) : Except Failure Printed :=
  match Diagnostic.Code.parse? code with
  | none => .error (.other ("Unknown diagnostic code: " ++ code) [])
  | some c =>
    match s.format with
    | .json => .ok ⟨(Explanation.toJson c).prettyText ++ "\n", ""⟩
    | .text => .ok ⟨Explanation.terminal colored c, ""⟩

/-- Runs a command. -/
def runCommand (s : Settings) (colored : Bool) : Command → ExceptT Failure m Printed
  | .precompile file workDir ir style pins => runPrecompile s file workDir ir style pins
  | .link file workDir out extra pins => runLink s colored file workDir out extra pins
  | .perms file pins => runPerms s file pins
  | .explain code => runExplain s colored code

/-- The report of a failure: in words on the error stream, or as JSON on the output stream. -/
def reportFailure (format : Format) (colored : Bool) (f : Failure) : Printed :=
  match format with
  | .text => ⟨"", f.diagnostic.terminal colored⟩
  | .json => ⟨f.diagnostic.jsonLine, ""⟩

/-- Runs the program on its arguments; `terminal` says whether the error stream is a terminal, which allows colors. -/
def run (terminal : Bool) (arguments : List String) : m Outcome :=
  match parse arguments with
  | .help => return .help
  | .refused => return .refused
  | .version command => return .ended 0 ⟨versionLine command, ""⟩ 0
  | .run s command => do
    let colored := !s.noColor && terminal
    match ← (runCommand s colored command).run with
    | .ok printed => return .ended 0 printed s.logRank
    | .error f => return .ended 1 (reportFailure s.format colored f) s.logRank

end DeferredBinding.CommandLine
