import DeferredBinding.Diagnostic.Code
import DeferredBinding.Disk.Refusal
import DeferredBinding.Text.Basic

/-!
What can go wrong between a record and the deployed files, with its wording and its diagnostic.
-/
namespace DeferredBinding

/-- What is wrong with the contents of a record. -/
inductive RecordFault where
  | malformed
  | version (found : Nat)
  | noPermutations
  | wrongId (index id : Nat)
  | noOracles (id : Nat)
  | oracleShape (id props values : Nat)
  deriving DecidableEq, Repr

/-- The version of the record format. -/
def formatVersion : Nat := 1

open Text (decimal)

/-- The wording of a fault. A file that is not a record is reported by a mark and not in words. -/
def RecordFault.message : RecordFault → String
  | .malformed => "<json>"
  | .version found =>
    "unsupported format version " ++ decimal found ++ " (expected " ++ decimal formatVersion ++ ")"
  | .noPermutations => "record has no permutations"
  | .wrongId index id => "permutation at index " ++ decimal index ++ " has id " ++ decimal id
  | .noOracles id => "permutation " ++ decimal id ++ " answers for no property combination"
  | .oracleShape id props values =>
    "permutation " ++ decimal id ++ " has an oracle with " ++ decimal props ++ " properties but " ++
      decimal values ++ " values"

/-- Why a link or the writing of its output fails. -/
inductive LinkError where
  | countMismatch (permutations results : Nat)
  | moduleMismatch (expected found : String)
  | severalPrimaries (first second : String)
  | unknownLinker (name : String)
  | unknownProperty (name : String)
  | illegalValue (property value : String)
  | recordMissing (path : Path)
  | resultMissing (permutation : Nat) (path : Path)
  | recordUnreadable (path : Path) (fault : RecordFault)
  | resultUnreadable (permutation : Nat) (path : Path) (refusal : Refusal)
  | stageFailed (linker : String) (cause : String)
  | invalidArtifactPath (path : String)
  | invalidDeployPath (deployTo : String)
  | nestedOutputs (publicDir privateDir : Path)
  | diskFailed (path : Path) (refusal : Refusal)
  deriving DecidableEq, Repr

namespace LinkError

/-- The wording of an error. -/
def message : LinkError → String
  | .countMismatch permutations results =>
    "mismatched result file count: " ++ decimal results ++ " result file(s) for " ++ decimal permutations ++
      " permutation(s)"
  | .moduleMismatch expected found =>
    "precompilation was produced for module '" ++ found ++ "', not '" ++ expected ++ "'"
  | .severalPrimaries first second => "linkers '" ++ first ++ "' and '" ++ second ++ "' are both primary linkers"
  | .unknownLinker name => "no linker named '" ++ name ++ "' is registered"
  | .unknownProperty name => "property '" ++ name ++ "' is not declared by the module"
  | .illegalValue property value => "'" ++ value ++ "' is not a legal value of property '" ++ property ++ "'"
  | .recordMissing path => "file not found '" ++ path.text ++ "'; please run precompile first"
  | .resultMissing _ path => "file not found '" ++ path.text ++ "'; please compile all permutations"
  | .recordUnreadable path _ => "unable to deserialize '" ++ path.text ++ "'"
  | .resultUnreadable _ path _ => "unable to read compiled result '" ++ path.text ++ "'"
  | .stageFailed linker _ => "linker '" ++ linker ++ "' failed"
  | .invalidArtifactPath path =>
    "artifact path '" ++ path ++ "' must be relative and stay inside its output directory"
  | .invalidDeployPath d => "deploy path '" ++ d ++ "' must be a non-empty relative path without '..'"
  | .nestedOutputs publicDir privateDir =>
    "public directory '" ++ publicDir.text ++ "' and private directory '" ++ privateDir.text ++
      "' must not contain one another"
  | .diskFailed path _ => "I/O error on '" ++ path.text ++ "'"

/-- The code of an error. -/
def code : LinkError → Diagnostic.Code
  | .countMismatch .. => .countMismatch
  | .moduleMismatch .. => .moduleMismatch
  | .severalPrimaries .. => .severalPrimaries
  | .unknownLinker .. => .unknownLinker
  | .unknownProperty .. => .unknownProperty
  | .illegalValue .. => .illegalValue
  | .recordMissing .. => .recordMissing
  | .resultMissing .. => .resultMissing
  | .recordUnreadable .. => .recordUnreadable
  | .resultUnreadable .. => .resultUnreadable
  | .stageFailed .. => .linkerFailed
  | .invalidArtifactPath .. => .invalidArtifactPath
  | .invalidDeployPath .. => .invalidModule
  | .nestedOutputs .. => .nestedOutputs
  | .diskFailed .. => .writeFailed

/-- What to do about an error. -/
def help : LinkError → Option String
  | .countMismatch .. => some "pass exactly one compiled result per permutation, in permutation order"
  | .moduleMismatch .. => some "re-run precompile for this module"
  | .recordMissing .. => some "run precompile first"
  | .resultMissing .. => some "compile all permutations before linking"
  | .recordUnreadable .. => some "the record is corrupt or from another weft version; re-run precompile"
  | .resultUnreadable .. => some "result files must be UTF-8 JavaScript; recompile the permutation"
  | .unknownLinker .. => some "check the `linkers` list of the module"
  | .nestedOutputs .. => some "pass an --extra directory outside the public output, or omit it"
  | _ => none

/-- The file that an error is about. -/
def path? : LinkError → Option Path
  | .recordMissing path => some path
  | .resultMissing _ path => some path
  | .recordUnreadable path _ => some path
  | .resultUnreadable _ path _ => some path
  | .diskFailed path _ => some path
  | _ => none

/-- What lies behind an error, in words. -/
def causes : LinkError → List String
  | .recordUnreadable _ fault => [fault.message]
  | .resultUnreadable _ _ refusal => [refusal.message]
  | .stageFailed _ cause => [cause]
  | .diskFailed _ refusal => [refusal.message]
  | _ => []

/-- The permutation whose result an error is about. -/
def permutation? : LinkError → Option Nat
  | .resultMissing id _ => some id
  | .resultUnreadable id _ _ => some id
  | _ => none

/-- The diagnostic for an error. -/
def diagnostic (e : LinkError) : Diagnostic where
  code := e.code
  severity := e.code.severity
  message := e.message
  path := e.path?
  causes := e.causes
  help := e.help

end LinkError

end DeferredBinding
