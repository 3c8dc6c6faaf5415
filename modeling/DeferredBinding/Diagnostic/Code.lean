import DeferredBinding.Path

/-!
Diagnostics: a code from a fixed list, a severity, a message, and what helps to act on it.
-/
namespace DeferredBinding.Diagnostic

/-- How serious a diagnostic is. -/
inductive Severity where
  | note
  | warning
  | error
  deriving DecidableEq, Repr

/-- The name of a severity. -/
def Severity.label : Severity → String
  | .note => "note"
  | .warning => "warning"
  | .error => "error"

/-- What a diagnostic is about. -/
inductive Category where
  | configuration
  | missingArtifact
  | deserialization
  | linkerStage
  | materialization
  | internal
  deriving DecidableEq, Repr

/-- The name of a category. -/
def Category.label : Category → String
  | .configuration => "configuration"
  | .missingArtifact => "missing-artifact"
  | .deserialization => "deserialization"
  | .linkerStage => "linker-stage"
  | .materialization => "materialization"
  | .internal => "internal"

/-- The kinds of diagnostic. -/
inductive Code where
  | countMismatch
  | moduleMismatch
  | severalPrimaries
  | unknownLinker
  | unknownProperty
  | illegalValue
  | invalidModule
  | recordMissing
  | resultMissing
  | recordUnreadable
  | resultUnreadable
  | linkerFailed
  | writeFailed
  | invalidArtifactPath
  | legacyPlacement
  | nestedOutputs
  | internalError
  deriving DecidableEq, Repr

namespace Code

/-- Every code, in the order of the list. -/
def all : List Code :=
  [.countMismatch, .moduleMismatch, .severalPrimaries, .unknownLinker, .unknownProperty, .illegalValue, .invalidModule,
   .recordMissing, .resultMissing, .recordUnreadable, .resultUnreadable, .linkerFailed, .writeFailed,
   .invalidArtifactPath, .legacyPlacement, .nestedOutputs, .internalError]

/-- The text of a code: a letter and three digits. -/
def label : Code → String
  | .countMismatch => "L001"
  | .moduleMismatch => "L002"
  | .severalPrimaries => "L003"
  | .unknownLinker => "L004"
  | .unknownProperty => "L005"
  | .illegalValue => "L006"
  | .invalidModule => "L007"
  | .recordMissing => "M001"
  | .resultMissing => "M002"
  | .recordUnreadable => "D001"
  | .resultUnreadable => "D002"
  | .linkerFailed => "S001"
  | .writeFailed => "O001"
  | .invalidArtifactPath => "O002"
  | .legacyPlacement => "O003"
  | .nestedOutputs => "O004"
  | .internalError => "I001"

/-- What a code is about. -/
def category : Code → Category
  | .countMismatch | .moduleMismatch | .severalPrimaries | .unknownLinker | .unknownProperty | .illegalValue
  | .invalidModule => .configuration
  | .recordMissing | .resultMissing => .missingArtifact
  | .recordUnreadable | .resultUnreadable => .deserialization
  | .linkerFailed => .linkerStage
  | .writeFailed | .invalidArtifactPath | .legacyPlacement | .nestedOutputs => .materialization
  | .internalError => .internal

/-- The severity of a code where none is given: only the placement of private files beside the public ones is a
warning. -/
def severity : Code → Severity
  | .legacyPlacement => .warning
  | _ => .error

/-- The code with a text, upper and lower case letters being alike. -/
def parse? (text : String) : Option Code :=
  all.find? fun c => c.label.toList == text.toList.map Char.toUpper

end Code

end Diagnostic

/-- A report on one problem. -/
structure Diagnostic where
  code : Diagnostic.Code
  severity : Diagnostic.Severity
  message : String
  path : Option Path
  causes : List String
  help : Option String

namespace Diagnostic

/-- Whether a diagnostic is an error. -/
def isError (d : Diagnostic) : Bool :=
  d.severity == .error

/-- Whether a diagnostic is a warning. -/
def isWarning (d : Diagnostic) : Bool :=
  d.severity == .warning

/-- The number of errors in a list of diagnostics. -/
def errorCount (l : List Diagnostic) : Nat :=
  (l.filter isError).length

/-- The number of warnings in a list of diagnostics. -/
def warningCount (l : List Diagnostic) : Nat :=
  (l.filter isWarning).length

end DeferredBinding.Diagnostic
