import DeferredBinding.Disk.Refusal
import DeferredBinding.Path

/-!
What can be wrong with the definition of a module: its file, its name, its deploy path, its properties and the pins
that narrow them.
-/
namespace DeferredBinding

/-- Why a definition or a pin is refused. -/
inductive DefinitionError where
  | malformed
  | unreadable (path : Path) (refusal : Refusal)
  | emptyName
  | invalidDeployPath (deployTo : String)
  | duplicateProperty (name : String)
  | noValues (property : String)
  | duplicateValue (property value : String)
  | unknownGroupValue (property value : String)
  | overlappingGroups (property value : String)
  | unknownProperty (name : String)
  | illegalPin (property value : String)
  | malformedPin (text : String)
  deriving DecidableEq, Repr

namespace DefinitionError

/-- The wording of an error. A file that is not a module definition is reported by a mark and not in words. -/
def message : DefinitionError → String
  | .malformed => "<toml>"
  | .unreadable path refusal => "I/O error reading " ++ path.text ++ ": " ++ refusal.message
  | .emptyName => "module name must not be empty"
  | .invalidDeployPath d => "deploy path '" ++ d ++ "' must be a non-empty relative path without '..'"
  | .duplicateProperty name => "property '" ++ name ++ "' is declared more than once"
  | .noValues p => "binding property '" ++ p ++ "' has no legal values"
  | .duplicateValue p v => "binding property '" ++ p ++ "' lists value '" ++ v ++ "' more than once"
  | .unknownGroupValue p v => "collapse group of '" ++ p ++ "' names unknown value '" ++ v ++ "'"
  | .overlappingGroups p v => "value '" ++ v ++ "' of '" ++ p ++ "' appears in more than one collapse group"
  | .unknownProperty name => "cannot pin undeclared property '" ++ name ++ "'"
  | .illegalPin p v => "cannot pin '" ++ p ++ "' to '" ++ v ++ "': not a legal value"
  | .malformedPin text => "malformed property pin '" ++ text ++ "' (expected name=value)"

/-- What lies behind an error, in words: a malformed file has the complaint of its reader behind it. -/
def causes : DefinitionError → List String
  | .malformed => ["<toml>"]
  | _ => []

end DefinitionError

end DeferredBinding
