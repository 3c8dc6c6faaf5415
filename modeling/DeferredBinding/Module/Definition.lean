import DeferredBinding.Host
import DeferredBinding.Property.Model
import DeferredBinding.Toml.Reader

/-!
Modules: a name, the place below the output directory that the module is deployed to, the linkers it is linked by, a
directory of public resources, and its properties. A module is defined by a TOML file.
-/
namespace DeferredBinding

/-- A module. The deploy path ends in a slash. -/
structure Module where
  name : String
  deployTo : String
  linkers : List String
  publicDir : Option Path
  properties : Model
  deriving DecidableEq, Repr

/-- A text without its trailing slashes. -/
def dropSlashes (s : String) : String :=
  String.ofList (s.toList.reverse.dropWhile (· == '/')).reverse

/-- Whether a deploy path names a place strictly below the output directory. -/
def isDeployPath (deployTo : String) : Bool :=
  (⟨dropSlashes deployTo⟩ : Path).isPlain

/-- A deploy path with a slash at its end. -/
def withSlash (deployTo : String) : String :=
  if deployTo.toList.getLast? == some '/' then deployTo else deployTo ++ "/"

namespace Module

/-- The module with a name and properties, deployed under its name and linked by the standard linker. -/
def plain (name : String) (properties : Model) : Module :=
  ⟨name, name ++ "/", ["std"], none, properties⟩

/-- The module deployed to another place. -/
def deployedTo (m : Module) (deployTo : String) : Module :=
  { m with deployTo := withSlash deployTo }

end Module

/-- What a module file says. -/
structure ModuleFile where
  name : String
  deployTo : Option String
  linkers : List String
  publicDir : Option String
  bindings : List Binding
  configurations : List Configuration

namespace ModuleFile

open Toml (Value)

/-- The text of a string. -/
def string? : Value → Option String
  | .string s => some s
  | _ => none

/-- The truth value of a boolean. -/
def boolean? : Value → Option Bool
  | .boolean b => some b
  | _ => none

/-- The items of an array, each read by `read`. -/
def array? {α : Type} (read : Value → Option α) : Value → Option (List α)
  | .array items => items.mapM read
  | _ => none

/-- The fields of a record in the order of their names, each present or absent. A record is a table, or an array of its
fields in their order. -/
def fieldsOf? (names : List String) : Value → Option (List (Option Value))
  | .table entries => some (names.map fun name => List.lookup name entries)
  | .array items => some ((items.map some ++ List.replicate names.length none).take names.length)
  | _ => none

/-- Whether a table has only known entries. -/
def hasOnly (names : List String) : Value → Bool
  | .table entries => entries.all fun e => names.contains e.1
  | _ => true

/-- An absent field has no reading by `read`, which is not an error. -/
def optional {α : Type} (read : Value → Option α) : Option Value → Option (Option α)
  | none => some none
  | some v => (read v).map some

/-- A binding property. -/
def binding? (v : Value) : Option Binding := do
  match ← fieldsOf? ["name", "values", "collapse", "collapse_all", "provider"] v with
  | [some name, some values, collapse, collapseAll, provider] =>
    some {
      name := ← string? name
      values := ← array? string? values
      collapse := (← optional (array? (array? string?)) collapse).getD []
      collapseAll := (← optional boolean? collapseAll).getD false
      provider := ← optional string? provider }
  | _ => none

/-- A configuration property. -/
def configuration? (v : Value) : Option Configuration := do
  match ← fieldsOf? ["name", "value"] v with
  | [some name, some value] => some ⟨← string? name, ← string? value⟩
  | _ => none

/-- The names of the entries of the module section. -/
def sectionNames : List String :=
  ["name", "deploy_to", "linkers", "public_dir"]

/-- Whether a module section written as an array gives every field; one written as a table need not. -/
def isComplete : Value → Bool
  | .array items => sectionNames.length ≤ items.length
  | _ => true

/-- What a document says, if it has the shape of a module file. -/
def ofDocument? (document : List (String × Value)) : Option ModuleFile := do
  if !hasOnly ["module", "binding_property", "configuration_property"] (.table document) then none
  let section? ← List.lookup "module" document
  if !hasOnly sectionNames section? || !isComplete section? then none
  match ← fieldsOf? sectionNames section? with
  | [some name, deployTo, linkers, publicDir] =>
    some {
      name := ← string? name
      deployTo := ← optional string? deployTo
      linkers := (← optional (array? string?) linkers).getD []
      publicDir := ← optional string? publicDir
      bindings := (← optional (array? binding?) (List.lookup "binding_property" document)).getD []
      configurations := (← optional (array? configuration?) (List.lookup "configuration_property" document)).getD [] }
  | _ => none

/-- The module that a file defines: its name is not blank, its properties make a model, and its deploy path is one. -/
def toModule (f : ModuleFile) : Except DefinitionError Module := do
  if (Text.trimBlanks f.name.toList).isEmpty then throw .emptyName
  let properties ← Model.empty.declare f.bindings f.configurations
  let named := Module.plain f.name properties
  let placed := match f.deployTo with
    | some d => named.deployedTo d
    | none => named
  if !isDeployPath placed.deployTo then throw (.invalidDeployPath placed.deployTo)
  return { placed with
    linkers := if f.linkers.isEmpty then placed.linkers else f.linkers
    publicDir := f.publicDir.map Path.mk }

end ModuleFile

namespace Module

/-- The module that a text defines. -/
def ofText (text : String) : Except DefinitionError Module :=
  match (Toml.read? text).bind ModuleFile.ofDocument? with
  | some file => file.toModule
  | none => .error .malformed

/-- The module that a file defines; its public directory is found from the directory of the file. -/
def load {m : Type → Type} [Monad m] [Host m] (path : Path) : ExceptT DefinitionError m Module := do
  match ← (Host.readText path : m (Except Refusal String)) with
  | .error e => throw (.unreadable path e)
  | .ok text =>
    let defined ← ofText text
    let base := path.parent?.getD ⟨"."⟩
    return { defined with publicDir := defined.publicDir.map fun d => base.join d.text }

end Module

end DeferredBinding
