import DeferredBinding.Module.Definition
import DeferredBinding.Record.Basic

/-!
What a link knows of the module: the legal values of its properties, and which properties are already decided. A
combination is reachable when it agrees with what is decided; its open part is the rest of it.
-/
namespace DeferredBinding

/-- A property as the link sees it. -/
structure SelectionProperty where
  name : String
  values : List String
  staticValue : Option String
  provider : Option String
  deriving DecidableEq, Repr

/-- The module and the chain of linkers that a link is about. -/
structure LinkContext where
  moduleName : String
  style : OutputStyle
  chain : List String
  properties : Dict SelectionProperty

namespace SelectionProperty

/-- A binding property is decided when it has one value. -/
def ofBinding (b : Binding) : SelectionProperty :=
  ⟨b.name, b.values, b.staticValue?, b.provider⟩

/-- A configuration property is decided. -/
def ofConfiguration (c : Configuration) : SelectionProperty :=
  ⟨c.name, [c.value], some c.value, none⟩

/-- Whether a value is legal. -/
def allows (p : SelectionProperty) (value : String) : Bool :=
  p.values.contains value

end SelectionProperty

/-- The properties of a model as the link sees them. -/
def Model.selectionProperties (m : Model) : Dict SelectionProperty :=
  let bound := m.bindings.foldl (fun d b => d.insert b.name (.ofBinding b)) Dict.empty
  m.configurations.foldl (fun d c => d.insert c.name (.ofConfiguration c)) bound

namespace LinkContext

/-- The context for a module, a style and a chain of linkers. -/
def start (m : Module) (style : OutputStyle) (chain : List String) : LinkContext :=
  ⟨m.name, style, chain, m.properties.selectionProperties⟩

/-- The property with a name. -/
def property? (c : LinkContext) (name : String) : Option SelectionProperty :=
  c.properties.get? name

/-- The value that a property is decided to have. -/
def static? (c : LinkContext) (name : String) : Option String :=
  (c.property? name).bind (·.staticValue)

/-- The context with a property decided; its value has to be legal. -/
def pin (c : LinkContext) (name value : String) : Except LinkError LinkContext :=
  match c.property? name with
  | none => .error (.unknownProperty name)
  | some p =>
    if p.allows value then
      .ok { c with properties := c.properties.insert name { p with staticValue := some value } }
    else .error (.illegalValue name value)

/-- The context with a list of pins applied in order. -/
def pinAll (c : LinkContext) (pins : List (String × String)) : Except LinkError LinkContext :=
  pins.foldlM (fun c p => c.pin p.1 p.2) c

/-- Whether a combination agrees with what is decided. -/
def reaches (c : LinkContext) (o : Oracle) : Bool :=
  o.pairs.all fun p =>
    match c.static? p.1 with
    | some fixed => fixed == p.2
    | none => true

/-- The open part of a list of answers, added to a selection. -/
def openFrom (c : LinkContext) (s : Selection) : List (String × String) → Except LinkError Selection
  | [] => .ok s
  | (name, value) :: rest =>
    match c.property? name with
    | none => .error (.unknownProperty name)
    | some p =>
      if p.staticValue.isSome then c.openFrom s rest
      else if p.allows value then c.openFrom (s.insert name value) rest
      else .error (.illegalValue name value)

/-- The open part of a combination, which names only declared properties and legal values. -/
def openPart (c : LinkContext) (o : Oracle) : Except LinkError Selection :=
  c.openFrom .empty o.pairs

end LinkContext

end DeferredBinding
