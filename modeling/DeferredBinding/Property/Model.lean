import DeferredBinding.Property.Error
import DeferredBinding.Text.Basic

/-!
The properties that a module is compiled for. A binding property has several legal values, and every permutation of the
module carries one of them; values in one collapse group are known to compile alike. A configuration property has one
value. A model declares every name once, and pins narrow a binding property to one of its values.
-/
namespace DeferredBinding

/-- A property whose value is chosen for each permutation. -/
structure Binding where
  name : String
  values : List String
  collapse : List (List String)
  collapseAll : Bool
  provider : Option String
  deriving DecidableEq, Repr

/-- A property with one value for all permutations. -/
structure Configuration where
  name : String
  value : String
  deriving DecidableEq, Repr

/-- The properties of a module in the order of their declaration. -/
structure Model where
  bindings : List Binding
  configurations : List Configuration
  deriving DecidableEq, Repr

namespace Binding

/-- The value of a property that has only one. -/
def staticValue? (b : Binding) : Option String :=
  match b.values with
  | [only] => some only
  | _ => none

/-- Whether a value is legal. -/
def allows (b : Binding) (value : String) : Bool :=
  b.values.contains value

/-- The value that stands for all values that compile like the given one: the first of its group. -/
def representative (b : Binding) (value : String) : String :=
  if b.collapseAll then b.values.head?.getD value
  else match b.collapse.find? (·.contains value) with
    | some group => group.head?.getD value
    | none => value

/-- The first element of a list that also stands earlier in it, given what came before. -/
def firstRepeated? (seen : List String) : List String → Option String
  | [] => none
  | v :: rest => if seen.contains v then some v else firstRepeated? (v :: seen) rest

/-- Goes through the values of the collapse groups: each must be legal and occur only once. -/
def checkGroups (b : Binding) (seen : List String) : List String → Except DefinitionError Unit
  | [] => .ok ()
  | v :: rest =>
    if !b.allows v then .error (.unknownGroupValue b.name v)
    else if seen.contains v then .error (.overlappingGroups b.name v)
    else b.checkGroups (v :: seen) rest

/-- Accepts a property that has values, none twice, and disjoint groups of its own values. -/
def check (b : Binding) : Except DefinitionError Unit :=
  if b.values.isEmpty then .error (.noValues b.name)
  else match firstRepeated? [] b.values with
    | some v => .error (.duplicateValue b.name v)
    | none => b.checkGroups [] b.collapse.flatten

/-- The property with one value left. -/
def narrowed (b : Binding) (value : String) : Binding :=
  { b with values := [value], collapse := [], collapseAll := false }

end Binding

namespace Model

/-- The model without properties. -/
def empty : Model :=
  ⟨[], []⟩

/-- The binding property with a name. -/
def binding? (m : Model) (name : String) : Option Binding :=
  m.bindings.find? (·.name == name)

/-- The configuration property with a name. -/
def configuration? (m : Model) (name : String) : Option Configuration :=
  m.configurations.find? (·.name == name)

/-- Whether a name is declared. -/
def declares (m : Model) (name : String) : Bool :=
  (m.binding? name).isSome || (m.configuration? name).isSome

/-- The model with a further binding property. -/
def addBinding (m : Model) (b : Binding) : Except DefinitionError Model :=
  if m.declares b.name then .error (.duplicateProperty b.name)
  else match b.check with
    | .error e => .error e
    | .ok _ => .ok { m with bindings := m.bindings ++ [b] }

/-- The model with a further configuration property. -/
def addConfiguration (m : Model) (c : Configuration) : Except DefinitionError Model :=
  if m.declares c.name then .error (.duplicateProperty c.name)
  else .ok { m with configurations := m.configurations ++ [c] }

/-- The bindings with the first one of a name narrowed to a value. -/
def narrowFirst (name value : String) : List Binding → List Binding
  | [] => []
  | b :: rest => if b.name = name then b.narrowed value :: rest else b :: narrowFirst name value rest

/-- The model with a property pinned to a value, which has to be legal. -/
def pin (m : Model) (name value : String) : Except DefinitionError Model :=
  match m.configuration? name with
  | some c => if c.value = value then .ok m else .error (.illegalPin name value)
  | none =>
    match m.binding? name with
    | none => .error (.unknownProperty name)
    | some b =>
      if b.allows value then .ok { m with bindings := narrowFirst name value m.bindings }
      else .error (.illegalPin name value)

/-- The model with a list of pins applied in order. -/
def pinAll (m : Model) (pins : List (String × String)) : Except DefinitionError Model :=
  pins.foldlM (fun m p => m.pin p.1 p.2) m

/-- The model with lists of properties added in order, bindings first. -/
def declare (m : Model) (bindings : List Binding) (configurations : List Configuration) :
    Except DefinitionError Model := do
  let m ← bindings.foldlM addBinding m
  configurations.foldlM addConfiguration m

end Model

/-- The name and the value that a pin gives, as `name=value`; blanks around either are dropped. -/
def parsePin (text : String) : Except DefinitionError (String × String) :=
  let cs := text.toList
  let name := cs.takeWhile (· != '=')
  match cs.drop name.length with
  | [] => .error (.malformedPin text)
  | _ :: value =>
    let name := Text.trimBlanks name
    if name.isEmpty then .error (.malformedPin text)
    else .ok (String.ofList name, String.ofList (Text.trimBlanks value))

end DeferredBinding
