import DeferredBinding.Property.Model

/-!
Permutations. Each combination of values of the binding properties is answered by one permutation, and combinations that
compile alike share one. A permutation holds an oracle for every combination it answers for.
-/
namespace DeferredBinding

/-- The answers for one combination: names and their values in the same order. -/
structure Oracle where
  props : List String
  values : List String
  deriving DecidableEq, Repr

/-- One compile of a module, with the combinations it answers for. -/
structure Permutation where
  id : Nat
  oracles : List Oracle
  deriving DecidableEq, Repr

namespace Oracle

/-- The oracle with names and values from two lists, which must be equally long. -/
def ofLists? (props values : List String) : Option Oracle :=
  if props.length = values.length then some ⟨props, values⟩ else none

/-- The oracle with names and values from a list of pairs. -/
def ofPairs (pairs : List (String × String)) : Oracle :=
  ⟨pairs.map (·.1), pairs.map (·.2)⟩

/-- The names with their values. -/
def pairs (o : Oracle) : List (String × String) :=
  o.props.zip o.values

/-- The value given for a name. -/
def valueOf? (o : Oracle) (name : String) : Option String :=
  List.lookup name o.pairs

/-- A pair in words. -/
def describePair (p : String × String) : String :=
  p.1 ++ "=" ++ p.2

/-- An oracle in words. -/
def describe (o : Oracle) : String :=
  Text.join ", " (o.pairs.map describePair)

end Oracle

/-- The permutation with an id and oracles, of which there must be one. -/
def Permutation.ofOracles? (id : Nat) (oracles : List Oracle) : Option Permutation :=
  if oracles.isEmpty then none else some ⟨id, oracles⟩

/-- A value for each of a list of properties. -/
abbrev Row := List String

/-- All rows; the value of the first property varies slowest. -/
def rows : List Binding → List Row
  | [] => [[]]
  | b :: rest => b.values.flatMap fun v => (rows rest).map (v :: ·)

/-- The representatives of the values of a row. -/
def representatives (bindings : List Binding) (row : Row) : Row :=
  List.zipWith Binding.representative bindings row

/-- Rows that compile alike, under the row of their representatives. -/
structure RowClass where
  key : Row
  members : List Row

/-- Adds a row to the class with its key, or opens a class for it. -/
def classify (key row : Row) : List RowClass → List RowClass
  | [] => [⟨key, [row]⟩]
  | c :: rest =>
    if c.key = key then { c with members := c.members ++ [row] } :: rest else c :: classify key row rest

/-- The classes of all rows, in the order of their first rows. -/
def rowClasses (bindings : List Binding) : List RowClass :=
  (rows bindings).foldl (fun classes row => classify (representatives bindings row) row classes) []

/-- The permutations of a model: one for each class of rows, numbered from zero. -/
def Model.permutations (m : Model) : List Permutation :=
  (rowClasses m.bindings).zipIdx.map fun (c, i) =>
    ⟨i, c.members.map fun row => ⟨m.bindings.map (·.name), row⟩⟩

end DeferredBinding
