import DeferredBinding.Text.Basic

/-!
JSON values. A value keeps what the text said: an object keeps its fields in order with repetitions, a number keeps
whether it was written as a plain integer, and a string keeps whether it could be read at all.
-/
namespace DeferredBinding

/-- A number as written: digits, and the power of ten when a fraction or an exponent was given. -/
structure Json.Number where
  negative : Bool
  digits : Nat
  scale : Option Int
  deriving DecidableEq, Repr

/-- A JSON value. A string that cannot be read, because it names half of a surrogate pair or holds a byte that is not
UTF-8, is `none`. -/
inductive Json where
  | null
  | bool (b : Bool)
  | number (n : Json.Number)
  | string (s : Option String)
  | array (items : List Json)
  | object (fields : List (Option String × Json))
  deriving Repr

namespace Json

/-- The number that stands for a natural number. -/
def Number.ofNat (n : Nat) : Number :=
  ⟨false, n, none⟩

/-- The natural number that is written as digits only. -/
def Number.natural? (n : Number) : Option Nat :=
  if n.negative then none
  else match n.scale with
    | none => some n.digits
    | some _ => none

/-- Whether a number is too large for a float. -/
def Number.isOverlarge (n : Number) : Bool :=
  Text.isOverlarge n.digits (n.scale.getD 0)

/-- A text as a value. -/
def text (s : String) : Json :=
  .string (some s)

/-- A natural number as a value. -/
def nat (n : Nat) : Json :=
  .number (.ofNat n)

/-- A text or nothing as a value. -/
def textOrNull : Option String → Json
  | some s => .text s
  | none => .null

/-- An object with readable names. -/
def record (fields : List (String × Json)) : Json :=
  .object (fields.map fun f => (some f.1, f.2))

/-- A list of texts as a value. -/
def texts (l : List String) : Json :=
  .array (l.map text)

mutual

/-- How many arrays and objects a value nests, itself included. -/
def depth : Json → Nat
  | .array items => depthOfItems items + 1
  | .object fields => depthOfFields fields + 1
  | _ => 0

/-- The greatest depth among the items of an array. -/
def depthOfItems : List Json → Nat
  | [] => 0
  | v :: rest => max v.depth (depthOfItems rest)

/-- The greatest depth among the values of an object. -/
def depthOfFields : List (Option String × Json) → Nat
  | [] => 0
  | (_, v) :: rest => max v.depth (depthOfFields rest)

end

mutual

/-- Whether every string and every number of a value, names of fields included, can be read. -/
def isLegible : Json → Bool
  | .null => true
  | .bool _ => true
  | .number n => !n.isOverlarge
  | .string s => s.isSome
  | .array items => areItemsLegible items
  | .object fields => areFieldsLegible fields

/-- Whether every item of an array is legible. -/
def areItemsLegible : List Json → Bool
  | [] => true
  | v :: rest => v.isLegible && areItemsLegible rest

/-- Whether every name and value of an object is legible. -/
def areFieldsLegible : List (Option String × Json) → Bool
  | [] => true
  | (k, v) :: rest => k.isSome && v.isLegible && areFieldsLegible rest

end

end Json

end DeferredBinding
