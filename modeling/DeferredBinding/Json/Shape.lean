import DeferredBinding.Json.Reader
import DeferredBinding.Text.Base64

/-!
Values of a known shape. A record is an object with named fields, unknown ones ignored and known ones given at most
once, or an array of its fields in their order. Whether an absent field has a default is up to the record.
-/
namespace DeferredBinding.Json

/-- The text of a readable string. -/
def text? : Json → Option String
  | .string s => s
  | _ => none

/-- A natural number below a bound, written as digits only. -/
def natBelow? (bound : Nat) : Json → Option Nat
  | .number n => do
    let n ← n.natural?
    if n < bound then some n else none
  | _ => none

/-- The items of an array, each read by `read`. -/
def list? {α : Type} (read : Json → Option α) : Json → Option (List α)
  | .array items => items.mapM read
  | _ => none

/-- The names and values of an object of texts, in their order. -/
def textFields? : Json → Option (List (String × String))
  | .object fields => fields.mapM fun f => do
    let k ← f.1
    let v ← f.2.text?
    some (k, v)
  | _ => none

/-- The values given for a name. -/
def valuesFor (name : String) (fields : List (String × Json)) : List Json :=
  (fields.filter fun f => f.1 == name).map (·.2)

/-- The value given for a name, or nothing; refuses a name given twice. -/
def field? (name : String) (fields : List (String × Json)) : Option (Option Json) :=
  match valuesFor name fields with
  | [] => some none
  | [v] => some (some v)
  | _ => none

/-- The fields of a record in the order of their names, each present or absent. -/
def fieldsOf? (names : List String) : Json → Option (List (Option Json))
  | .object fields => do
    let fields ← fields.mapM fun f => f.1.map fun k => (k, f.2)
    names.mapM fun name => field? name fields
  | .array items =>
    if items.length ≤ names.length then
      some (items.map some ++ List.replicate (names.length - items.length) none)
    else none
  | _ => none

/-- The choice that a value names: its name, or an object whose one field has that name and no content. -/
def choice? {α : Type} (isNothing : Json → Bool) (named : String → Option α) : Json → Option α
  | .string s => s.bind named
  | .object [(k, v)] => if isNothing v then k.bind named else none
  | _ => none

/-- A value is nothing when it is null. -/
def isNull : Json → Bool
  | .null => true
  | _ => false

/-- A value is blank when it is null or an object without fields. -/
def isBlank : Json → Bool
  | .null => true
  | .object [] => true
  | _ => false

/-- The bytes that a text holds in base64. -/
def bytes? (v : Json) : Option ByteArray :=
  v.text?.bind Base64.toBytes?

end DeferredBinding.Json
