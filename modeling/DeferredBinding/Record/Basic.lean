import DeferredBinding.Artifact.Codec
import DeferredBinding.Host
import DeferredBinding.Link.Error
import DeferredBinding.Property.Permutation

/-!
The record that a precompile hands to the link: the permutations to compile, the pins that narrowed them, and the
artifacts made on the way. It is kept as a JSON file in the working directory, beside the results of the permutations.
-/
namespace DeferredBinding

/-- How readable the emitted code is. -/
inductive OutputStyle where
  | obfuscated
  | pretty
  | detailed
  deriving DecidableEq, Repr

/-- A record of one precompile. -/
structure Record where
  moduleName : String
  style : OutputStyle
  body : String
  permutations : List Permutation
  pins : Dict String
  generated : ArtifactSet
  deriving DecidableEq

/-- The name of a style. -/
def OutputStyle.label : OutputStyle → String
  | .obfuscated => "obfuscated"
  | .pretty => "pretty"
  | .detailed => "detailed"

/-- The style with a name. -/
def OutputStyle.ofLabel? (s : String) : Option OutputStyle :=
  if s == "obfuscated" then some .obfuscated
  else if s == "pretty" then some .pretty
  else if s == "detailed" then some .detailed
  else none

/-- The name of the record's file. -/
def recordFile : String := "precompilation.json"

/-- The file that holds the result of a permutation. -/
def resultFile (workDir : Path) (id : Nat) : Path :=
  workDir.join ("permutation-" ++ Text.decimal id ++ ".js")

/-- An oracle as a value. -/
def Oracle.toJson (o : Oracle) : Json :=
  .record [("props", .texts o.props), ("values", .texts o.values)]

/-- The oracle that a value gives. -/
def Oracle.ofJson? (v : Json) : Option Oracle := do
  match ← v.fieldsOf? ["props", "values"] with
  | [some props, some values] => some ⟨← props.list? Json.text?, ← values.list? Json.text?⟩
  | _ => none

/-- A permutation as a value. -/
def Permutation.toJson (p : Permutation) : Json :=
  .record [("id", .nat p.id), ("oracles", .array (p.oracles.map Oracle.toJson))]

/-- The permutation that a value gives. -/
def Permutation.ofJson? (v : Json) : Option Permutation := do
  match ← v.fieldsOf? ["id", "oracles"] with
  | [some id, some oracles] => some ⟨← id.natBelow? idBound, ← oracles.list? Oracle.ofJson?⟩
  | _ => none

namespace Record

/-- A record as a value. -/
def toJson (r : Record) : Json :=
  .record [
    ("format_version", .nat formatVersion),
    ("module_name", .text r.moduleName),
    ("ir", .record [
      ("options", .record [("output_style", .text r.style.label)]),
      ("body", .text r.body)]),
    ("permutations", .array (r.permutations.map Permutation.toJson)),
    ("pinned_properties", r.pins.toJson),
    ("generated_artifacts", r.generated.toJson)]

/-- The style that the options give, obfuscated where they give none. -/
def readStyle? (options : Json) : Option OutputStyle := do
  match ← options.fieldsOf? ["output_style"] with
  | [none] => some .obfuscated
  | [some style] => style.choice? Json.isNull OutputStyle.ofLabel?
  | _ => none

/-- The style and the body that the shared part of a record gives. -/
def readShared? (ir : Json) : Option (OutputStyle × String) := do
  match ← ir.fieldsOf? ["options", "body"] with
  | [some options, some body] => some (← readStyle? options, ← body.text?)
  | _ => none

/-- The format version and the record that a value gives, whether or not they make sense. -/
def ofJson? (v : Json) : Option (Nat × Record) := do
  let names :=
    ["format_version", "module_name", "ir", "permutations", "pinned_properties", "generated_artifacts"]
  match ← v.fieldsOf? names with
  | [some version, some name, some ir, some permutations, pins, generated] =>
    let version ← version.natBelow? (Nat.pow 2 32)
    let (style, body) ← readShared? ir
    some (version, {
      moduleName := ← name.text?
      style
      body
      permutations := ← permutations.list? Permutation.ofJson?
      pins := ← (match pins with
        | some v => Dict.ofJson? v
        | none => some .empty)
      generated := ← (match generated with
        | some v => ArtifactSet.ofJson? 1 v
        | none => some .empty) })
  | _ => none

/-- Accepts oracles with as many values as names. -/
def checkOracles (id : Nat) : List Oracle → Except RecordFault Unit
  | [] => .ok ()
  | o :: rest =>
    if o.props.length = o.values.length then checkOracles id rest
    else .error (.oracleShape id o.props.length o.values.length)

/-- Accepts permutations that are numbered by their place, from `index` on, and answer for something. -/
def checkPermutations (index : Nat) : List Permutation → Except RecordFault Unit
  | [] => .ok ()
  | p :: rest =>
    if p.id ≠ index then .error (.wrongId index p.id)
    else if p.oracles.isEmpty then .error (.noOracles index)
    else match checkOracles index p.oracles with
      | .error e => .error e
      | .ok _ => checkPermutations (index + 1) rest

/-- Accepts a record of the current version with well-formed permutations. -/
def check (version : Nat) (r : Record) : Except RecordFault Unit :=
  if version ≠ formatVersion then .error (.version version)
  else if r.permutations.isEmpty then .error .noPermutations
  else checkPermutations 0 r.permutations

/-- The bytes of a record's file. -/
def toBytes (r : Record) : ByteArray :=
  r.toJson.prettyText.toUTF8

/-- The record that the bytes of a file hold. -/
def ofBytes (bytes : ByteArray) : Except RecordFault Record :=
  match (Json.ofBytes? bytes).bind ofJson? with
  | none => .error .malformed
  | some (version, r) =>
    match r.check version with
    | .error e => .error e
    | .ok _ => .ok r

variable {m : Type → Type} [Monad m] [Host m]

/-- Writes a record to a file, whose directory is made where it is missing. -/
def write (r : Record) (path : Path) : ExceptT LinkError m Unit := do
  match path.parent? with
  | some parent =>
    match ← (Host.makeDirectories parent : m (Except Refusal Unit)) with
    | .error e => throw (.diskFailed parent e)
    | .ok _ => pure ()
  | none => pure ()
  match ← (Host.write path r.toBytes : m (Except Refusal Unit)) with
  | .error e => throw (.diskFailed path e)
  | .ok _ => pure ()

/-- Reads a record from a file. -/
def read (path : Path) : ExceptT LinkError m Record := do
  match ← (Host.read path : m (Except Refusal ByteArray)) with
  | .error .notFound => throw (.recordMissing path)
  | .error e => throw (.diskFailed path e)
  | .ok bytes =>
    match ofBytes bytes with
    | .error fault => throw (.recordUnreadable path fault)
    | .ok r => return r

end Record

end DeferredBinding
