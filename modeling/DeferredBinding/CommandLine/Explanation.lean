import DeferredBinding.Diagnostic.Report

/-!
Explanations of the diagnostic codes, in words for a terminal and as JSON.
-/
namespace DeferredBinding

/-- What there is to say about a code. -/
structure Explanation where
  title : String
  description : String
  example? : Option String
  suggestion? : Option String
  related : List Diagnostic.Code

namespace Explanation

/-- The explanation of a code. -/
def of : Diagnostic.Code → Explanation
  | .countMismatch => {
      title := "Permutation Count Mismatch"
      description :=
        "The link was handed a different number of compiled results than the precompilation has " ++
        "permutations. Each permutation index needs exactly one result, in order."
      example? := some "mismatched result file count: 3 result file(s) for 4 permutation(s)"
      suggestion? := some "Compile every permutation listed by `weft perms` and pass all results."
      related := [.resultMissing] }
  | .moduleMismatch => {
      title := "Module Mismatch"
      description :=
        "The precompilation record in the work directory was produced for another module."
      example? := none
      suggestion? := some "Use a separate work directory per module, or re-run `weft precompile`."
      related := [.recordMissing] }
  | .severalPrimaries => {
      title := "Multiple Primary Linkers"
      description :=
        "A module may run any number of pre and post linkers but at most one primary linker, since the " ++
        "primary linker produces the entry point."
      example? := some "[module]\nlinkers = [\"std\", \"my-primary\"]"
      suggestion? := some "Remove all but one primary linker from `linkers`."
      related := [.unknownLinker] }
  | .unknownLinker => {
      title := "Unknown Linker"
      description :=
        "The module names a linker that is not registered. Built-in linkers are `std` and `manifest`."
      example? := some "[module]\nlinkers = [\"std\", \"xs\"]"
      suggestion? := some "Check the spelling of the names in `linkers`."
      related := [.severalPrimaries] }
  | .unknownProperty => {
      title := "Unknown Property"
      description :=
        "A pin or a permutation refers to a property the module does not declare."
      example? := some "weft link hello.module.toml --pin theme=dark ..."
      suggestion? := some "Declare the property in the module, or drop the pin."
      related := [.illegalValue] }
  | .illegalValue => {
      title := "Invalid Property Value"
      description :=
        "A property was given a value outside its declared list of legal values."
      example? := some "weft link hello.module.toml --pin locale=de ...  # locale allows en, fr"
      suggestion? := some "Use one of the values listed in the module's property declaration."
      related := [.unknownProperty] }
  | .invalidModule => {
      title := "Invalid Module"
      description :=
        "The module definition could not be read or is malformed: bad TOML, duplicate properties, empty " ++
        "value lists or collapse groups naming undeclared values."
      example? := none
      suggestion? := some "Fix the reported problem in the *.module.toml file."
      related := [] }
  | .recordMissing => {
      title := "Precompilation Missing"
      description :=
        "The work directory has no precompilation.json."
      example? := none
      suggestion? := some "Run `weft precompile <module> --work-dir <dir>` first."
      related := [.recordUnreadable] }
  | .resultMissing => {
      title := "Compiled Result Missing"
      description :=
        "A permutation-N.js file is absent from the work directory. The first missing index is reported."
      example? := none
      suggestion? := some "Compile all permutations before linking."
      related := [.countMismatch] }
  | .recordUnreadable => {
      title := "Unreadable Precompilation"
      description :=
        "precompilation.json exists but is corrupt or was written by an incompatible version."
      example? := none
      suggestion? := some "Re-run `weft precompile` with this version of weft."
      related := [.recordMissing] }
  | .resultUnreadable => {
      title := "Unreadable Compiled Result"
      description :=
        "A permutation-N.js file exists but could not be read as UTF-8 text."
      example? := none
      suggestion? := some "Recompile the permutation; result files must be UTF-8 JavaScript."
      related := [.resultMissing] }
  | .linkerFailed => {
      title := "Linker Failed"
      description :=
        "A linker in the chain reported an error. The link stops and nothing is written."
      example? := some "linker 'std' failed\n  = caused by: results A and B are both selected by \x7bagent=ie\x7d"
      suggestion? := some "Read the cause; the std linker fails when two different results answer the same property values."
      related := [] }
  | .writeFailed => {
      title := "Output Write Failed"
      description :=
        "Writing, clearing or renaming an output directory failed. Previous output is left in place."
      example? := none
      suggestion? := some "Check permissions and free space for the output and extra directories."
      related := [.invalidArtifactPath] }
  | .invalidArtifactPath => {
      title := "Invalid Artifact Path"
      description :=
        "An artifact path is absolute or leaves its output directory through `..`."
      example? := some "../outside.js"
      suggestion? := some "Emit artifacts with relative paths below the module directory."
      related := [.writeFailed] }
  | .legacyPlacement => {
      title := "Legacy Auxiliary Directory"
      description :=
        "No extra directory was given, so private artifacts were written to a `-aux` directory next to the " ++
        "public output, where they may get deployed by accident."
      example? := some "www/hello/       public\nwww/hello-aux/   private"
      suggestion? := some "Pass --extra DIR to keep private artifacts out of the output directory."
      related := [] }
  | .nestedOutputs => {
      title := "Nested Output Directories"
      description :=
        "The private output directory lies inside the public one, or the other way round. Replacing one " ++
        "directory would delete the other."
      example? := some "weft link hello.module.toml -w work -o www --extra www/hello/private"
      suggestion? := some "Point --extra at a directory outside the public output, or at the output root itself."
      related := [.legacyPlacement] }
  | .internalError => {
      title := "Internal Error"
      description :=
        "Something failed outside the link itself, such as reading an IR file or printing results."
      example? := none
      suggestion? := some "Re-run with -vv to see debug logging."
      related := [] }

/-- A text in a list of terminal styles, where colors are wanted. -/
def styled (colored : Bool) (styles : List Nat) (text : String) : String :=
  if colored then Text.concat (styles.map Diagnostic.style) ++ text ++ Diagnostic.style 0 else text

/-- The lines of a text, each without its end. -/
def linesOf (text : String) : List String :=
  go [] text.toList
where
  /-- The lines of the characters that are left, `line` being the start of the first, newest first. -/
  go (line : List Char) : List Char → List String
    | [] => if line.isEmpty then [] else [String.ofList line.reverse]
    | '\n' :: rest => String.ofList line.reverse :: go [] rest
    | c :: rest => go (c :: line) rest

/-- A headed passage with its lines indented, and an empty line; nothing if there is no text. -/
def passage (heading : String) : Option String → String
  | none => ""
  | some text => heading ++ ":\n" ++ Text.concat ((linesOf text).map fun l => "  " ++ l ++ "\n") ++ "\n"

/-- The explanation of a code for a terminal. -/
def terminal (colored : Bool) (c : Diagnostic.Code) : String :=
  let e := of c
  "\n" ++ styled colored [36, 1] c.label ++ ": " ++ styled colored [1] e.title ++ "\n" ++
    String.ofList (List.replicate (c.label.length + e.title.length + 2) '=') ++ "\n" ++
    "\n" ++ e.description ++ "\n\n" ++
    passage (styled colored [1] "Example") e.example? ++
    passage (styled colored [32, 1] "Suggestion") e.suggestion? ++
    (if e.related.isEmpty then ""
    else styled colored [2] "Related" ++ ": " ++ Text.join ", " (e.related.map (·.label)) ++ "\n")

/-- The explanation of a code as a value with its fields in alphabetical order. -/
def toJson (c : Diagnostic.Code) : Json :=
  let e := of c
  .record [
    ("category", .text c.category.label),
    ("code", .text c.label),
    ("description", .text e.description),
    ("example", .textOrNull e.example?),
    ("related", .texts (e.related.map (·.label))),
    ("suggestion", .textOrNull e.suggestion?),
    ("title", .text e.title)]

end Explanation

end DeferredBinding
