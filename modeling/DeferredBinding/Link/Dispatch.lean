import DeferredBinding.Link.Chain

/-!
The standard linker. It emits a file for every result that some selection leads to, and a script that finds at run time
which of them to load: the script asks a provider for each open property and looks up the answers in a table.
-/
namespace DeferredBinding.Dispatch

open Text (concat join)

/-- The name of the linker. -/
def linkerName : String := "std"

/-- The name of the script of a module. -/
def scriptFile (moduleName : String) : String :=
  moduleName ++ ".nocache.js"

/-- A row of the dispatch table. -/
structure Answer where
  selection : Selection
  result : CompiledResult

/-- A selection in words. -/
def describe (s : Selection) : String :=
  join ", " (s.entries.map Oracle.describePair)

/-- The result that a table gives for a selection. -/
def answer? (table : List Answer) (s : Selection) : Option CompiledResult :=
  (table.find? fun a => a.selection == s).map (·.result)

/-- Adds a row to a table; two results may not share a selection. -/
def addAnswer (table : List Answer) (a : Answer) : Except LinkError (List Answer) :=
  match answer? table a.selection with
  | none => .ok (table ++ [a])
  | some other =>
    if other.strongName = a.result.strongName then .ok table
    else .error (.stageFailed linkerName
      ("results " ++ other.strongName ++ " and " ++ a.result.strongName ++ " are both selected by \x7b" ++
        describe a.selection ++ "\x7d"))

/-- The rows that a result asks for. -/
def answersOf (r : CompiledResult) : List Answer :=
  r.selections.map fun s => ⟨s, r⟩

/-- The dispatch table of a list of results, in their order. -/
def table (results : List CompiledResult) : Except LinkError (List Answer) :=
  (results.flatMap answersOf).foldlM addAnswer []

/-- The names that occur in the selections of a table, sorted. -/
def openNames (table : List Answer) : List String :=
  (Dict.ofList (table.flatMap fun a => a.selection.entries.map fun e => (e.1, ()))).names

/-- The text that stands for a selection in the script: its values in the order of the names. -/
def keyOf (names : List String) (s : Selection) : String :=
  join "," (names.map fun name => (s.get? name).getD "")

/-- A line of the script. -/
def line (parts : List String) : String :=
  concat parts ++ "\n"

/-- The body of the function that answers a property at run time. -/
def providerBody (c : LinkContext) (name : String) : String :=
  match (c.property? name).bind (·.provider) with
  | some body => body
  | none => concat ["return (window.weftProperties || \x7b\x7d)[", Json.quoted name, "];"]

/-- The line that defines the provider of a property. -/
def providerLine (c : LinkContext) (name : String) : String :=
  line ["    ", Json.quoted name, ": function () \x7b ", providerBody c name, " \x7d,"]

/-- The lines that enter a row of the table; a detailed script says which permutations it stands for. -/
def answerLines (style : OutputStyle) (names : List String) (a : Answer) : String :=
  (if style == .detailed then
    line ["  // permutations ", join ", " (a.result.ids.map Text.decimal)]
  else "") ++
    line ["  answers[", Json.quoted (keyOf names a.selection), "] = ", Json.quoted a.result.strongName, ";"]

/-- The call of the provider of a property. -/
def providerCall (name : String) : String :=
  concat ["providers[", Json.quoted name, "]()"]

/-- The script for a table. -/
def script (c : LinkContext) (table : List Answer) : String :=
  let names := openNames table
  line ["(function () \x7b"] ++
    line ["  var providers = \x7b"] ++
    concat (names.map (providerLine c)) ++
    line ["  \x7d;"] ++
    line ["  var answers = \x7b\x7d;"] ++
    concat (table.map (answerLines c.style names)) ++
    line ["  var key = [", join ", " (names.map providerCall), "].join(\",\");"] ++
    line ["  var strongName = answers[key];"] ++
    line ["  if (!strongName) \x7b throw new Error(", Json.quoted (c.moduleName ++ ": no permutation for "),
      " + key); \x7d"] ++
    line ["  var script = document.createElement(\"script\");"] ++
    line ["  script.src = strongName + \".cache.js\";"] ++
    line ["  document.head.appendChild(script);"] ++
    line ["\x7d)();"]

/-- The results that some selection leads to. -/
def selected (s : ArtifactSet) : List CompiledResult :=
  s.compilations.filter fun r => !r.selections.isEmpty

/-- The file of a result. -/
def cacheArtifact (r : CompiledResult) : Artifact :=
  .emitted (.ofText linkerName (cacheFile r.strongName) r.code)

/-- Emits the files of the results and the script. -/
def run (c : LinkContext) (s : ArtifactSet) : Except LinkError ArtifactSet := do
  let results := selected s
  let answers ← table results
  let s := s.addAll (results.map cacheArtifact)
  return s.add (.emitted (.ofText linkerName (scriptFile c.moduleName) (script c answers)))

/-- The standard linker. -/
def linker : Linker :=
  ⟨linkerName, .primary, run⟩

end DeferredBinding.Dispatch
