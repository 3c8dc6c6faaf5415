import DeferredBinding.Record.Basic

/-!
The arguments of the command line: options that hold everywhere, a command, and the options and operands of the command.
An option is given as `--name value`, `--name=value`, `-n value`, `-nvalue` or `-n=value`; flags of one letter may be
written together; after `--` everything is an operand.
-/
namespace DeferredBinding.CommandLine

/-- What an option takes. -/
inductive Takes where
  | help
  | version
  | flag
  | count
  | path
  | text
  | oneOf (choices : List String)
  deriving DecidableEq, Repr

/-- An option: its names, what it takes, and whether it may be given more than once. -/
structure Opt where
  long : String
  short : Option Char
  takes : Takes
  repeats : Bool
  deriving DecidableEq, Repr

/-- What may be given at one place: options, commands and operands. -/
structure Grammar where
  options : List Opt
  commands : List String
  operands : List Takes

/-- Why arguments are not turned into a command: a page of help or the version is asked for, or they are wrong. -/
inductive Stop where
  | help
  | version
  | refused
  deriving DecidableEq, Repr

/-- What was given so far: values under the long names of their options, operands, and an option that waits for its
value or for being settled. -/
structure Given where
  values : List (String × String)
  operands : List String
  waiting : Option (Opt × Option String)

/-- Whether a value can be what an option takes. -/
def Takes.accepts (t : Takes) (value : String) : Bool :=
  match t with
  | .path => value != ""
  | .oneOf choices => choices.contains value
  | _ => true

/-- Whether an option takes a value. -/
def Takes.hasValue : Takes → Bool
  | .path | .text | .oneOf _ => true
  | _ => false

namespace Given

/-- Nothing given. -/
def nothing : Given :=
  ⟨[], [], none⟩

/-- The values of an option in order. -/
def valuesOf (g : Given) (long : String) : List String :=
  (g.values.filter fun v => v.1 == long).map (·.2)

/-- The last value of an option. -/
def value? (g : Given) (long : String) : Option String :=
  (g.valuesOf long).getLast?

/-- Whether an option is given. -/
def has (g : Given) (long : String) : Bool :=
  !(g.valuesOf long).isEmpty

/-- Adds an option with its value, which has to fit; only some options may be given twice. -/
def add (g : Given) (o : Opt) (value : String) : Except Stop Given :=
  if o.takes.accepts value && (o.repeats || !g.has o.long) then
    .ok { g with values := g.values ++ [(o.long, value)] }
  else .error .refused

/-- Settles the option that waits: its value has to be there by now. -/
def settle (g : Given) : Except Stop Given :=
  match g.waiting with
  | none => .ok g
  | some (_, none) => .error .refused
  | some (o, some value) => { g with waiting := none }.add o value

/-- Whether an option waits for its value. -/
def isWaiting (g : Given) : Bool :=
  match g.waiting with
  | some (_, none) => true
  | _ => false

/-- Takes an option without a value. -/
def takeFlag (g : Given) (o : Opt) : Except Stop Given := do
  let g ← g.settle
  match o.takes with
  | .help => .error .help
  | .version => .error .version
  | _ => g.add o ""

/-- Takes an option whose value is attached. -/
def takeValue (g : Given) (o : Opt) (value : String) : Except Stop Given := do
  let g ← g.settle
  g.add o value

/-- Takes an option whose value is to follow. -/
def takeOpen (g : Given) (o : Opt) : Except Stop Given := do
  let g ← g.settle
  return { g with waiting := some (o, none) }

/-- Takes an operand. -/
def takeOperand (g : Given) (grammar : Grammar) (operand : String) : Except Stop Given := do
  let g ← g.settle
  match grammar.operands.drop g.operands.length with
  | t :: _ => if t.accepts operand then return { g with operands := g.operands ++ [operand] } else .error .refused
  | [] => .error .refused

/-- Takes an argument that is no option: the value of the option that waits, or an operand. -/
def takePlain (g : Given) (grammar : Grammar) (argument : String) : Except Stop Given :=
  match g.waiting with
  | some (o, none) => .ok { g with waiting := some (o, some argument) }
  | _ => g.takeOperand grammar argument

/-- Takes an option by its long name. -/
def takeLong (g : Given) (grammar : Grammar) (long : String) (value : Option String) : Except Stop Given :=
  match grammar.options.find? fun o => o.long == long with
  | none => .error .refused
  | some o =>
    match o.takes.hasValue, value with
    | true, some v => g.takeValue o v
    | true, none => g.takeOpen o
    | false, some _ => .error .refused
    | false, none => g.takeFlag o

/-- Takes options by their short names; the first that takes a value has the rest for its value. -/
def takeShort (grammar : Grammar) : List Char → Given → Except Stop Given
  | [], g => .ok g
  | c :: rest, g =>
    match grammar.options.find? fun o => o.short == some c with
    | none => .error .refused
    | some o =>
      if o.takes.hasValue then
        match rest with
        | [] => g.takeOpen o
        | '=' :: value => g.takeValue o (String.ofList value)
        | value => g.takeValue o (String.ofList value)
      else do
        let g ← g.takeFlag o
        takeShort grammar rest g

/-- Takes one argument before `--`. -/
def takeArgument (g : Given) (grammar : Grammar) (argument : String) : Except Stop Given :=
  match argument.toList with
  | '-' :: '-' :: rest =>
    let name := rest.takeWhile (· != '=')
    match rest.drop name.length with
    | [] => g.takeLong grammar (String.ofList name) none
    | _ :: value => g.takeLong grammar (String.ofList name) (some (String.ofList value))
  | ['-'] => g.takePlain grammar argument
  | '-' :: cluster => takeShort grammar cluster g
  | _ => g.takePlain grammar argument

/-- Takes arguments up to a command; `plain` says that `--` was passed. The result has the command with the arguments
after it. -/
def takeAll (grammar : Grammar) : Given → Bool → List String → Except Stop (Given × Option (String × List String))
  | g, _, [] => .ok (g, none)
  | g, true, a :: rest => do
    let g ← g.takeOperand grammar a
    takeAll grammar g true rest
  | g, false, a :: rest =>
    if !g.isWaiting && grammar.commands.contains a then .ok (g, some (a, rest))
    else if a == "--" then takeAll grammar g true rest
    else do
      let g ← g.takeArgument grammar a
      takeAll grammar g false rest

end Given

/-- The options that hold everywhere. -/
def sharedOptions : List Opt :=
  [⟨"format", none, .oneOf ["text", "json"], false⟩,
   ⟨"verbose", some 'v', .count, true⟩,
   ⟨"quiet", some 'q', .flag, false⟩,
   ⟨"no-color", none, .flag, false⟩,
   ⟨"help", some 'h', .help, false⟩,
   ⟨"version", some 'V', .version, false⟩]

/-- The option that pins a property. -/
def pinOption : Opt :=
  ⟨"pin", none, .text, true⟩

/-- The option that names the working directory. -/
def workDirOption : Opt :=
  ⟨"work-dir", some 'w', .path, false⟩

/-- What may follow each command. -/
def commandGrammars : List (String × Grammar) :=
  [("precompile", {
      options := sharedOptions ++ [workDirOption, ⟨"ir", none, .path, false⟩,
        ⟨"style", none, .oneOf ["obfuscated", "pretty", "detailed"], false⟩, pinOption]
      commands := []
      operands := [.path] }),
   ("link", {
      options := sharedOptions ++ [workDirOption, ⟨"out", some 'o', .path, false⟩, ⟨"extra", none, .path, false⟩,
        pinOption]
      commands := []
      operands := [.path] }),
   ("perms", {
      options := sharedOptions ++ [pinOption]
      commands := []
      operands := [.path] }),
   ("explain", {
      options := sharedOptions
      commands := []
      operands := [.text] })]

/-- The names of the commands. -/
def commandNames : List String :=
  commandGrammars.map (·.1)

/-- What may stand before the command. -/
def topGrammar : Grammar where
  options := sharedOptions
  commands := commandNames ++ ["help"]
  operands := []

/-- How results are reported. -/
inductive Format where
  | text
  | json
  deriving DecidableEq, Repr

/-- A command with what it was given. -/
inductive Command where
  | precompile (file : Path) (workDir : Path) (ir : Option Path) (style : OutputStyle) (pins : List String)
  | link (file : Path) (workDir : Path) (out : Path) (extra : Option Path) (pins : List String)
  | perms (file : Path) (pins : List String)
  | explain (code : String)

/-- The settings that hold for any command. -/
structure Settings where
  format : Format
  verbosity : Nat
  quiet : Bool
  noColor : Bool
  deriving DecidableEq, Repr

/-- What the arguments ask for. -/
inductive Request where
  | help
  | version (command : Option String)
  | refused
  | run (settings : Settings) (command : Command)

/-- The settings from before and after the command; what is given after it wins. -/
def settingsOf (before after : Given) : Settings where
  format := if ((after.value? "format").or (before.value? "format")) == some "json" then .json else .text
  verbosity :=
    let inner := (after.valuesOf "verbose").length
    if inner = 0 then (before.valuesOf "verbose").length else inner
  quiet := after.has "quiet" || before.has "quiet"
  noColor := after.has "no-color" || before.has "no-color"

/-- The command with a name, if everything it needs was given. -/
def commandOf? (name : String) (g : Given) : Option Command := do
  let operand ← g.operands.head?
  let pins := g.valuesOf "pin"
  match name with
  | "precompile" =>
    some (.precompile ⟨operand⟩ ⟨← g.value? "work-dir"⟩ ((g.value? "ir").map Path.mk)
      (((g.value? "style").bind OutputStyle.ofLabel?).getD .obfuscated) pins)
  | "link" =>
    some (.link ⟨operand⟩ ⟨← g.value? "work-dir"⟩ ⟨← g.value? "out"⟩ ((g.value? "extra").map Path.mk) pins)
  | "perms" => some (.perms ⟨operand⟩ pins)
  | "explain" => some (.explain operand)
  | _ => none

/-- The request that a stop stands for. -/
def Request.ofStop (command : Option String) : Stop → Request
  | .help => .help
  | .version => .version command
  | .refused => .refused

/-- What is asked by `help` with names after it. -/
def helpRequest : List String → Request
  | [] => .help
  | [name] => if topGrammar.commands.contains name then .help else .refused
  | _ => .refused

/-- What a command is asked with the arguments after it. -/
def commandRequest (name : String) (before : Given) (rest : List String) : Request :=
  match List.lookup name commandGrammars with
  | none => .refused
  | some grammar =>
    match Given.nothing.takeAll grammar false rest with
    | .error stop => .ofStop (some name) stop
    | .ok (after, _) =>
      match after.settle, before.settle with
      | .ok after, .ok before =>
        match commandOf? name after with
        | some command => .run (settingsOf before after) command
        | none => .refused
      | _, _ => .refused

/-- What a list of arguments asks for. Without a command it is a page of help. -/
def parse (arguments : List String) : Request :=
  match Given.nothing.takeAll topGrammar false arguments with
  | .error stop => .ofStop none stop
  | .ok (_, some ("help", rest)) => helpRequest rest
  | .ok (before, some (name, rest)) => commandRequest name before rest
  | .ok (before, none) =>
    match before.settle with
    | .ok _ => .help
    | .error stop => .ofStop none stop

end DeferredBinding.CommandLine
