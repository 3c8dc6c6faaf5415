import DeferredBinding.CommandLine.Run

/-!
The program on a real machine: its disk is the machine's, its log is kept until the end of the run and then written to
the error stream.
-/
namespace DeferredBinding.Live

/-- The number and the wording of a system error. -/
def fault : IO.Error → Nat × String
  | .alreadyExists _ n t | .inappropriateType _ n t | .invalidArgument _ n t | .noSuchThing _ n t
  | .permissionDenied _ n t | .resourceExhausted _ n t => (n.toNat, t)
  | .noFileOrDirectory _ n t | .interrupted _ n t => (n.toNat, t)
  | .otherError n t | .resourceBusy n t | .resourceVanished n t | .unsupportedOperation n t | .hardwareFault n t
  | .unsatisfiedConstraints n t | .illegalOperation n t | .protocolError n t | .timeExpired n t => (n.toNat, t)
  | .unexpectedEof => (0, "unexpected end of file")
  | .userError t => (0, t)

/-- The number of a system error, which may come as a negative word. -/
def errorNumber (n : Nat) : Nat :=
  if n < Nat.pow 2 31 then n else Nat.pow 2 32 - n

/-- The refusal that a system error stands for. -/
def refusal (e : IO.Error) : Refusal :=
  match (errorNumber (fault e).1, (fault e).2) with
  | (2, _) => .notFound
  | (16, _) => .busy
  | (17, _) => .exists
  | (20, _) => .notDirectory
  | (21, _) => .isDirectory
  | (22, _) => .invalid
  | (36, _) => .nameTooLong
  | (39, _) => .notEmpty
  | (n, text) => .other (text ++ " (os error " ++ Text.decimal n ++ ")")

/-- A run of the program, with what was logged so far, newest first. -/
abbrev Run := StateT (List Note) IO

/-- An operation on paths, which must not hold a zero byte; an error of the system becomes a refusal. -/
def guarded {α : Type} (paths : List Path) (operation : IO α) : Run (Except Refusal α) := do
  if paths.any fun p => p.text.toList.contains (Char.ofNat 0) then return .error .nulByte
  match ← operation.toBaseIO with
  | .ok a => return .ok a
  | .error e => return .error (refusal e)

/-- What kind of node a path leads to, if any. -/
def kindOf (p : Path) : Run (Option IO.FS.FileType) := do
  match ← guarded [p] (do (← IO.FS.realPath p.text).metadata) with
  | .ok data => return some data.type
  | .error _ => return none

/-- The files below a directory, depth first in the order of their names, each behind its location. -/
partial def walk (dir : Path) (location : Location) : IO (List (Location × ByteArray)) := do
  let entries ← (← IO.FS.realPath dir.text).readDir
  let names := (entries.toList.map (·.fileName)).mergeSort fun a b => a ≤ b
  let found ← names.mapM fun name => do
    let path := dir.join name
    let here := location ++ [name]
    let data ← (← IO.FS.realPath path.text).metadata
    match data.type with
    | .dir => walk path here
    | _ => return [(here, ← IO.FS.readBinFile path.text)]
  return found.flatten

/-- The program runs on a real machine. -/
instance : Host Run where
  pathExists p := return (← kindOf p).isSome
  isFile p := return (← kindOf p) == some .file
  isDirectory p := return (← kindOf p) == some .dir
  read p := guarded [p] (IO.FS.readBinFile p.text)
  write p bytes := guarded [p] (IO.FS.writeBinFile p.text bytes)
  makeDirectory p := guarded [p] (IO.FS.createDir p.text)
  removeTree p := guarded [p] (IO.FS.removeDirAll p.text)
  rename source target := guarded [source, target] (IO.FS.rename source.text target.text)
  filesBelow p := guarded [p] (walk p [])
  log note := modify (note :: ·)

/-- What is printed where help is asked for. -/
def usage : String :=
  "Usage: weft [--format text|json] [-v]... [-q] [--no-color] COMMAND\n\n" ++
    "  precompile FILE -w DIR [--ir FILE] [--style obfuscated|pretty|detailed] [--pin NAME=VALUE]...\n" ++
    "  link FILE -w DIR -o DIR [--extra DIR] [--pin NAME=VALUE]...\n" ++
    "  perms FILE [--pin NAME=VALUE]...\n" ++
    "  explain CODE\n"

/-- Runs the program on its arguments and gives its exit status. -/
def run (arguments : List String) : IO UInt32 := do
  let stdout ← IO.getStdout
  let stderr ← IO.getStderr
  let terminal ← stderr.isTty
  let (outcome, notes) ← (CommandLine.run terminal arguments : Run CommandLine.Outcome).run []
  match outcome with
  | .help =>
    stdout.putStr usage
    return 0
  | .refused =>
    stderr.putStr usage
    return 2
  | .ended status printed rank =>
    stderr.putStr (CommandLine.logText rank notes.reverse)
    stdout.putStr printed.stdout
    stderr.putStr printed.stderr
    return status.toUInt32

end DeferredBinding.Live

/-- The program. -/
def main (arguments : List String) : IO UInt32 :=
  DeferredBinding.Live.run arguments
