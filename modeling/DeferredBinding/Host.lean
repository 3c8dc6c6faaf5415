import DeferredBinding.Disk.Operations
import DeferredBinding.Text.Basic

/-!
The machine that the program runs on: its disk and its log. The program asks for nothing else, so it runs alike on a
real machine and on a model of one, whose disk is a file tree and whose log is a list.
-/
namespace DeferredBinding

/-- How important a note in the log is. -/
inductive Level where
  | error
  | warn
  | info
  | debug
  | trace
  deriving DecidableEq, Repr

/-- The name of a level. -/
def Level.label : Level → String
  | .error => "ERROR"
  | .warn => "WARN"
  | .info => "INFO"
  | .debug => "DEBUG"
  | .trace => "TRACE"

/-- Levels from the most important on. -/
def Level.rank : Level → Nat
  | .error => 1
  | .warn => 2
  | .info => 3
  | .debug => 4
  | .trace => 5

/-- A line of the log: its level, the part of the program that wrote it, and its text. -/
structure Note where
  level : Level
  origin : String
  text : String
  deriving DecidableEq, Repr

/-- What the program asks of the machine it runs on. -/
class Host (m : Type → Type) where
  pathExists : Path → m Bool
  isFile : Path → m Bool
  isDirectory : Path → m Bool
  read : Path → m (Except Refusal ByteArray)
  write : Path → ByteArray → m (Except Refusal Unit)
  makeDirectory : Path → m (Except Refusal Unit)
  removeTree : Path → m (Except Refusal Unit)
  rename : Path → Path → m (Except Refusal Unit)
  filesBelow : Path → m (Except Refusal (List (Location × ByteArray)))
  log : Note → m Unit

namespace Host

variable {m : Type → Type} [Monad m] [Host m]

/-- The text of a file. -/
def readText (p : Path) : m (Except Refusal String) := do
  match ← Host.read p with
  | .error e => return .error e
  | .ok bytes =>
    match Text.ofBytes? bytes with
    | some s => return .ok s
    | none => return .error .notText

/-- Makes the first of a list of directories, each inside the next; a missing one outside is made first. -/
def makeDirectoriesOf : List Path → m (Except Refusal Unit)
  | [] => return .ok ()
  | p :: outer => do
    if p.text == "" then return .ok ()
    match ← Host.makeDirectory p with
    | .ok _ => return .ok ()
    | .error .notFound =>
      match ← makeDirectoriesOf outer with
      | .error e => return .error e
      | .ok _ =>
        match ← Host.makeDirectory p with
        | .ok _ => return .ok ()
        | .error e => if ← Host.isDirectory p then return .ok () else return .error e
    | .error e => if ← Host.isDirectory p then return .ok () else return .error e

/-- Makes a directory and the missing ones around it. -/
def makeDirectories (p : Path) : m (Except Refusal Unit) :=
  makeDirectoriesOf p.ancestors

/-- Removes a directory with everything below it, if it is there. -/
def clear (p : Path) : m (Except Refusal Unit) := do
  match ← Host.removeTree p with
  | .error .notFound => return .ok ()
  | r => return r

end Host

/-- A model of a machine: its disk and what was logged, newest first. -/
structure Machine where
  disk : Disk
  notes : List Note

namespace Machine

/-- Runs a query of the disk. -/
def query {α : Type} (f : Disk → α) : StateM Machine α := fun s =>
  (f s.disk, s)

/-- Runs a change of the disk that is done wholly or not at all. -/
def change (f : Disk → Except Refusal Disk) : StateM Machine (Except Refusal Unit) := fun s =>
  match f s.disk with
  | .ok disk => (.ok (), { s with disk })
  | .error e => (.error e, s)

/-- Runs a change of the disk that may be refused halfway. -/
def attempt (f : Disk → Except Refusal Unit × Disk) : StateM Machine (Except Refusal Unit) := fun s =>
  let (result, disk) := f s.disk
  (result, { s with disk })

/-- The program runs on a model of a machine. -/
instance : Host (StateM Machine) where
  pathExists p := query (·.exists? p)
  isFile p := query (·.isFile p)
  isDirectory p := query (·.isDirectory p)
  read p := query (·.read p)
  write p bytes := change (·.write p bytes)
  makeDirectory p := change (·.makeDirectory p)
  removeTree p := attempt (·.removeTree p)
  rename source target := change (·.rename source target)
  filesBelow p := query (·.filesBelow p)
  log note := fun s => ((), { s with notes := note :: s.notes })

end Machine

end DeferredBinding
