import DeferredBinding.Link.Context
import DeferredBinding.Text.Basic

/-!
Linkers and the chains they form. A linker turns one set of artifacts into another; a chain runs the early linkers, then
the primary one, then the late ones, and stops at the first that fails.
-/
namespace DeferredBinding

/-- When a linker runs. -/
inductive Stage where
  | pre
  | primary
  | post
  deriving DecidableEq, Repr

/-- A linker. -/
structure Linker where
  name : String
  stage : Stage
  run : LinkContext → ArtifactSet → Except LinkError ArtifactSet

/-- The linkers that a module can name. -/
abbrev Registry := Dict Linker

/-- The linkers of a list that run at a stage, in their order. -/
def linkersAt (s : Stage) (l : List Linker) : List Linker :=
  l.filter fun k => k.stage == s

/-- The order in which a list of linkers runs; at most one of them is primary. -/
def orderChain (l : List Linker) : Except LinkError (List Linker) :=
  match linkersAt .primary l with
  | first :: second :: _ => .error (.severalPrimaries first.name second.name)
  | primary => .ok (linkersAt .pre l ++ primary ++ linkersAt .post l)

namespace Registry

/-- The registry with a linker under a name. -/
def register (r : Registry) (name : String) (k : Linker) : Registry :=
  r.insert name k

/-- The linker under a name. -/
def create (r : Registry) (name : String) : Except LinkError Linker :=
  match r.get? name with
  | some k => .ok k
  | none => .error (.unknownLinker name)

/-- The names of a registry in words. -/
def describe (r : Registry) : String :=
  "\x7b" ++ Text.join ", " (r.names.map Text.escaped) ++ "\x7d"

/-- The chain of the linkers with a list of names. -/
def buildChain (r : Registry) (names : List String) : Except LinkError (List Linker) := do
  orderChain (← names.mapM (create r))

end Registry

/-- Runs the linkers of a chain in order, each on what the one before it made. -/
def runChain (c : LinkContext) : List Linker → ArtifactSet → Except LinkError ArtifactSet
  | [], s => .ok s
  | k :: rest, s =>
    match k.run c s with
    | .error e => .error e
    | .ok s => runChain c rest s

end DeferredBinding
