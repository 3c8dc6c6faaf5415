import DeferredBinding.Link.Error
import DeferredBinding.Module.Definition

/-!
Where the files of a module go: the public ones below the output directory, the private ones below a directory of their
own or, where none is given, next to the public ones.
-/
namespace DeferredBinding

/-- The directories that a module is deployed to. -/
structure Layout where
  publicDir : Path
  privateDir : Path
  beside : Bool
  deriving DecidableEq, Repr

/-- A deploy path without one slash, or else one backslash, at its end. -/
def dropLastSeparator (deployTo : String) : String :=
  match deployTo.toList.getLast? with
  | some '/' => String.ofList deployTo.toList.dropLast
  | some '\\' => String.ofList deployTo.toList.dropLast
  | _ => deployTo

/-- The deploy path of the private files where they are put next to the public ones. -/
def besidePath (deployTo : String) : String :=
  dropLastSeparator deployTo ++ "-aux"

namespace Layout

/-- The layout for a deploy path, without regard to whether it is usable. -/
def candidate (deployTo : String) (out : Path) : Option Path → Layout
  | some extra => ⟨out.join (dropSlashes deployTo), extra.join (dropSlashes deployTo), false⟩
  | none => ⟨out.join (dropSlashes deployTo), out.join (besidePath deployTo), true⟩

/-- Whether both kinds of file go to one directory. -/
def shared (l : Layout) : Bool :=
  l.publicDir.sameAs l.privateDir

/-- Whether one directory is strictly inside the other. -/
def nested (l : Layout) : Bool :=
  !l.shared && (l.privateDir.startsWith l.publicDir || l.publicDir.startsWith l.privateDir)

/-- The layout of a module. -/
def resolve (m : Module) (out : Path) (extra : Option Path) : Except LinkError Layout :=
  if isDeployPath m.deployTo then
    let l := candidate m.deployTo out extra
    if l.nested then .error (.nestedOutputs l.publicDir l.privateDir) else .ok l
  else .error (.invalidDeployPath m.deployTo)

end Layout

end DeferredBinding
