/-!
Paths. A path is kept as the text it was given as, and read as a list of components: repeated slashes, a trailing slash
and a dot that is not in front mean nothing, so two texts may name the same components.
-/
namespace DeferredBinding

/-- A path as text. -/
structure Path where
  text : String
  deriving DecidableEq, Repr

namespace Path

/-- A part of a path that means something. -/
inductive Component where
  | root
  | here
  | above
  | name (s : String)
  deriving DecidableEq, Repr

/-- A list of characters cut at every slash. -/
def cut : List Char → List (List Char)
  | [] => [[]]
  | '/' :: rest => [] :: cut rest
  | c :: rest =>
    match cut rest with
    | [] => [[c]]
    | piece :: pieces => (c :: piece) :: pieces

/-- The pieces of a path between its slashes. -/
def pieces (p : Path) : List String :=
  (cut p.text.toList).map String.ofList

/-- Pieces put together with slashes between them. -/
abbrev glue (pieces : List String) : String :=
  String.intercalate "/" pieces

/-- A piece behind the first that means nothing. -/
def isIdle (piece : String) : Bool :=
  piece == "" || piece == "."

/-- The component that a piece behind the first stands for. -/
def Component.ofPiece? (piece : String) : Option Component :=
  if isIdle piece then none
  else if piece == ".." then some .above
  else some (.name piece)

/-- The component that the first piece of a path with further pieces, or of a relative path, stands for. -/
def Component.ofFirst? (piece : String) : Option Component :=
  if piece == "." then some .here else Component.ofPiece? piece

/-- Whether a path starts at the root. -/
def isAbsolute (p : Path) : Bool :=
  p.text.toList.head? == some '/'

/-- The components of a path. -/
def components (p : Path) : List Component :=
  match p.pieces with
  | [] => []
  | first :: rest =>
    (if p.isAbsolute then [.root] else (Component.ofFirst? first).toList) ++ rest.filterMap Component.ofPiece?

/-- Whether two paths have the same components. -/
def sameAs (p q : Path) : Bool :=
  p.components == q.components

/-- Whether the components of `p` begin with those of `q`. -/
def startsWith (p q : Path) : Bool :=
  q.components.isPrefixOf p.components

/-- A path inside another; an absolute path stays as it is. -/
def join (p : Path) (s : String) : Path :=
  if (⟨s⟩ : Path).isAbsolute then ⟨s⟩
  else if p.text == "" || p.text.toList.getLast? == some '/' then ⟨p.text ++ s⟩
  else ⟨p.text ++ "/" ++ s⟩

/-- The pieces, last first, without the idle ones in front. -/
def dropIdle (reversed : List String) : List String :=
  reversed.dropWhile isIdle

/-- The path without its last component; a path without components and the root have none. -/
def parent? (p : Path) : Option Path :=
  match p.pieces with
  | [] => none
  | first :: rest =>
    match dropIdle rest.reverse with
    | [] => if p.isAbsolute || (Component.ofFirst? first).isNone then none else some ⟨""⟩
    | _ :: before =>
      match (dropIdle before).reverse with
      | [] => some (if p.isAbsolute then ⟨"/"⟩ else ⟨first⟩)
      | kept => some ⟨glue (first :: kept)⟩

/-- The last component, if it is a name. -/
def fileName? (p : Path) : Option String :=
  match p.components.getLast? with
  | some (.name s) => some s
  | _ => none

/-- The path and the paths above it, innermost first. The fuel bounds their number. -/
def ancestorsWithin : Nat → Path → List Path
  | 0, p => [p]
  | fuel + 1, p =>
    match p.parent? with
    | none => [p]
    | some q => p :: ancestorsWithin fuel q

/-- The path and the paths above it, innermost first. -/
def ancestors (p : Path) : List Path :=
  ancestorsWithin p.pieces.length p

/-- The names of a path that has nothing but names. -/
def names? (p : Path) : Option (List String) :=
  p.components.mapM fun
    | .name s => some s
    | _ => none

/-- Whether every component of a path is a name and there is at least one. -/
def isPlain (p : Path) : Bool :=
  p.text != "" && p.names?.isSome

end Path

end DeferredBinding
