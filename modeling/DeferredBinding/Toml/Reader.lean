import DeferredBinding.Toml.Scalar

/-!
Reading a TOML document: keys, nested values, and the lines of the document, which then build its tables.
-/
namespace DeferredBinding.Toml

/-- Arrays and inline tables nest at most 79 deep, and a dotted key has at most 79 parts. -/
def nestingLimit : Nat := 80

/-- The characters of a key without quotes. -/
def isKeyChar (c : Char) : Bool :=
  c.isAlphanum || c == '-' || c == '_'

/-- One part of a key: quoted or bare. -/
def readKeyPart (cs : List Char) : Option (String × List Char) :=
  match cs with
  | '"' :: rest => readBasic (rest.length + 1) [] rest
  | '\'' :: rest => readLiteral rest
  | _ =>
    let part := cs.takeWhile isKeyChar
    if part.isEmpty then none else some (String.ofList part, cs.drop part.length)

/-- The parts of a key, with blanks around each and points between them. The fuel bounds the parts. -/
def readKeyParts : Nat → List Char → Option (List String × List Char)
  | 0, _ => none
  | fuel + 1, cs => do
    let (part, rest) ← readKeyPart (skipSpace cs)
    match skipSpace rest with
    | '.' :: more => do
      let (parts, rest) ← readKeyParts fuel more
      some (part :: parts, rest)
    | rest => some ([part], rest)

/-- A key as the path to its table and its last part. -/
def readKey (cs : List Char) : Option ((List String × String) × List Char) := do
  let (parts, rest) ← readKeyParts (cs.length + 1) cs
  if parts.length < nestingLimit then do
    let key ← parts.getLast?
    some ((parts.dropLast, key), rest)
  else none

mutual

/-- A value inside `depth` arrays and inline tables. The fuel bounds the tokens. -/
def readValue : Nat → Nat → List Char → Option (Value × List Char)
  | 0, _, _ => none
  | fuel + 1, depth, cs =>
    match cs with
    | '[' :: rest => do
      if nestingLimit ≤ depth + 1 then none
      let (items, rest) ← readItems fuel (depth + 1) rest
      some (.array items, rest)
    | '\x7b' :: rest => do
      if nestingLimit ≤ depth + 1 then none
      let (pairs, rest) ← readPairs fuel (depth + 1) rest
      let v ← inlineTable pairs
      some (v, rest)
    | '"' :: _ | '\'' :: _ => do
      let (s, rest) ← readString? cs
      some (.string s, rest)
    | 't' :: _ | 'f' :: _ => readBoolean? cs
    | _ => readNumeric? cs

/-- The items of an array, through its end. Line ends and comments may stand between them, and a comma after the
last. -/
def readItems : Nat → Nat → List Char → Option (List Value × List Char)
  | 0, _, _ => none
  | fuel + 1, depth, cs => do
    match ← skipLines (cs.length + 1) cs with
    | ']' :: rest => some ([], rest)
    | rest => do
      let (v, rest) ← readValue fuel depth rest
      match ← skipLines (rest.length + 1) rest with
      | ',' :: rest => do
        let (items, rest) ← readItems fuel depth rest
        some (v :: items, rest)
      | ']' :: rest => some ([v], rest)
      | _ => none

/-- The pairs of an inline table, through its end; it stands on one line. -/
def readPairs : Nat → Nat → List Char → Option (List (List String × String × Value) × List Char)
  | 0, _, _ => none
  | fuel + 1, depth, cs =>
    match skipSpace cs with
    | '\x7d' :: rest => some ([], rest)
    | rest => readMorePairs fuel depth rest

/-- At least one pair of an inline table, through its end. -/
def readMorePairs : Nat → Nat → List Char → Option (List (List String × String × Value) × List Char)
  | 0, _, _ => none
  | fuel + 1, depth, cs => do
    let ((path, key), rest) ← readKey cs
    let rest ← readMark '=' rest
    let (v, rest) ← readValue fuel depth (skipSpace rest)
    match skipSpace rest with
    | ',' :: rest => do
      let (pairs, rest) ← readMorePairs fuel depth rest
      some ((path, key, v) :: pairs, rest)
    | '\x7d' :: rest => some ([(path, key, v)], rest)
    | _ => none

end

/-- The line at the start of a text, which is neither blank nor a comment. -/
def readLine (cs : List Char) : Option (Line × List Char) :=
  match cs with
  | '[' :: '[' :: rest => do
    let ((path, key), rest) ← readKey rest
    match rest with
    | ']' :: ']' :: rest => do
      let rest ← finishLine? rest
      some (.tables path key, rest)
    | _ => none
  | '[' :: rest => do
    let ((path, key), rest) ← readKey rest
    match rest with
    | ']' :: rest => do
      let rest ← finishLine? rest
      some (.table path key, rest)
    | _ => none
  | _ => do
    let ((path, key), rest) ← readKey cs
    let rest ← readMark '=' rest
    let (v, rest) ← readValue (2 * rest.length + 2) 0 (skipSpace rest)
    let rest ← finishLine? rest
    some (.entry path key v, rest)

/-- The lines of a text. The fuel bounds their number. -/
def readLines : Nat → List Char → Option (List Line)
  | 0, _ => none
  | fuel + 1, cs => do
    match ← skipLinesOrEnd fuel cs with
    | [] => some []
    | rest => do
      let (line, rest) ← readLine rest
      let lines ← readLines fuel rest
      some (line :: lines)
where
  /-- The text after blank lines and comments; the last comment may end the text. -/
  skipLinesOrEnd : Nat → List Char → Option (List Char)
    | 0, _ => none
    | fuel + 1, cs =>
      match skipSpace cs with
      | '#' :: rest => (finishLine? ('#' :: rest)).bind (skipLinesOrEnd fuel)
      | '\n' :: rest => skipLinesOrEnd fuel rest
      | '\r' :: rest => (lineEnd? ('\r' :: rest)).bind (skipLinesOrEnd fuel)
      | rest => some rest

/-- The text after a byte order mark. -/
def dropByteOrderMark : List Char → List Char
  | c :: rest => if c.toNat = 0xFEFF then rest else c :: rest
  | [] => []

/-- The table that a document holds, if it is TOML. -/
def read? (text : String) : Option (List (String × Value)) := do
  let cs := dropByteOrderMark text.toList
  let lines ← readLines (cs.length + 2) cs
  assemble lines

end DeferredBinding.Toml
