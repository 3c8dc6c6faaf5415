import DeferredBinding.Json.Basic

/-!
JSON text. The compact form has no spaces; the pretty form puts every item on a line of its own, indented by two spaces
a level, and writes an empty array or object on one line.
-/
namespace DeferredBinding.Json

/-- The lower case hexadecimal digit for a value below sixteen. -/
def hexDigit (v : Nat) : Char :=
  if v < 10 then Char.ofNat (48 + v) else Char.ofNat (87 + v)

/-- A character inside a quoted text: quotes, backslashes and control characters are escaped. -/
def escape (c : Char) : List Char :=
  if c = '"' then ['\\', '"']
  else if c = '\\' then ['\\', '\\']
  else if c = '\n' then ['\\', 'n']
  else if c = '\r' then ['\\', 'r']
  else if c = '\t' then ['\\', 't']
  else if c.toNat = 8 then ['\\', 'b']
  else if c.toNat = 12 then ['\\', 'f']
  else if c.toNat < 32 then ['\\', 'u', '0', '0', hexDigit (c.toNat / 16), hexDigit (c.toNat % 16)]
  else [c]

/-- A text in quotes. -/
def quote (s : String) : List Char :=
  '"' :: (s.toList.flatMap escape ++ ['"'])

/-- A string value; one that could not be read is written as a lone surrogate. -/
def spellString : Option String → List Char
  | some s => quote s
  | none => ['"', '\\', 'u', 'd', '8', '0', '0', '"']

/-- An integer in decimal. -/
def spellInt : Int → List Char
  | .ofNat n => Nat.toDigits 10 n
  | .negSucc n => '-' :: Nat.toDigits 10 (n + 1)

/-- A number; a scaled one is written with an exponent. -/
def spellNumber (n : Number) : List Char :=
  (if n.negative then ['-'] else []) ++ Nat.toDigits 10 n.digits ++
    match n.scale with
    | none => []
    | some e => 'e' :: spellInt e

mutual

/-- The compact form of a value. -/
def compact : Json → List Char
  | .null => ['n', 'u', 'l', 'l']
  | .bool true => ['t', 'r', 'u', 'e']
  | .bool false => ['f', 'a', 'l', 's', 'e']
  | .number n => spellNumber n
  | .string s => spellString s
  | .array [] => ['[', ']']
  | .array (v :: rest) => '[' :: (v.compact ++ compactItems rest)
  | .object [] => ['\x7b', '\x7d']
  | .object ((k, v) :: rest) => '\x7b' :: (spellString k ++ ':' :: (v.compact ++ compactFields rest))

/-- The further items of an array and its end. -/
def compactItems : List Json → List Char
  | [] => [']']
  | v :: rest => ',' :: (v.compact ++ compactItems rest)

/-- The further fields of an object and its end. -/
def compactFields : List (Option String × Json) → List Char
  | [] => ['\x7d']
  | (k, v) :: rest => ',' :: (spellString k ++ ':' :: (v.compact ++ compactFields rest))

end

/-- The start of a line at a level. -/
def newline (level : Nat) : List Char :=
  '\n' :: List.replicate (2 * level) ' '

mutual

/-- The pretty form of a value that stands at a level. -/
def indented (level : Nat) : Json → List Char
  | .null => ['n', 'u', 'l', 'l']
  | .bool true => ['t', 'r', 'u', 'e']
  | .bool false => ['f', 'a', 'l', 's', 'e']
  | .number n => spellNumber n
  | .string s => spellString s
  | .array [] => ['[', ']']
  | .array (v :: rest) => '[' :: (newline (level + 1) ++ (v.indented (level + 1) ++ indentedItems level rest))
  | .object [] => ['\x7b', '\x7d']
  | .object ((k, v) :: rest) =>
    '\x7b' :: (newline (level + 1) ++ (spellString k ++ ':' :: ' ' ::
      (v.indented (level + 1) ++ indentedFields level rest)))

/-- The further items of an array that stands at a level, and its end. -/
def indentedItems (level : Nat) : List Json → List Char
  | [] => newline level ++ [']']
  | v :: rest => ',' :: (newline (level + 1) ++ (v.indented (level + 1) ++ indentedItems level rest))

/-- The further fields of an object that stands at a level, and its end. -/
def indentedFields (level : Nat) : List (Option String × Json) → List Char
  | [] => newline level ++ ['\x7d']
  | (k, v) :: rest =>
    ',' :: (newline (level + 1) ++ (spellString k ++ ':' :: ' ' ::
      (v.indented (level + 1) ++ indentedFields level rest)))

end

/-- The pretty form of a value. -/
def pretty (v : Json) : List Char :=
  v.indented 0

/-- The compact text of a value. -/
def compactText (v : Json) : String :=
  String.ofList v.compact

/-- The pretty text of a value. -/
def prettyText (v : Json) : String :=
  String.ofList v.pretty

/-- A text in quotes, as text. -/
def quoted (s : String) : String :=
  String.ofList (quote s)

end DeferredBinding.Json
