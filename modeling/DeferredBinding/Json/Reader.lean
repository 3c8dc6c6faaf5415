import DeferredBinding.Json.Basic
import DeferredBinding.Text.Basic

/-!
Reading JSON text. The reader checks the grammar and keeps every value, however deep; whether a string or number can be
used is left to the one who needs it, so that a part nobody asks for never makes a text unreadable.
-/
namespace DeferredBinding.Json

open Text (Symbol)

/-- The blanks between tokens. -/
def isSpace (c : Symbol) : Bool :=
  c == some ' ' || c == some '\n' || c == some '\t' || c == some '\r'

/-- The text after leading blanks. -/
def skipSpace (cs : List Symbol) : List Symbol :=
  cs.dropWhile isSpace

/-- The value of a hexadecimal digit. -/
def hexValue? (c : Char) : Option Nat :=
  let n := c.toNat
  if 48 ≤ n ∧ n ≤ 57 then some (n - 48)
  else if 97 ≤ n ∧ n ≤ 102 then some (n - 87)
  else if 65 ≤ n ∧ n ≤ 70 then some (n - 55)
  else none

/-- The value of four hexadecimal digits. -/
def hex4? (a b c d : Char) : Option Nat := do
  let a ← hexValue? a
  let b ← hexValue? b
  let c ← hexValue? c
  let d ← hexValue? d
  some (a * 4096 + b * 256 + c * 16 + d)

/-- A piece of a string: a character, a code unit given by number, or a byte that is no character. -/
inductive Piece where
  | char (c : Char)
  | unit (n : Nat)
  | damaged
  deriving DecidableEq, Repr

/-- The character for a one-letter escape. -/
def simpleEscape? (c : Char) : Option Char :=
  if c = '"' then some '"'
  else if c = '\\' then some '\\'
  else if c = '/' then some '/'
  else if c = 'b' then some (Char.ofNat 8)
  else if c = 'f' then some (Char.ofNat 12)
  else if c = 'n' then some '\n'
  else if c = 'r' then some '\r'
  else if c = 't' then some '\t'
  else none

/-- The pieces of a string up to its closing quote, newest first in `done`, and the text after it. -/
def readPieces (done : List Piece) : List Symbol → Option (List Piece × List Symbol)
  | some '"' :: rest => some (done.reverse, rest)
  | some '\\' :: some 'u' :: some a :: some b :: some c :: some d :: rest => do
    let n ← hex4? a b c d
    readPieces (.unit n :: done) rest
  | some '\\' :: some e :: rest => do
    let c ← simpleEscape? e
    readPieces (.char c :: done) rest
  | some '\\' :: _ => none
  | some c :: rest => if c.toNat < 32 then none else readPieces (.char c :: done) rest
  | none :: rest => readPieces (.damaged :: done) rest
  | [] => none

/-- The characters that the pieces of a string spell; two code units join to one character when they form a surrogate
pair, and half of a pair spells nothing. -/
def spell : List Piece → Option (List Char)
  | [] => some []
  | .char c :: rest => (spell rest).map (c :: ·)
  | .unit high :: .unit low :: rest =>
    if 0xD800 ≤ high ∧ high < 0xDC00 then
      if 0xDC00 ≤ low ∧ low < 0xE000 then
        (spell rest).map (Char.ofNat ((high - 0xD800) * 1024 + (low - 0xDC00) + 0x10000) :: ·)
      else none
    else if 0xDC00 ≤ high ∧ high < 0xE000 then none
    else (spell (.unit low :: rest)).map (Char.ofNat high :: ·)
  | .unit n :: rest =>
    if 0xD800 ≤ n ∧ n < 0xE000 then none else (spell rest).map (Char.ofNat n :: ·)
  | .damaged :: _ => none

/-- The string after an opening quote. -/
def readString (cs : List Symbol) : Option (Option String × List Symbol) := do
  let (pieces, rest) ← readPieces [] cs
  some ((spell pieces).map String.ofList, rest)

/-- The digit that a symbol shows. -/
def digit? : Symbol → Option Nat
  | some c => if 48 ≤ c.toNat ∧ c.toNat ≤ 57 then some (c.toNat - 48) else none
  | none => none

/-- The digits at the start of a text: their number, the number they form after `acc`, and the text after them. -/
def readDigits (count acc : Nat) : List Symbol → Nat × Nat × List Symbol
  | [] => (count, acc, [])
  | c :: rest =>
    match digit? c with
    | some d => readDigits (count + 1) (acc * 10 + d) rest
    | none => (count, acc, c :: rest)

/-- The digits of the whole part, which starts with a zero only if it is zero. -/
def readWhole (cs : List Symbol) : Option (Nat × List Symbol) :=
  match cs with
  | some '0' :: rest =>
    match readDigits 0 0 rest with
    | (0, _, _) => some (0, rest)
    | _ => none
  | _ =>
    match readDigits 0 0 cs with
    | (0, _, _) => none
    | (_, n, rest) => some (n, rest)

/-- The exponent after its mark. -/
def readExponent (cs : List Symbol) : Option (Int × List Symbol) :=
  let (negative, cs) := match cs with
    | some '-' :: rest => (true, rest)
    | some '+' :: rest => (false, rest)
    | _ => (false, cs)
  match readDigits 0 0 cs with
  | (0, _, _) => none
  | (_, n, rest) => some (if negative then -(n : Int) else n, rest)

/-- The number after its sign. -/
def readMagnitude (negative : Bool) (cs : List Symbol) : Option (Number × List Symbol) := do
  let (whole, rest) ← readWhole cs
  let (digits, scale, rest) ← match rest with
    | some '.' :: rest =>
      match readDigits 0 whole rest with
      | (0, _, _) => none
      | (count, digits, rest) => some (digits, some (-(count : Int)), rest)
    | _ => some (whole, none, rest)
  match rest with
  | some 'e' :: rest | some 'E' :: rest => do
    let (e, rest) ← readExponent rest
    some (⟨negative, digits, some (scale.getD 0 + e)⟩, rest)
  | _ => some (⟨negative, digits, scale⟩, rest)

mutual

/-- The value at the start of a text and the text after it. The fuel bounds the number of tokens. -/
def readValue : Nat → List Symbol → Option (Json × List Symbol)
  | 0, _ => none
  | fuel + 1, cs =>
    match skipSpace cs with
    | some 'n' :: some 'u' :: some 'l' :: some 'l' :: rest => some (.null, rest)
    | some 't' :: some 'r' :: some 'u' :: some 'e' :: rest => some (.bool true, rest)
    | some 'f' :: some 'a' :: some 'l' :: some 's' :: some 'e' :: rest => some (.bool false, rest)
    | some '"' :: rest => do
      let (s, rest) ← readString rest
      some (.string s, rest)
    | some '-' :: rest => do
      let (n, rest) ← readMagnitude true rest
      some (.number n, rest)
    | some '[' :: rest =>
      match skipSpace rest with
      | some ']' :: rest => some (.array [], rest)
      | rest => do
        let (v, rest) ← readValue fuel rest
        let (items, rest) ← readItems fuel rest
        some (.array (v :: items), rest)
    | some '\x7b' :: rest =>
      match skipSpace rest with
      | some '\x7d' :: rest => some (.object [], rest)
      | rest => do
        let (field, rest) ← readField fuel rest
        let (fields, rest) ← readFields fuel rest
        some (.object (field :: fields), rest)
    | rest => do
      let (n, rest) ← readMagnitude false rest
      some (.number n, rest)

/-- The further items of an array, through its end. -/
def readItems : Nat → List Symbol → Option (List Json × List Symbol)
  | 0, _ => none
  | fuel + 1, cs =>
    match skipSpace cs with
    | some ']' :: rest => some ([], rest)
    | some ',' :: rest => do
      let (v, rest) ← readValue fuel rest
      let (items, rest) ← readItems fuel rest
      some (v :: items, rest)
    | _ => none

/-- A name, a colon and a value. -/
def readField : Nat → List Symbol → Option ((Option String × Json) × List Symbol)
  | 0, _ => none
  | fuel + 1, cs =>
    match skipSpace cs with
    | some '"' :: rest => do
      let (k, rest) ← readString rest
      match skipSpace rest with
      | some ':' :: rest => do
        let (v, rest) ← readValue fuel rest
        some ((k, v), rest)
      | _ => none
    | _ => none

/-- The further fields of an object, through its end. -/
def readFields : Nat → List Symbol → Option (List (Option String × Json) × List Symbol)
  | 0, _ => none
  | fuel + 1, cs =>
    match skipSpace cs with
    | some '\x7d' :: rest => some ([], rest)
    | some ',' :: rest => do
      let (field, rest) ← readField fuel rest
      let (fields, rest) ← readFields fuel rest
      some (field :: fields, rest)
    | _ => none

end

/-- The value that a text holds, with nothing but blanks around it. -/
def readSymbols? (cs : List Symbol) : Option Json := do
  let (v, rest) ← readValue (2 * cs.length + 2) cs
  if (skipSpace rest).isEmpty then some v else none

/-- The value that a byte sequence holds. -/
def ofBytes? (bytes : ByteArray) : Option Json :=
  readSymbols? (Text.symbols bytes)

/-- The value that a text holds. -/
def ofText? (s : String) : Option Json :=
  readSymbols? (s.toList.map some)

end DeferredBinding.Json
