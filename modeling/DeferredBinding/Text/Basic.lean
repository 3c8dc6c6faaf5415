import DeferredBinding.Text.Silent

/-!
Texts as the program reads and writes them: bytes that may be damaged UTF-8, blanks around names, texts one after
another, texts in quotes, and decimal numbers.
-/
namespace DeferredBinding.Text

/-! ## Bytes

Every byte sequence has a reading: the characters it encodes, and a gap for each byte that belongs to no character, so
that damage in one place leaves the rest legible. -/

/-- A character, or a gap where a byte belongs to no character. -/
abbrev Symbol := Option Char

/-- The symbols of a byte sequence from an index on. -/
def symbolsFrom (bytes : ByteArray) (i : Nat) : List Symbol :=
  if i < bytes.size then
    match bytes.utf8DecodeChar? i with
    | some c => some c :: symbolsFrom bytes (i + c.utf8Size)
    | none => none :: symbolsFrom bytes (i + 1)
  else []
termination_by bytes.size - i
decreasing_by
  · have := c.utf8Size_pos
    omega
  · omega

/-- The symbols of a byte sequence. -/
def symbols (bytes : ByteArray) : List Symbol :=
  symbolsFrom bytes 0

/-- The text that a byte sequence encodes, if it is UTF-8. -/
def ofBytes? (bytes : ByteArray) : Option String :=
  String.fromUTF8? bytes

/-! ## Blanks -/

/-- The characters with the Unicode property White_Space. -/
def isBlank (c : Char) : Bool :=
  let n := c.toNat
  (9 ≤ n && n ≤ 13) || n == 0x20 || n == 0x85 || n == 0xA0 || n == 0x1680 || (0x2000 ≤ n && n ≤ 0x200A) ||
    n == 0x2028 || n == 0x2029 || n == 0x202F || n == 0x205F || n == 0x3000

/-- A list of characters without its trailing blanks. -/
def dropBlankEnd (cs : List Char) : List Char :=
  (cs.reverse.dropWhile isBlank).reverse

/-- A list of characters without blanks at either end. -/
def trimBlanks (cs : List Char) : List Char :=
  dropBlankEnd (cs.dropWhile isBlank)

/-! ## Texts one after another -/

/-- Texts one after another. -/
abbrev concat (texts : List String) : String :=
  String.join texts

/-- Texts one after another with a separator between neighbours. -/
abbrev join (separator : String) (texts : List String) : String :=
  String.intercalate separator texts

/-! ## Texts in quotes

Everything that does not print on its own is spelled out, so that two different texts never look alike. -/

/-- A character inside an escaped text. -/
def escape (c : Char) : List Char :=
  if c = '"' then ['\\', '"']
  else if c = '\\' then ['\\', '\\']
  else if c = '\n' then ['\\', 'n']
  else if c = '\r' then ['\\', 'r']
  else if c = '\t' then ['\\', 't']
  else if c.toNat = 0 then ['\\', '0']
  else if isVisible c then [c]
  else ['\\', 'u', '\x7b'] ++ Nat.toDigits 16 c.toNat ++ ['\x7d']

/-- A text in quotes with its characters escaped. -/
def escaped (s : String) : String :=
  String.ofList ('"' :: (s.toList.flatMap escape ++ ['"']))

/-! ## Decimal numbers

A reader of floats refuses a decimal that is too large for a binary64 float, so the size of a decimal has to be judged
exactly, whatever its exponent. -/

/-- The decimal digits of a number. -/
abbrev decimal (n : Nat) : String :=
  n.repr

/-- The least number that rounds to infinity: halfway between the largest binary64 float and the next power of two. -/
def infinityBound : Nat :=
  Nat.pow 2 1024 - Nat.pow 2 970

/-- The number of decimal digits of a number. -/
def digitCount (n : Nat) : Nat :=
  (Nat.toDigits 10 n).length

/-- Whether `digits × 10 ^ exponent` rounds to infinity. -/
def isOverlarge (digits : Nat) (exponent : Int) : Bool :=
  if digits == 0 then false
  else match exponent with
    | .ofNat e => 400 < e || infinityBound ≤ digits * Nat.pow 10 e
    | .negSucc e => e + 1 ≤ digitCount digits && infinityBound * Nat.pow 10 (e + 1) ≤ digits

end DeferredBinding.Text
