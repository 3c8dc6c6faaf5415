/-!
Base64 with the standard alphabet and padding. Writing is the usual encoding; reading accepts exactly the written
forms, so padding is required and the bits that stand for nothing are zero.
-/
namespace DeferredBinding.Base64

/-- The character for a value below 64. -/
def letter (v : Nat) : Char :=
  if v < 26 then Char.ofNat (65 + v)
  else if v < 52 then Char.ofNat (97 + (v - 26))
  else if v < 62 then Char.ofNat (48 + (v - 52))
  else if v = 62 then '+'
  else '/'

/-- The value of a character of the alphabet. -/
def value? (c : Char) : Option Nat :=
  let n := c.toNat
  if 65 ≤ n ∧ n ≤ 90 then some (n - 65)
  else if 97 ≤ n ∧ n ≤ 122 then some (n - 97 + 26)
  else if 48 ≤ n ∧ n ≤ 57 then some (n - 48 + 52)
  else if c = '+' then some 62
  else if c = '/' then some 63
  else none

/-- Three bytes are written as four letters; a shorter end is padded. -/
def encode : List UInt8 → List Char
  | [] => []
  | [a] => [letter (a.toNat / 4), letter (a.toNat % 4 * 16), '=', '=']
  | [a, b] =>
    [letter (a.toNat / 4), letter (a.toNat % 4 * 16 + b.toNat / 16), letter (b.toNat % 16 * 4), '=']
  | a :: b :: c :: rest =>
    letter (a.toNat / 4) :: letter (a.toNat % 4 * 16 + b.toNat / 16) ::
      letter (b.toNat % 16 * 4 + c.toNat / 64) :: letter (c.toNat % 64) :: encode rest

/-- The bytes of a padded last quantum with two letters. -/
def lastOne? (p q : Char) : Option (List UInt8) := do
  let v ← value? p
  let w ← value? q
  if w % 16 = 0 then some [UInt8.ofNat (v * 4 + w / 16)] else none

/-- The bytes of a padded last quantum with three letters. -/
def lastTwo? (p q r : Char) : Option (List UInt8) := do
  let v ← value? p
  let w ← value? q
  let x ← value? r
  if x % 4 = 0 then some [UInt8.ofNat (v * 4 + w / 16), UInt8.ofNat (w % 16 * 16 + x / 4)] else none

/-- The bytes that a text encodes, if it is a written form. -/
def decode? : List Char → Option (List UInt8)
  | [] => some []
  | [p, q, '=', '='] => lastOne? p q
  | [p, q, r, '='] => lastTwo? p q r
  | p :: q :: r :: s :: rest => do
    let v ← value? p
    let w ← value? q
    let x ← value? r
    let y ← value? s
    let tail ← decode? rest
    some (UInt8.ofNat (v * 4 + w / 16) :: UInt8.ofNat (w % 16 * 16 + x / 4) :: UInt8.ofNat (x % 4 * 64 + y) :: tail)
  | _ => none

/-- The written form of a byte sequence. -/
def ofBytes (bytes : ByteArray) : String :=
  String.ofList (encode bytes.data.toList)

/-- The byte sequence that a text encodes, if it is a written form. -/
def toBytes? (text : String) : Option ByteArray :=
  (decode? text.toList).map fun l => ByteArray.mk l.toArray

end DeferredBinding.Base64
