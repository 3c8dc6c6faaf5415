import DeferredBinding.Text.Basic
import DeferredBinding.Toml.Value

/-!
The lexical forms of TOML: blanks and comments, the four kinds of string, numbers, booleans and dates. Each reader takes
the characters that are left and gives what it read with the characters after it.
-/
namespace DeferredBinding.Toml

/-- Space and tab. -/
def isSpace (c : Char) : Bool :=
  c == ' ' || c == '\t'

/-- The text after leading spaces and tabs. -/
def skipSpace (cs : List Char) : List Char :=
  cs.dropWhile isSpace

/-- The text after one line end, LF or CRLF. -/
def lineEnd? : List Char → Option (List Char)
  | '\n' :: rest => some rest
  | '\r' :: '\n' :: rest => some rest
  | _ => none

/-- Characters that may stand in a comment: everything but control characters, tab apart. -/
def isPlain (c : Char) : Bool :=
  c == '\t' || (32 ≤ c.toNat && c.toNat != 127)

/-- The text after a comment, if one starts here. -/
def skipComment : List Char → List Char
  | '#' :: rest => rest.dropWhile isPlain
  | cs => cs

/-- The text after the rest of a line: blanks, a comment, and the line end or the end of the text. -/
def finishLine? (cs : List Char) : Option (List Char) :=
  match skipComment (skipSpace cs) with
  | [] => some []
  | rest => lineEnd? rest

/-- The text after blanks, line ends and comments, each comment closed by a line end. The fuel bounds the lines. -/
def skipLines : Nat → List Char → Option (List Char)
  | 0, _ => none
  | fuel + 1, cs =>
    match skipSpace cs with
    | '#' :: rest => (lineEnd? (rest.dropWhile isPlain)).bind (skipLines fuel)
    | '\n' :: rest => skipLines fuel rest
    | '\r' :: rest => (lineEnd? ('\r' :: rest)).bind (skipLines fuel)
    | rest => some rest

/-- The value of a digit in a base up to sixteen. -/
def digitValue? (base : Nat) (c : Char) : Option Nat :=
  let n := c.toNat
  let v :=
    if 48 ≤ n ∧ n ≤ 57 then n - 48
    else if 97 ≤ n ∧ n ≤ 102 then n - 87
    else if 65 ≤ n ∧ n ≤ 70 then n - 55
    else 16
  if v < base then some v else none

/-! ### Strings -/

/-- The number that exactly `count` hexadecimal digits spell after `acc`. -/
def readHex : Nat → Nat → List Char → Option (Nat × List Char)
  | 0, acc, cs => some (acc, cs)
  | count + 1, acc, c :: rest => do
    let v ← digitValue? 16 c
    readHex count (acc * 16 + v) rest
  | _ + 1, _, [] => none

/-- The character with a number, if there is one. -/
def scalar? (n : Nat) : Option Char :=
  if n < 0xD800 ∨ (0xDFFF < n ∧ n < 0x110000) then some (Char.ofNat n) else none

/-- The character that an escape names, after its backslash. -/
def readEscape : List Char → Option (Char × List Char)
  | 'b' :: rest => some (Char.ofNat 8, rest)
  | 'f' :: rest => some (Char.ofNat 12, rest)
  | 'n' :: rest => some ('\n', rest)
  | 'r' :: rest => some ('\r', rest)
  | 't' :: rest => some ('\t', rest)
  | '"' :: rest => some ('"', rest)
  | '\\' :: rest => some ('\\', rest)
  | 'u' :: rest => do
    let (n, rest) ← readHex 4 0 rest
    let c ← scalar? n
    some (c, rest)
  | 'U' :: rest => do
    let (n, rest) ← readHex 8 0 rest
    let c ← scalar? n
    some (c, rest)
  | _ => none

/-- A basic string after its opening quote; `done` holds its characters, newest first. -/
def readBasic : Nat → List Char → List Char → Option (String × List Char)
  | 0, _, _ => none
  | fuel + 1, done, cs =>
    match cs with
    | '"' :: rest => some (String.ofList done.reverse, rest)
    | '\\' :: rest => do
      let (c, rest) ← readEscape rest
      readBasic fuel (c :: done) rest
    | c :: rest => if isPlain c then readBasic fuel (c :: done) rest else none
    | [] => none

/-- A literal string after its opening quote. -/
def readLiteral (cs : List Char) : Option (String × List Char) :=
  let body := cs.takeWhile fun c => c != '\'' && isPlain c
  match cs.drop body.length with
  | '\'' :: rest => some (String.ofList body, rest)
  | _ => none

/-- The text after the first line end of a string of several lines, if it opens with one. -/
def dropFirstLineEnd (cs : List Char) : List Char :=
  (lineEnd? cs).getD cs

/-- The text after blanks and line ends. -/
def skipBlankLines : Nat → List Char → List Char
  | 0, cs => cs
  | fuel + 1, cs =>
    let cs := skipSpace cs
    match lineEnd? cs with
    | some rest => skipBlankLines fuel rest
    | none => cs

/-- Quotes inside a string of several lines: one or two are text, three to five close it and leave up to two as text,
and more cannot stand there. The result is the number that is text and whether the string is closed. -/
def quoteRun (count : Nat) : Option (Nat × Bool) :=
  if count < 3 then some (count, false)
  else if count ≤ 5 then some (count - 3, true)
  else none

/-- A basic string of several lines after its opening quotes. A backslash at the end of a line joins it to the next. -/
def readBasicLines : Nat → List Char → List Char → Option (String × List Char)
  | 0, _, _ => none
  | fuel + 1, done, cs =>
    match cs with
    | '"' :: _ => do
      let run := cs.takeWhile (· == '"')
      let (kept, closed) ← quoteRun run.length
      let done := List.replicate kept '"' ++ done
      let rest := cs.drop run.length
      if closed then some (String.ofList done.reverse, rest) else readBasicLines fuel done rest
    | '\\' :: rest =>
      match lineEnd? (skipSpace rest) with
      | some next => readBasicLines fuel done (skipBlankLines next.length next)
      | none => do
        let (c, rest) ← readEscape rest
        readBasicLines fuel (c :: done) rest
    | '\n' :: rest => readBasicLines fuel ('\n' :: done) rest
    | '\r' :: '\n' :: rest => readBasicLines fuel ('\n' :: done) rest
    | c :: rest => if isPlain c then readBasicLines fuel (c :: done) rest else none
    | [] => none

/-- A literal string of several lines after its opening quotes. -/
def readLiteralLines : Nat → List Char → List Char → Option (String × List Char)
  | 0, _, _ => none
  | fuel + 1, done, cs =>
    match cs with
    | '\'' :: _ => do
      let run := cs.takeWhile (· == '\'')
      let (kept, closed) ← quoteRun run.length
      let done := List.replicate kept '\'' ++ done
      let rest := cs.drop run.length
      if closed then some (String.ofList done.reverse, rest) else readLiteralLines fuel done rest
    | '\n' :: rest => readLiteralLines fuel ('\n' :: done) rest
    | '\r' :: '\n' :: rest => readLiteralLines fuel ('\n' :: done) rest
    | c :: rest => if isPlain c then readLiteralLines fuel (c :: done) rest else none
    | [] => none

/-- A string of any of the four kinds. -/
def readString? (cs : List Char) : Option (String × List Char) :=
  match cs with
  | '"' :: '"' :: '"' :: rest => readBasicLines (rest.length + 1) [] (dropFirstLineEnd rest)
  | '"' :: rest => readBasic (rest.length + 1) [] rest
  | '\'' :: '\'' :: '\'' :: rest => readLiteralLines (rest.length + 1) [] (dropFirstLineEnd rest)
  | '\'' :: rest => readLiteral rest
  | _ => none

/-! ### Numbers -/

/-- Digits with single underscores between them, after a first digit: their number, the number they form, and the text
after them. An underscore is taken only with a digit after it. -/
def readDigitsMore (base : Nat) : Nat → Nat → List Char → Nat × Nat × List Char
  | count, acc, '_' :: c :: rest =>
    match digitValue? base c with
    | some v => readDigitsMore base (count + 1) (acc * base + v) rest
    | none => (count, acc, '_' :: c :: rest)
  | count, acc, c :: rest =>
    match digitValue? base c with
    | some v => readDigitsMore base (count + 1) (acc * base + v) rest
    | none => (count, acc, c :: rest)
  | count, acc, [] => (count, acc, [])

/-- At least one digit, with single underscores between digits. -/
def readDigits (base acc : Nat) : List Char → Option (Nat × Nat × List Char)
  | c :: rest => do
    let v ← digitValue? base c
    some (readDigitsMore base 1 (acc * base + v) rest)
  | [] => none

/-- A sign, which may be absent, and whether it is a minus. -/
def readSign : List Char → Bool × List Char
  | '-' :: rest => (true, rest)
  | '+' :: rest => (false, rest)
  | cs => (false, cs)

/-- The whole part of a decimal number, which starts with a zero only if it is zero. -/
def readWhole : List Char → Option (Nat × List Char)
  | '0' :: rest => some (0, rest)
  | cs => (readDigits 10 0 cs).map fun r => r.2

/-- An exponent after its mark. -/
def readExponent (cs : List Char) : Option (Int × List Char) := do
  let (negative, cs) := readSign cs
  let (_, n, rest) ← readDigits 10 0 cs
  some (if negative then -(n : Int) else n, rest)

/-- The fraction and the exponent of a float after its whole part: the digits, the power of ten, and the text after. -/
def readFraction (whole : Nat) (cs : List Char) : Option (Nat × Int × List Char) :=
  match cs with
  | '.' :: rest => do
    let (count, digits, rest) ← readDigits 10 whole rest
    match rest with
    | 'e' :: more | 'E' :: more => do
      let (e, rest) ← readExponent more
      some (digits, e - count, rest)
    | _ => some (digits, -(count : Int), rest)
  | 'e' :: rest | 'E' :: rest => do
    let (e, rest) ← readExponent rest
    some (whole, e, rest)
  | _ => none

/-- The characters of `cs` before `rest`, which is the end of `cs`. -/
def spelling (cs rest : List Char) : String :=
  String.ofList (cs.take (cs.length - rest.length))

/-- A float with digits; one that is too large has no reading unless it is negative. -/
def readFloat? (cs : List Char) : Option (Value × List Char) := do
  let (negative, body) := readSign cs
  let (whole, rest) ← readWhole body
  let (digits, e, rest) ← readFraction whole rest
  if !negative && Text.isOverlarge digits e then none
  else some (.float (spelling cs rest), rest)

/-- An infinity or a not-a-number, with or without a sign. -/
def readSpecialFloat? (cs : List Char) : Option (Value × List Char) :=
  match (readSign cs).2 with
  | 'i' :: 'n' :: 'f' :: rest => some (.float (spelling cs rest), rest)
  | 'n' :: 'a' :: 'n' :: rest => some (.float (spelling cs rest), rest)
  | _ => none

/-- An integer must fit 64 bits with sign. -/
def integer? (n : Int) : Option Value :=
  if -Int.pow 2 63 ≤ n ∧ n < Int.pow 2 63 then some (.integer n) else none

/-- An integer after the mark of its base. -/
def readBased (base : Nat) (cs : List Char) : Option (Value × List Char) := do
  let (_, n, rest) ← readDigits base 0 cs
  let v ← integer? n
  some (v, rest)

/-- An integer in base ten, or without sign in base sixteen, eight or two. -/
def readInteger? (cs : List Char) : Option (Value × List Char) :=
  match cs with
  | '0' :: 'x' :: rest => readBased 16 rest
  | '0' :: 'o' :: rest => readBased 8 rest
  | '0' :: 'b' :: rest => readBased 2 rest
  | _ => do
    let (negative, body) := readSign cs
    let (n, rest) ← readWhole body
    let v ← integer? (if negative then -(n : Int) else n)
    some (v, rest)

/-! ### Dates and times -/

/-- Two digits as a number. -/
def readTwo : List Char → Option (Nat × List Char)
  | a :: b :: rest => do
    let a ← digitValue? 10 a
    let b ← digitValue? 10 b
    some (a * 10 + b, rest)
  | _ => none

/-- Two digits within bounds. -/
def readBetween (low high : Nat) (cs : List Char) : Option (Nat × List Char) := do
  let (n, rest) ← readTwo cs
  if low ≤ n ∧ n ≤ high then some (n, rest) else none

/-- The text after a given character. -/
def readMark (mark : Char) : List Char → Option (List Char)
  | c :: rest => if c = mark then some rest else none
  | [] => none

/-- The length of a month. -/
def daysIn (year month : Nat) : Nat :=
  if month = 2 then
    if (year % 4 = 0 ∧ year % 100 ≠ 0) ∨ year % 400 = 0 then 29 else 28
  else if month = 4 ∨ month = 6 ∨ month = 9 ∨ month = 11 then 30
  else 31

/-- The text after a date of the calendar. -/
def skipDate (cs : List Char) : Option (List Char) := do
  let (high, rest) ← readTwo cs
  let (low, rest) ← readTwo rest
  let (month, rest) ← readBetween 1 12 (← readMark '-' rest)
  let (_, rest) ← readBetween 1 (daysIn (high * 100 + low) month) (← readMark '-' rest)
  some rest

/-- The text after a time of day; a minute may have a leap second. -/
def skipTime (cs : List Char) : Option (List Char) := do
  let (_, rest) ← readBetween 0 23 cs
  let (_, rest) ← readBetween 0 59 (← readMark ':' rest)
  let (_, rest) ← readBetween 0 60 (← readMark ':' rest)
  match rest with
  | '.' :: more =>
    let digits := more.takeWhile fun c => (digitValue? 10 c).isSome
    if digits.isEmpty then some rest else some (more.drop digits.length)
  | _ => some rest

/-- The text after an offset from universal time, if one stands here. -/
def skipOffset (cs : List Char) : List Char :=
  match cs with
  | 'Z' :: rest | 'z' :: rest => rest
  | '+' :: rest | '-' :: rest =>
    ((do
      let (_, rest) ← readBetween 0 23 rest
      let (_, rest) ← readBetween 0 59 (← readMark ':' rest)
      some rest) : Option (List Char)).getD cs
  | _ => cs

/-- A date, a date with a time, or a time. -/
def readMoment? (cs : List Char) : Option (Value × List Char) :=
  match skipDate cs with
  | some rest =>
    let last := match rest with
      | 'T' :: more | 't' :: more | ' ' :: more =>
        match skipTime more with
        | some after => skipOffset after
        | none => rest
      | _ => rest
    some (.moment (spelling cs last), last)
  | none => (skipTime cs).map fun rest => (.moment (spelling cs rest), rest)

/-- A value that starts with a digit or a sign. -/
def readNumeric? (cs : List Char) : Option (Value × List Char) :=
  readMoment? cs <|> readFloat? cs <|> readSpecialFloat? cs <|> readInteger? cs

/-- A boolean. -/
def readBoolean? : List Char → Option (Value × List Char)
  | 't' :: 'r' :: 'u' :: 'e' :: rest => some (.boolean true, rest)
  | 'f' :: 'a' :: 'l' :: 's' :: 'e' :: rest => some (.boolean false, rest)
  | _ => none

end DeferredBinding.Toml
