import DeferredBinding.Json.Printer
import DeferredBinding.Json.Reader
import DeferredBinding.Proofs.Text.ReadBack
import Mathlib.Tactic.SplitIfs

/-!
# JSON values are read back

Every value, whatever its strings and numbers, is what its pretty text and its compact text read as (`ofBytes?_prettyText`,
`ofText?_compactText`). The reader is followed token by token: each lemma says what is read from the written form of one thing
when more text follows, and the text that follows a number has to show that the number is over (`Ends`). The two forms differ
in the blanks between tokens only, so reading is followed once, for blanks of any kind (`Spacing`).
-/
namespace DeferredBinding.Json

open Text (Symbol)

/-- Characters as they are read when none of their bytes is damaged. -/
def shown (cs : List Char) : List Symbol :=
  cs.map some

@[simp] theorem shown_nil : shown [] = [] := rfl

@[simp] theorem shown_cons (c : Char) (cs : List Char) : shown (c :: cs) = some c :: shown cs := rfl

@[simp] theorem shown_append (cs ds : List Char) : shown (cs ++ ds) = shown cs ++ shown ds :=
  List.map_append

@[simp] theorem length_shown (cs : List Char) : (shown cs).length = cs.length :=
  List.length_map ..

/-! ## Strings -/

/-- The piece that a character of a string is read as: a control character without a letter of its own is given by
number. -/
def pieceOf (c : Char) : Piece :=
  if c = '\n' ∨ c = '\r' ∨ c = '\t' ∨ c.toNat = 8 ∨ c.toNat = 12 ∨ 32 ≤ c.toNat then .char c else .unit c.toNat

/-- The four digits of a control character give its number. -/
theorem hex4?_control {n : Nat} (h : n < 32) : hex4? '0' '0' (hexDigit (n / 16)) (hexDigit (n % 16)) = some n := by
  revert n
  decide

/-- An escaped character is read as its piece. -/
theorem readPieces_escape (done : List Piece) (c : Char) (rest : List Symbol) :
    readPieces done (shown (escape c) ++ rest) = readPieces (pieceOf c :: done) rest := by
  unfold escape
  split_ifs with h₁ h₂ h₃ h₄ h₅ h₆ h₇ h₈
  · subst h₁
    rfl
  · subst h₂
    rfl
  · subst h₃
    rfl
  · subst h₄
    rfl
  · subst h₅
    rfl
  · have hc : c = Char.ofNat 8 := Char.toNat_inj.1 h₆
    subst hc
    rfl
  · have hc : c = Char.ofNat 12 := Char.toNat_inj.1 h₇
    subst hc
    rfl
  · have hpiece : pieceOf c = .unit c.toNat := by
      unfold pieceOf
      rw [if_neg]
      simp only [h₃, h₄, h₅, h₆, h₇, false_or]
      omega
    rw [hpiece]
    simp [readPieces, hex4?_control h₈]
  · have hpiece : pieceOf c = .char c := by
      unfold pieceOf
      rw [if_pos]
      omega
    rw [hpiece]
    simp [readPieces, h₂, h₈]

/-- Escaped characters are read as their pieces, up to the closing quote. -/
theorem readPieces_flatMap_escape (done : List Piece) (cs : List Char) (rest : List Symbol) :
    readPieces done (shown (cs.flatMap escape) ++ some '"' :: rest) =
      some (done.reverse ++ cs.map pieceOf, rest) := by
  induction cs generalizing done with
  | nil => simp [readPieces]
  | cons c cs ih =>
    rw [List.flatMap_cons, shown_append, List.append_assoc, readPieces_escape, ih]
    simp

/-- A code unit outside the surrogates is a character by itself, whatever follows. -/
theorem spell_unit {n : Nat} (h : n < 0xD800) (rest : List Piece) :
    spell (.unit n :: rest) = (spell rest).map (Char.ofNat n :: ·) := by
  have hout : ¬(0xD800 ≤ n ∧ n < 0xE000) := by omega
  have hhigh : ¬(0xD800 ≤ n ∧ n < 0xDC00) := by omega
  have hlow : ¬(0xDC00 ≤ n ∧ n < 0xE000) := by omega
  cases rest with
  | nil => simp only [spell, hout, if_false]
  | cons p rest =>
    cases p with
    | unit low => rw [spell, if_neg hhigh, if_neg hlow]
    | char c => simp only [spell, hout, if_false]
    | damaged => simp only [spell, hout, if_false]

/-- A piece spells its character. -/
theorem spell_pieceOf (c : Char) (rest : List Piece) :
    spell (pieceOf c :: rest) = (spell rest).map (c :: ·) := by
  unfold pieceOf
  split
  · rw [spell]
  · have hc : c.toNat < 0xD800 := by omega
    rw [spell_unit hc, Char.ofNat_toNat]

/-- The pieces of characters spell those characters. -/
theorem spell_map_pieceOf (cs : List Char) : spell (cs.map pieceOf) = some cs := by
  induction cs with
  | nil => rfl
  | cons c cs ih => rw [List.map_cons, spell_pieceOf, ih, Option.map_some]

/-- A string is read back after its opening quote. -/
theorem exists_spellString (s : Option String) :
    ∃ cs, spellString s = '"' :: cs ∧ ∀ rest, readString (shown cs ++ rest) = some (s, rest) := by
  cases s with
  | none =>
    refine ⟨['\\', 'u', 'd', '8', '0', '0', '"'], rfl, fun rest => ?_⟩
    have hunit : hex4? 'd' '8' '0' '0' = some 0xD800 := by decide
    simp [readString, readPieces, hunit, spell]
  | some s =>
    refine ⟨s.toList.flatMap escape ++ ['"'], rfl, fun rest => ?_⟩
    unfold readString
    rw [shown_append, List.append_assoc]
    simp [readPieces_flatMap_escape, spell_map_pieceOf]

/-! ## Numbers -/

/-- A text that does not go on with a digit. -/
def NoDigit (rest : List Symbol) : Prop :=
  ∀ c ∈ rest.head?, digit? c = none

/-- A text that does not go on with anything that could belong to a number. -/
structure Ends (rest : List Symbol) : Prop where
  digit : NoDigit rest
  point : ∀ more, rest ≠ some '.' :: more
  small : ∀ more, rest ≠ some 'e' :: more
  capital : ∀ more, rest ≠ some 'E' :: more

theorem ends_nil : Ends [] := by
  constructor <;> simp [NoDigit]

/-- A text that goes on with a given character ends a number when that character is no part of one. -/
theorem ends_cons {c : Char} {rest : List Symbol} (hd : digit? (some c) = none) (hp : c ≠ '.') (he : c ≠ 'e')
    (hE : c ≠ 'E') : Ends (some c :: rest) := by
  constructor <;> simp [NoDigit, *]

/-- The value of a digit. -/
theorem digit?_of_isDigit {c : Char} (h : c.isDigit = true) : digit? (some c) = some (c.toNat - '0'.toNat) := by
  have hbounds : 48 ≤ c.toNat ∧ c.toNat ≤ 57 := by
    simpa [Char.isDigit, UInt32.le_iff_toNat_le] using h
  exact if_pos hbounds

/-- Where there is no digit none is read. -/
theorem readDigits_of_noDigit (count acc : Nat) {rest : List Symbol} (h : NoDigit rest) :
    readDigits count acc rest = (count, acc, rest) := by
  cases rest with
  | nil => rfl
  | cons c rest => simp [readDigits, h c rfl]

/-- A run of digits is read as the number it forms. -/
theorem readDigits_shown (count acc : Nat) {ds : List Char} {rest : List Symbol}
    (hds : ∀ d ∈ ds, d.isDigit = true) (hrest : NoDigit rest) :
    readDigits count acc (shown ds ++ rest) = (count + ds.length, Nat.ofDigitChars 10 ds acc, rest) := by
  induction ds generalizing count acc with
  | nil => exact readDigits_of_noDigit count acc hrest
  | cons d ds ih =>
    have hd := digit?_of_isDigit (hds d List.mem_cons_self)
    simp only [shown_cons, List.cons_append, readDigits, hd]
    rw [ih _ _ fun x hx => hds x (List.mem_cons_of_mem d hx), Nat.ofDigitChars_cons, Nat.mul_comm acc 10,
      List.length_cons, Nat.add_assoc, Nat.add_comm 1]

/-- The decimal digits of a number are digits. -/
theorem isDigit_of_mem_decimal {n : Nat} {c : Char} (h : c ∈ Nat.toDigits 10 n) : c.isDigit = true :=
  Nat.isDigit_of_mem_toDigits (by decide) (by decide) h

/-- The decimal digits of a number are read as that number. -/
theorem readDigits_decimal (n : Nat) {rest : List Symbol} (hrest : NoDigit rest) :
    readDigits 0 0 (shown (Nat.toDigits 10 n) ++ rest) = ((Nat.toDigits 10 n).length, n, rest) := by
  rw [readDigits_shown 0 0 (fun d => isDigit_of_mem_decimal) hrest, Nat.ofDigitChars_ten_toDigits, Nat.zero_add]

/-- Only zero is written with a leading zero. -/
theorem head?_decimal {n : Nat} (h : 0 < n) : (Nat.toDigits 10 n).head? ≠ some '0' := by
  induction n using Nat.strongRecOn with
  | ind n ih =>
    rw [Nat.toDigits_eq_if (by decide)]
    split
    · rename_i hn
      have hdigits : ∀ k, k < 10 → 0 < k → k.digitChar ≠ '0' := by decide
      simpa using hdigits n hn h
    · rw [List.head?_append, Option.or_of_isSome (by simp [Nat.toDigits_ne_nil])]
      exact ih (n / 10) (by omega) (by omega)

/-- The whole part of a number is read back. -/
theorem readWhole_decimal (n : Nat) {rest : List Symbol} (hrest : NoDigit rest) :
    readWhole (shown (Nat.toDigits 10 n) ++ rest) = some (n, rest) := by
  by_cases hn : n = 0
  · subst hn
    simp [readWhole, readDigits_of_noDigit 0 0 hrest]
  · have hhead := head?_decimal (Nat.pos_of_ne_zero hn)
    have hread := readDigits_decimal n hrest
    have hlen : 0 < (Nat.toDigits 10 n).length := Nat.length_toDigits_pos
    unfold readWhole
    split
    · rename_i more heq
      cases hcs : Nat.toDigits 10 n with
      | nil => exact absurd hcs Nat.toDigits_ne_nil
      | cons c cs =>
        rw [hcs] at heq hhead
        simp only [shown_cons, List.cons_append, List.cons.injEq, Option.some.injEq] at heq
        exact absurd (congrArg some heq.1) hhead
    · rw [hread]
      split
      · rename_i h
        simp only [Prod.mk.injEq] at h
        omega
      · rename_i h
        simp only [Prod.mk.injEq] at h
        obtain ⟨-, rfl, rfl⟩ := h
        rfl

/-- The decimal digits of a number start with a digit. -/
theorem exists_decimal (n : Nat) : ∃ c cs, Nat.toDigits 10 n = c :: cs ∧ c.isDigit = true := by
  cases hcs : Nat.toDigits 10 n with
  | nil => exact absurd hcs Nat.toDigits_ne_nil
  | cons c cs => exact ⟨c, cs, rfl, isDigit_of_mem_decimal (hcs ▸ List.mem_cons_self)⟩

/-- An exponent is read back. -/
theorem readExponent_spellInt (e : Int) {rest : List Symbol} (hrest : NoDigit rest) :
    readExponent (shown (spellInt e) ++ rest) = some (e, rest) := by
  cases e with
  | ofNat n =>
    obtain ⟨c, cs, hcs, hc⟩ := exists_decimal n
    have hread := readDigits_decimal n hrest
    have hminus : c ≠ '-' := by
      rintro rfl
      simp at hc
    have hplus : c ≠ '+' := by
      rintro rfl
      simp at hc
    simp only [spellInt]
    rw [hcs] at hread ⊢
    simp only [shown_cons, List.cons_append, List.length_cons] at hread ⊢
    simp [readExponent, hread, hminus, hplus]
  | negSucc n =>
    have hread := readDigits_decimal (n + 1) hrest
    obtain ⟨c, cs, hcs, -⟩ := exists_decimal (n + 1)
    simp only [spellInt, shown_cons, List.cons_append]
    rw [hcs] at hread ⊢
    simp only [shown_cons, List.cons_append, List.length_cons] at hread ⊢
    simp [readExponent, hread]
    omega

/-- A number without its sign. -/
def spellMagnitude (n : Number) : List Char :=
  Nat.toDigits 10 n.digits ++
    match n.scale with
    | none => []
    | some e => 'e' :: spellInt e

/-- A number is written as its sign and the rest. -/
theorem spellNumber_eq (n : Number) : spellNumber n = (if n.negative then ['-'] else []) ++ spellMagnitude n :=
  List.append_assoc ..

/-- The rest of a number starts with a digit. -/
theorem exists_spellMagnitude (n : Number) : ∃ c cs, spellMagnitude n = c :: cs ∧ c.isDigit = true := by
  obtain ⟨c, cs, hcs, hc⟩ := exists_decimal n.digits
  unfold spellMagnitude
  rw [hcs]
  exact ⟨c, _, rfl, hc⟩

/-- A number is read back after its sign. -/
theorem readMagnitude_spellMagnitude (n : Number) {rest : List Symbol} (h : Ends rest) :
    readMagnitude n.negative (shown (spellMagnitude n) ++ rest) = some (n, rest) := by
  obtain ⟨negative, digits, scale⟩ := n
  cases scale with
  | none =>
    have hwhole := readWhole_decimal digits h.digit
    simp only [spellMagnitude, List.append_nil]
    unfold readMagnitude
    rw [hwhole]
    cases rest with
    | nil => rfl
    | cons c rest =>
      have hpoint : c ≠ some '.' := fun hc => h.point rest (hc ▸ rfl)
      have hsmall : c ≠ some 'e' := fun hc => h.small rest (hc ▸ rfl)
      have hcapital : c ≠ some 'E' := fun hc => h.capital rest (hc ▸ rfl)
      simp [hpoint, hsmall, hcapital]
  | some e =>
    have hmark : NoDigit (some 'e' :: (shown (spellInt e) ++ rest)) := by
      simp [NoDigit, digit?]
    have hwhole := readWhole_decimal digits hmark
    simp only [spellMagnitude, shown_append, shown_cons, List.append_assoc, List.cons_append]
    unfold readMagnitude
    rw [hwhole]
    simp [readExponent_spellInt e h.digit]

/-! ## Blanks -/

/-- Blanks before a text are passed over. -/
theorem skipSpace_shown {bs : List Char} (h : ∀ c ∈ bs, isSpace (some c) = true) (cs : List Symbol) :
    skipSpace (shown bs ++ cs) = skipSpace cs := by
  refine List.dropWhile_append_of_pos ?_
  intro c hc
  obtain ⟨b, hb, rfl⟩ := List.mem_map.1 hc
  exact h b hb

/-- A text that starts with a token stays as it is. -/
theorem skipSpace_of_token {c : Symbol} (h : isSpace c = false) (cs : List Symbol) :
    skipSpace (c :: cs) = c :: cs := by
  simp [skipSpace, h]

/-- Texts that differ in leading blanks give the same value. -/
theorem readValue_congr {cs ds : List Symbol} (fuel : Nat) (h : skipSpace cs = skipSpace ds) :
    readValue fuel cs = readValue fuel ds := by
  cases fuel with
  | zero => rfl
  | succ fuel => rw [readValue, readValue, h]

/-- Texts that differ in leading blanks give the same field. -/
theorem readField_congr {cs ds : List Symbol} (fuel : Nat) (h : skipSpace cs = skipSpace ds) :
    readField fuel cs = readField fuel ds := by
  cases fuel with
  | zero => rfl
  | succ fuel => rw [readField, readField, h]

/-- The characters that are blanks. -/
theorem isSpace_some_iff (c : Char) : isSpace (some c) = true ↔ c = ' ' ∨ c = '\n' ∨ c = '\t' ∨ c = '\r' := by
  simp [isSpace, or_assoc]

/-- Blanks, and then a character that is no part of a number, end a number. -/
theorem ends_blanks {bs : List Char} (hbs : ∀ b ∈ bs, isSpace (some b) = true) {rest : List Symbol} (h : Ends rest) :
    Ends (shown bs ++ rest) := by
  cases bs with
  | nil => exact h
  | cons b bs =>
    have hb := (isSpace_some_iff b).1 (hbs b List.mem_cons_self)
    obtain rfl | rfl | rfl | rfl := hb <;> exact ends_cons (by decide) (by decide) (by decide) (by decide)

/-- The blanks that a form of JSON text has in front of an item at a level and behind a colon. -/
structure Spacing where
  line : Nat → List Char
  colon : List Char
  line_blank : ∀ level, ∀ c ∈ line level, isSpace (some c) = true
  colon_blank : ∀ c ∈ colon, isSpace (some c) = true

/-- The blanks of the pretty form. -/
def Spacing.pretty : Spacing where
  line := newline
  colon := [' ']
  line_blank level c hc := by
    simp only [newline, List.mem_cons, List.mem_replicate] at hc
    obtain rfl | ⟨-, rfl⟩ := hc
    · rfl
    · rfl
  colon_blank c hc := by
    obtain rfl := List.mem_singleton.1 hc
    rfl

/-- The compact form has no blanks. -/
def Spacing.tight : Spacing where
  line _ := []
  colon := []
  line_blank := nofun
  colon_blank := nofun

mutual

/-- The form of a value at a level that has given blanks. -/
def spaced (b : Spacing) (level : Nat) : Json → List Char
  | .null => ['n', 'u', 'l', 'l']
  | .bool true => ['t', 'r', 'u', 'e']
  | .bool false => ['f', 'a', 'l', 's', 'e']
  | .number n => spellNumber n
  | .string s => spellString s
  | .array [] => ['[', ']']
  | .array (v :: rest) => '[' :: (b.line (level + 1) ++ (v.spaced b (level + 1) ++ spacedItems b level rest))
  | .object [] => ['\x7b', '\x7d']
  | .object ((k, v) :: rest) =>
    '\x7b' :: (b.line (level + 1) ++ (spellString k ++ ':' :: (b.colon ++
      (v.spaced b (level + 1) ++ spacedFields b level rest))))

/-- The further items of an array at a level, and its end. -/
def spacedItems (b : Spacing) (level : Nat) : List Json → List Char
  | [] => b.line level ++ [']']
  | v :: rest => ',' :: (b.line (level + 1) ++ (v.spaced b (level + 1) ++ spacedItems b level rest))

/-- The further fields of an object at a level, and its end. -/
def spacedFields (b : Spacing) (level : Nat) : List (Option String × Json) → List Char
  | [] => b.line level ++ ['\x7d']
  | (k, v) :: rest =>
    ',' :: (b.line (level + 1) ++ (spellString k ++ ':' :: (b.colon ++
      (v.spaced b (level + 1) ++ spacedFields b level rest))))

end

mutual

theorem spaced_pretty (v : Json) (level : Nat) : v.spaced .pretty level = v.indented level := by
  match v with
  | .null | .bool true | .bool false | .number _ | .string _ | .array [] | .object [] => simp only [spaced, indented]
  | .array (v :: items) =>
    rw [spaced, indented, spaced_pretty v, spacedItems_pretty items]
    rfl
  | .object ((k, v) :: fields) =>
    rw [spaced, indented, spaced_pretty v, spacedFields_pretty fields]
    rfl

theorem spacedItems_pretty (items : List Json) (level : Nat) :
    spacedItems .pretty level items = indentedItems level items := by
  match items with
  | [] => simp only [spacedItems, indentedItems, Spacing.pretty]
  | v :: items =>
    rw [spacedItems, indentedItems, spaced_pretty v, spacedItems_pretty items]
    rfl

theorem spacedFields_pretty (fields : List (Option String × Json)) (level : Nat) :
    spacedFields .pretty level fields = indentedFields level fields := by
  match fields with
  | [] => simp only [spacedFields, indentedFields, Spacing.pretty]
  | (k, v) :: fields =>
    rw [spacedFields, indentedFields, spaced_pretty v, spacedFields_pretty fields]
    rfl

end

mutual

theorem spaced_tight (v : Json) (level : Nat) : v.spaced .tight level = v.compact := by
  match v with
  | .null | .bool true | .bool false | .number _ | .string _ | .array [] | .object [] => simp only [spaced, compact]
  | .array (v :: items) =>
    rw [spaced, compact, spaced_tight v, spacedItems_tight items]
    rfl
  | .object ((k, v) :: fields) =>
    rw [spaced, compact, spaced_tight v, spacedFields_tight fields]
    rfl

theorem spacedItems_tight (items : List Json) (level : Nat) : spacedItems .tight level items = compactItems items := by
  match items with
  | [] => simp only [spacedItems, compactItems, Spacing.tight, List.nil_append]
  | v :: items =>
    rw [spacedItems, compactItems, spaced_tight v, spacedItems_tight items]
    rfl

theorem spacedFields_tight (fields : List (Option String × Json)) (level : Nat) :
    spacedFields .tight level fields = compactFields fields := by
  match fields with
  | [] => simp only [spacedFields, compactFields, Spacing.tight, List.nil_append]
  | (k, v) :: fields =>
    rw [spacedFields, compactFields, spaced_tight v, spacedFields_tight fields]
    rfl

end

/-! ## Values -/

/-- A digit is no blank. -/
theorem isSpace_of_isDigit {c : Char} (h : c.isDigit = true) : isSpace (some c) = false := by
  refine Bool.eq_false_iff.2 ?_
  intro hs
  obtain rfl | rfl | rfl | rfl := (isSpace_some_iff c).1 hs <;> simp at h

/-- A value that starts with a digit is a number. -/
theorem readValue_of_isDigit (fuel : Nat) {c : Char} (h : c.isDigit = true) (cs : List Symbol) :
    readValue (fuel + 1) (some c :: cs) = (readMagnitude false (some c :: cs)).map fun r => (.number r.1, r.2) := by
  rw [readValue, skipSpace_of_token (isSpace_of_isDigit h)]
  split
  -- The last case is the one taken; in the others the first character is none.
  all_goals try
    rename_i heq
    simp only [List.cons.injEq, Option.some.injEq] at heq
    obtain ⟨rfl, -⟩ := heq
    simp at h
  cases readMagnitude false (some c :: cs) <;> rfl

/-- A number is read back where a value is expected. -/
theorem readValue_spellNumber (fuel : Nat) (n : Number) {rest : List Symbol} (h : Ends rest) :
    readValue (fuel + 1) (shown (spellNumber n) ++ rest) = some (.number n, rest) := by
  have hread := readMagnitude_spellMagnitude n h
  rw [spellNumber_eq]
  cases hn : n.negative with
  | true =>
    rw [hn] at hread
    simp only [if_true, List.cons_append, List.nil_append, shown_cons]
    rw [readValue, skipSpace_of_token (by decide)]
    simp [hread]
  | false =>
    obtain ⟨c, cs, hcs, hc⟩ := exists_spellMagnitude n
    simp only [hn, hcs, shown_cons, List.cons_append] at hread
    simp only [Bool.false_eq_true, if_false, List.nil_append, hcs, shown_cons, List.cons_append]
    rw [readValue_of_isDigit fuel hc, hread, Option.map_some]

/-- A string is read back where a value is expected. -/
theorem readValue_spellString (fuel : Nat) (s : Option String) (rest : List Symbol) :
    readValue (fuel + 1) (shown (spellString s) ++ rest) = some (.string s, rest) := by
  obtain ⟨cs, hcs, hread⟩ := exists_spellString s
  rw [hcs, shown_cons, List.cons_append, readValue, skipSpace_of_token (by decide)]
  simp [hread]

/-- A field is read back when the value after its colon is. -/
theorem readField_spellString (b : Spacing) {fuel : Nat} (k : Option String) {v : Json} {text rest : List Symbol}
    (h : readValue fuel text = some (v, rest)) :
    readField (fuel + 1) (shown (spellString k) ++ some ':' :: (shown b.colon ++ text)) = some ((k, v), rest) := by
  obtain ⟨cs, hcs, hread⟩ := exists_spellString k
  have hvalue : readValue fuel (shown b.colon ++ text) = some (v, rest) :=
    (readValue_congr fuel (skipSpace_shown b.colon_blank text)).trans h
  have hcolon : ∀ text, skipSpace (some ':' :: text) = some ':' :: text := skipSpace_of_token (by decide)
  rw [hcs, shown_cons, List.cons_append, readField, skipSpace_of_token (by decide)]
  simp [hread, hcolon, hvalue]

/-- The form of a value starts with a character that is no blank and closes no array. -/
theorem exists_spaced (b : Spacing) (level : Nat) (v : Json) :
    ∃ c cs, v.spaced b level = c :: cs ∧ isSpace (some c) = false ∧ c ≠ ']' := by
  cases v with
  | null => exact ⟨_, _, by rw [spaced], by decide, by decide⟩
  | bool b =>
    cases b with
    | true => exact ⟨_, _, by rw [spaced], by decide, by decide⟩
    | false => exact ⟨_, _, by rw [spaced], by decide, by decide⟩
  | number n =>
    rw [spaced, spellNumber_eq]
    cases n.negative with
    | true => exact ⟨_, _, rfl, by decide, by decide⟩
    | false =>
      obtain ⟨c, cs, hcs, hc⟩ := exists_spellMagnitude n
      refine ⟨c, cs, hcs, isSpace_of_isDigit hc, ?_⟩
      rintro rfl
      simp at hc
  | string s =>
    obtain ⟨cs, hcs, -⟩ := exists_spellString s
    exact ⟨_, cs, by rw [spaced, hcs], by decide, by decide⟩
  | array items =>
    cases items with
    | nil => exact ⟨_, _, by rw [spaced], by decide, by decide⟩
    | cons v items => exact ⟨_, _, by rw [spaced], by decide, by decide⟩
  | object fields =>
    cases fields with
    | nil => exact ⟨_, _, by rw [spaced], by decide, by decide⟩
    | cons f fields => exact ⟨_, _, by rw [spaced], by decide, by decide⟩

/-- What follows an item of an array ends a number. -/
theorem ends_spacedItems (b : Spacing) (level : Nat) (items : List Json) (rest : List Symbol) :
    Ends (shown (spacedItems b level items) ++ rest) := by
  cases items with
  | nil =>
    rw [spacedItems, shown_append, List.append_assoc]
    exact ends_blanks (b.line_blank level) (ends_cons (by decide) (by decide) (by decide) (by decide))
  | cons v items =>
    rw [spacedItems]
    exact ends_cons (by decide) (by decide) (by decide) (by decide)

/-- What follows a field of an object ends a number. -/
theorem ends_spacedFields (b : Spacing) (level : Nat) (fields : List (Option String × Json)) (rest : List Symbol) :
    Ends (shown (spacedFields b level fields) ++ rest) := by
  cases fields with
  | nil =>
    rw [spacedFields, shown_append, List.append_assoc]
    exact ends_blanks (b.line_blank level) (ends_cons (by decide) (by decide) (by decide) (by decide))
  | cons f fields =>
    rw [spacedFields]
    exact ends_cons (by decide) (by decide) (by decide) (by decide)

mutual

/-- A value is read back from its form, given as many steps as that has characters. -/
theorem readValue_spaced (b : Spacing) (v : Json) (level fuel : Nat) (rest : List Symbol) (hrest : Ends rest)
    (hfuel : (v.spaced b level).length ≤ fuel) :
    readValue fuel (shown (v.spaced b level) ++ rest) = some (v, rest) := by
  obtain ⟨fuel, rfl⟩ : ∃ n, fuel = n + 1 := by
    obtain ⟨c, cs, hcs, -⟩ := exists_spaced b level v
    rw [hcs, List.length_cons] at hfuel
    exact Nat.exists_eq_succ_of_ne_zero (by omega)
  match v with
  | .null => rfl
  | .bool true => rfl
  | .bool false => rfl
  | .number n =>
    rw [spaced]
    exact readValue_spellNumber fuel n hrest
  | .string s =>
    rw [spaced]
    exact readValue_spellString fuel s rest
  | .array [] => rfl
  | .array (v :: items) =>
    obtain ⟨c, cs, hcs, hspace, hclose⟩ := exists_spaced b (level + 1) v
    simp only [spaced, List.length_cons, List.length_append] at hfuel
    have hv := readValue_spaced b v (level + 1) fuel (shown (spacedItems b level items) ++ rest)
      (ends_spacedItems b level items rest) (by omega)
    have hitems := readItems_spaced b items level fuel rest (by omega)
    simp only [spaced, shown_cons, shown_append, List.cons_append, List.append_assoc]
    rw [readValue, skipSpace_of_token (by decide)]
    simp only [skipSpace_shown (b.line_blank (level + 1))]
    rw [hcs, shown_cons, List.cons_append] at hv ⊢
    rw [skipSpace_of_token hspace]
    simp [hclose, hv, hitems]
  | .object [] => rfl
  | .object ((k, v) :: fields) =>
    obtain ⟨cs, hcs, -⟩ := exists_spellString k
    simp only [spaced, hcs, List.length_cons, List.length_append] at hfuel
    obtain ⟨fuel, rfl⟩ : ∃ n, fuel = n + 1 := Nat.exists_eq_succ_of_ne_zero (by omega)
    have hv := readValue_spaced b v (level + 1) fuel (shown (spacedFields b level fields) ++ rest)
      (ends_spacedFields b level fields rest) (by omega)
    have hfield := readField_spellString b k hv
    have hfields := readFields_spaced b fields level (fuel + 1) rest (by omega)
    simp only [spaced, shown_cons, shown_append, List.cons_append, List.append_assoc]
    rw [readValue, skipSpace_of_token (by decide)]
    simp only [skipSpace_shown (b.line_blank (level + 1))]
    rw [hcs, shown_cons, List.cons_append] at hfield ⊢
    rw [skipSpace_of_token (by decide)]
    simp [hfield, hfields]

/-- The further items of an array are read back. -/
theorem readItems_spaced (b : Spacing) (items : List Json) (level fuel : Nat) (rest : List Symbol)
    (hfuel : (spacedItems b level items).length ≤ fuel) :
    readItems fuel (shown (spacedItems b level items) ++ rest) = some (items, rest) := by
  obtain ⟨fuel, rfl⟩ : ∃ n, fuel = n + 1 := by
    refine Nat.exists_eq_succ_of_ne_zero fun h => ?_
    cases items <;> simp [spacedItems, h] at hfuel
  match items with
  | [] =>
    simp only [spacedItems, shown_append, List.append_assoc]
    rw [readItems, skipSpace_shown (b.line_blank level)]
    rfl
  | v :: items =>
    simp only [spacedItems, List.length_cons, List.length_append] at hfuel
    have hv := readValue_spaced b v (level + 1) fuel (shown (spacedItems b level items) ++ rest)
      (ends_spacedItems b level items rest) (by omega)
    have hblank := (readValue_congr fuel (skipSpace_shown (b.line_blank (level + 1)) _)).trans hv
    have hitems := readItems_spaced b items level fuel rest (by omega)
    simp only [spacedItems, shown_cons, shown_append, List.cons_append, List.append_assoc]
    rw [readItems, skipSpace_of_token (by decide)]
    simp [hblank, hitems]

/-- The further fields of an object are read back. -/
theorem readFields_spaced (b : Spacing) (fields : List (Option String × Json)) (level fuel : Nat) (rest : List Symbol)
    (hfuel : (spacedFields b level fields).length ≤ fuel) :
    readFields fuel (shown (spacedFields b level fields) ++ rest) = some (fields, rest) := by
  obtain ⟨fuel, rfl⟩ : ∃ n, fuel = n + 1 := by
    refine Nat.exists_eq_succ_of_ne_zero fun h => ?_
    cases fields <;> simp [spacedFields, h] at hfuel
  match fields with
  | [] =>
    simp only [spacedFields, shown_append, List.append_assoc]
    rw [readFields, skipSpace_shown (b.line_blank level)]
    rfl
  | (k, v) :: fields =>
    simp only [spacedFields, List.length_cons, List.length_append] at hfuel
    obtain ⟨fuel, rfl⟩ : ∃ n, fuel = n + 1 := Nat.exists_eq_succ_of_ne_zero (by omega)
    have hv := readValue_spaced b v (level + 1) fuel (shown (spacedFields b level fields) ++ rest)
      (ends_spacedFields b level fields rest) (by omega)
    have hfield := (readField_congr (fuel + 1) (skipSpace_shown (b.line_blank (level + 1)) _)).trans
      (readField_spellString b k hv)
    have hfields := readFields_spaced b fields level (fuel + 1) rest (by omega)
    simp only [spacedFields, shown_cons, shown_append, List.cons_append, List.append_assoc]
    rw [readFields, skipSpace_of_token (by decide)]
    simp [hfield, hfields]

end

/-- A value is what any of its forms reads as. -/
theorem readSymbols?_spaced (b : Spacing) (v : Json) : readSymbols? (shown (v.spaced b 0)) = some v := by
  have hread : readValue (2 * (shown (v.spaced b 0)).length + 2) (shown (v.spaced b 0) ++ []) = some (v, []) :=
    readValue_spaced b v 0 _ [] ends_nil (by rw [length_shown]; omega)
  rw [List.append_nil] at hread
  unfold readSymbols?
  rw [hread]
  rfl

/-- A value is what its pretty text, kept as bytes, reads as. -/
theorem ofBytes?_prettyText (v : Json) : ofBytes? v.prettyText.toUTF8 = some v := by
  have hsymbols : Text.symbols v.prettyText.toUTF8 = shown (v.spaced .pretty 0) := by
    rw [Text.symbols_toUTF8, prettyText, String.toList_ofList, spaced_pretty, pretty, shown]
  unfold ofBytes?
  rw [hsymbols, readSymbols?_spaced]

/-- A value is what its compact text reads as. -/
theorem ofText?_compactText (v : Json) : ofText? v.compactText = some v := by
  have hsymbols : v.compactText.toList.map some = shown (v.spaced .tight 0) := by
    rw [compactText, String.toList_ofList, spaced_tight, shown]
  unfold ofText?
  rw [hsymbols, readSymbols?_spaced]

end DeferredBinding.Json
