import DeferredBinding.Text.Base64
import DeferredBinding.Text.Basic

/-!
# What is written as text is read back

A text is kept on disk as UTF-8, and the bytes of a file are kept inside a text as base64. Reading undoes both: the
symbols of a text's bytes are its characters, with no gap among them, and the written form of any bytes decodes to them.
-/
namespace DeferredBinding

/-! ## UTF-8 -/

namespace Text

/-- From where the encoding of some characters starts, the symbols are those characters. -/
theorem symbolsFrom_append_utf8Encode (before : ByteArray) (cs : List Char) :
    symbolsFrom (before ++ cs.utf8Encode) before.size = cs.map some := by
  induction cs generalizing before with
  | nil =>
    unfold symbolsFrom
    simp
  | cons c cs ih =>
    have hsplit : before ++ (c :: cs).utf8Encode = before ++ [c].utf8Encode ++ cs.utf8Encode := by
      rw [← List.singleton_append, List.utf8Encode_append, ByteArray.append_assoc]
    have hread : (before ++ (c :: cs).utf8Encode).utf8DecodeChar? before.size = some c := by
      rw [ByteArray.utf8DecodeChar?_eq_utf8DecodeChar?_extract]
      simp [ByteArray.extract_append_eq_right]
    have hsize : (before ++ [c].utf8Encode).size = before.size + c.utf8Size := by
      simp [List.utf8Encode_singleton]
    have hpos := c.utf8Size_pos
    unfold symbolsFrom
    rw [if_pos (by rw [hsplit, ByteArray.size_append, hsize]; omega), hread]
    simp only [List.map_cons, List.cons.injEq, true_and]
    rw [hsplit, ← hsize]
    exact ih _

/-- The symbols of the bytes of a text are its characters. -/
theorem symbols_toUTF8 (s : String) : symbols s.toUTF8 = s.toList.map some := by
  have h := symbolsFrom_append_utf8Encode .empty s.toList
  simpa [symbols] using h

end Text

/-! ## Base64 -/

namespace Base64

/-- A letter has the value it was made for. -/
theorem value?_letter {v : Nat} (h : v < 64) : value? (letter v) = some v := by
  revert v
  decide

/-- No letter is the padding. -/
theorem letter_ne_padding {v : Nat} (h : v < 64) : letter v ≠ '=' := by
  revert v
  decide

/-- A byte is the one with its number. -/
theorem ofNat_of_eq_toNat {n : Nat} {a : UInt8} (h : n = a.toNat) : UInt8.ofNat n = a := by
  rw [h, UInt8.ofNat_toNat]

/-- The written form of any bytes decodes to them. -/
theorem decode?_encode (l : List UInt8) : decode? (encode l) = some l := by
  fun_induction encode l with
  | case1 => rfl
  | case2 a =>
    have ha := a.toNat_lt
    have h₁ : value? (letter (a.toNat / 4)) = some (a.toNat / 4) := value?_letter (by omega)
    have h₂ : value? (letter (a.toNat % 4 * 16)) = some (a.toNat % 4 * 16) := value?_letter (by omega)
    have hbyte : UInt8.ofNat (a.toNat / 4 * 4 + a.toNat % 4 * 16 / 16) = a := ofNat_of_eq_toNat (by omega)
    have hrest : a.toNat % 4 * 16 % 16 = 0 := by omega
    simp only [decode?, lastOne?, h₁, h₂, Option.bind_eq_bind, Option.bind_some, hrest, if_true, hbyte]
  | case3 a b =>
    have ha := a.toNat_lt
    have hb := b.toNat_lt
    have hpad : letter (b.toNat % 16 * 4) ≠ '=' := letter_ne_padding (by omega)
    have h₁ : value? (letter (a.toNat / 4)) = some (a.toNat / 4) := value?_letter (by omega)
    have h₂ : value? (letter (a.toNat % 4 * 16 + b.toNat / 16)) = some (a.toNat % 4 * 16 + b.toNat / 16) :=
      value?_letter (by omega)
    have h₃ : value? (letter (b.toNat % 16 * 4)) = some (b.toNat % 16 * 4) := value?_letter (by omega)
    have hfirst : UInt8.ofNat (a.toNat / 4 * 4 + (a.toNat % 4 * 16 + b.toNat / 16) / 16) = a :=
      ofNat_of_eq_toNat (by omega)
    have hsecond : UInt8.ofNat ((a.toNat % 4 * 16 + b.toNat / 16) % 16 * 16 + b.toNat % 16 * 4 / 4) = b :=
      ofNat_of_eq_toNat (by omega)
    have hrest : b.toNat % 16 * 4 % 4 = 0 := by omega
    simp only [decode?, lastTwo?, h₁, h₂, h₃, Option.bind_eq_bind, Option.bind_some, hrest, if_true, hfirst,
      hsecond]
  | case4 a b c rest ih =>
    have ha := a.toNat_lt
    have hb := b.toNat_lt
    have hc := c.toNat_lt
    have hpad : letter (c.toNat % 64) ≠ '=' := letter_ne_padding (by omega)
    have h₁ : value? (letter (a.toNat / 4)) = some (a.toNat / 4) := value?_letter (by omega)
    have h₂ : value? (letter (a.toNat % 4 * 16 + b.toNat / 16)) = some (a.toNat % 4 * 16 + b.toNat / 16) :=
      value?_letter (by omega)
    have h₃ : value? (letter (b.toNat % 16 * 4 + c.toNat / 64)) = some (b.toNat % 16 * 4 + c.toNat / 64) :=
      value?_letter (by omega)
    have h₄ : value? (letter (c.toNat % 64)) = some (c.toNat % 64) := value?_letter (by omega)
    have hfirst : UInt8.ofNat (a.toNat / 4 * 4 + (a.toNat % 4 * 16 + b.toNat / 16) / 16) = a :=
      ofNat_of_eq_toNat (by omega)
    have hsecond :
        UInt8.ofNat ((a.toNat % 4 * 16 + b.toNat / 16) % 16 * 16 + (b.toNat % 16 * 4 + c.toNat / 64) / 4) = b :=
      ofNat_of_eq_toNat (by omega)
    have hthird : UInt8.ofNat ((b.toNat % 16 * 4 + c.toNat / 64) % 4 * 64 + c.toNat % 64) = c :=
      ofNat_of_eq_toNat (by omega)
    rw [decode?]
    · simp only [ih, h₁, h₂, h₃, h₄, Option.bind_eq_bind, Option.bind_some, hfirst, hsecond, hthird]
    · intro _ h
      exact absurd h hpad
    · intro h
      exact absurd h hpad

/-- Bytes are read back from their written form. -/
theorem toBytes?_ofBytes (bytes : ByteArray) : toBytes? (ofBytes bytes) = some bytes := by
  simp [toBytes?, ofBytes, decode?_encode]

end Base64

end DeferredBinding
