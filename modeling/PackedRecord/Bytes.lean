/-!
Byte text.

Formats, messages and encoded text are all runs of bytes. A text written in
this library is stored as its UTF-8 bytes, and numbers are written with the
digits of `Nat.toDigits`, so a decimal text reads back by `Nat.ofDigitChars`.
-/

namespace PackedRecord

/-- A run of bytes: the contents of a buffer, or a text in some encoding. -/
abbrev Bytes := List UInt8

/-- Sizes and counts stay below this bound. -/
def sizeLimit : Nat := 0x10000000000000000

namespace Bytes

/-- The UTF-8 bytes of a text. -/
def ofString (s : String) : Bytes :=
  s.toUTF8.data.toList

def ofChars (cs : List Char) : Bytes :=
  cs.map Char.toUInt8

/-- The digits of a number in a base of at most sixteen, letters in lower case. -/
def digits (base n : Nat) : Bytes :=
  ofChars (Nat.toDigits base n)

def decimal (n : Nat) : Bytes :=
  digits 10 n

def signedDecimal (n : Int) : Bytes :=
  if n < 0 then '-'.toUInt8 :: decimal n.natAbs else decimal n.natAbs

/-- Zeros are put before a text that is shorter than the width. -/
def padZero (width : Nat) (text : Bytes) : Bytes :=
  List.replicate (width - text.length) '0'.toUInt8 ++ text

/-- Two lower-case hexadecimal digits. -/
def hexPair (b : UInt8) : Bytes :=
  padZero 2 (digits 16 b.toNat)

end Bytes

/-- Space and the five controls from tab to carriage return. -/
def isSpace (b : UInt8) : Bool :=
  b == 32 || (9 ≤ b && b ≤ 13)

/-- The visible range of ASCII, space included. -/
def isPrintable (b : UInt8) : Bool :=
  32 ≤ b && b ≤ 126

def isDigit (b : UInt8) : Bool :=
  48 ≤ b && b ≤ 57

theorem Bytes.length_ofChars (cs : List Char) :
    (ofChars cs).length = cs.length := by
  simp [ofChars]

theorem Bytes.length_padZero (width : Nat) (text : Bytes) :
    (padZero width text).length = max width text.length := by
  simp only [padZero, List.length_append, List.length_replicate]
  omega

/-- What holds of each of the 256 bytes holds of all. They are given by their two halves, so that
a decision goes no deeper than sixteen of them. -/
theorem forall_byte {p : UInt8 → Prop}
    (h : ∀ high low : Fin 16, p (UInt8.ofNat (16 * high.val + low.val))) (b : UInt8) : p b := by
  have hlt := b.toNat_lt
  have hb := h ⟨b.toNat / 16, by omega⟩ ⟨b.toNat % 16, by omega⟩
  rwa [Nat.div_add_mod, UInt8.ofNat_toNat] at hb

end PackedRecord
