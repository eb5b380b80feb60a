import PackedRecord.Bytes

/-!
UTF-8 text.

A character is written as a lead byte, which tells how many bytes follow, and
those bytes, each of which has six more bits of its number. A text is read from
lead byte to lead byte. It is refused where a lead or a following byte is
missing, and where a number is no character or would fit in fewer bytes.
-/

namespace PackedRecord.Utf8

def encode (cs : List Char) : Bytes :=
  cs.flatMap String.utf8EncodeChar

/-- The bytes of the character of a number, six bits in each but the first. -/
def charBytes (n : Nat) : Bytes :=
  if n < 0x80 then [UInt8.ofNat n]
  else if n < 0x800 then [UInt8.ofNat (0xC0 ||| n >>> 6), UInt8.ofNat (0x80 ||| n &&& 0x3F)]
  else if n < 0x10000 then
    [UInt8.ofNat (0xE0 ||| n >>> 12), UInt8.ofNat (0x80 ||| n >>> 6 &&& 0x3F),
      UInt8.ofNat (0x80 ||| n &&& 0x3F)]
  else
    [UInt8.ofNat (0xF0 ||| n >>> 18), UInt8.ofNat (0x80 ||| n >>> 12 &&& 0x3F),
      UInt8.ofNat (0x80 ||| n >>> 6 &&& 0x3F), UInt8.ofNat (0x80 ||| n &&& 0x3F)]

/-- The characters written one after the other; the same as `encode`. -/
def write (cs : List Char) : Bytes :=
  cs.flatMap fun c => charBytes c.toNat

/-- Why reading stops before the end of a text. -/
inductive Stop where
  /-- The text is not well formed. -/
  | malformed
  /-- A byte was asked for where the text has no more. -/
  | pastEnd
  deriving DecidableEq, Repr

/-- How many bytes follow a lead byte, and the bits that it has of the number. -/
def lead? (b : UInt8) : Option (Nat × Nat) :=
  if b < 0x80 then some (0, b.toNat)
  else if b &&& 0xE0 = 0xC0 then some (1, (b &&& 0x1F).toNat)
  else if b &&& 0xF0 = 0xE0 then some (2, (b &&& 0x0F).toNat)
  else if b &&& 0xF8 = 0xF0 then some (3, (b &&& 0x07).toNat)
  else none

/-- The least number that needs so many following bytes. -/
def least : (following : Nat) → Nat
  | 0 => 0
  | 1 => 0x80
  | 2 => 0x800
  | _ => 0x10000

/-- A number continued by the bits of so many following bytes, and the text behind them. -/
def follow : (count number : Nat) → Bytes → Except Stop (Nat × Bytes)
  | 0, number, text => .ok (number, text)
  | _ + 1, _, [] => .error .pastEnd
  | count + 1, number, b :: rest =>
      if b &&& 0xC0 = 0x80 then follow count (number <<< 6 ||| (b &&& 0x3F).toNat) rest
      else .error .malformed

/-- The character with a lead byte, and the text behind it. That all following
bytes are there is checked before any of them is read. -/
def readChar (b : UInt8) (rest : Bytes) : Except Stop (Char × Bytes) :=
  match lead? b with
  | none => .error .malformed
  | some (following, bits) =>
      if rest.length < following then .error .malformed
      else
        match follow following bits rest with
        | .error stop => .error stop
        | .ok (number, behind) =>
            if number < least following ∨ 0x10FFFF < number ∨ (0xD800 ≤ number ∧ number ≤ 0xDFFF)
            then .error .malformed
            else .ok (Char.ofNat number, behind)

theorem length_of_follow {count number n : Nat} {text behind : Bytes}
    (h : follow count number text = .ok (n, behind)) : text.length = count + behind.length := by
  induction count generalizing number text with
  | zero =>
      obtain ⟨-, rfl⟩ := Prod.mk.inj (Except.ok.inj h)
      exact (Nat.zero_add _).symm
  | succ count ih =>
      cases text with
      | nil => contradiction
      | cons b rest =>
          rw [follow] at h
          split at h
          · rw [List.length_cons, ih h]
            omega
          · contradiction

theorem length_le_of_readChar {b : UInt8} {rest behind : Bytes} {c : Char}
    (h : readChar b rest = .ok (c, behind)) : behind.length ≤ rest.length := by
  unfold readChar at h
  split at h
  · contradiction
  · split at h
    · contradiction
    · split at h
      · contradiction
      next hfollow =>
        split at h
        · contradiction
        · obtain ⟨-, rfl⟩ := Prod.mk.inj (Except.ok.inj h)
          have hlength := length_of_follow hfollow
          omega

/-- The characters of a text. Each one leaves a shorter text. -/
def read : Bytes → Except Stop (List Char)
  | [] => .ok []
  | b :: rest =>
      match h : readChar b rest with
      | .error stop => .error stop
      | .ok (c, behind) =>
          have : behind.length ≤ rest.length := length_le_of_readChar h
          (read behind).map (c :: ·)
  termination_by text => text.length

def decode? (text : Bytes) : Option (List Char) :=
  (read text).toOption

end PackedRecord.Utf8
