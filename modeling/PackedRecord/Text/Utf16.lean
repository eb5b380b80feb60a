import PackedRecord.ByteOrder
import PackedRecord.Text.Utf8

/-!
UTF-16 units.

A character is one unit, or a high and a low surrogate. Reading pairs each
high surrogate with a low one that follows it at once; a surrogate without its
partner is read as the replacement character.
-/

namespace PackedRecord.Utf16

/-- Stands for what is no character. -/
def replacement : Char := '\uFFFD'

def isHigh (unit : Nat) : Bool :=
  0xD800 ≤ unit && unit ≤ 0xDBFF

def isLow (unit : Nat) : Bool :=
  0xDC00 ≤ unit && unit ≤ 0xDFFF

def unitsOfChar (c : Char) : List Nat :=
  if c.toNat < 0x10000 then [c.toNat]
  else
    let v := c.toNat - 0x10000
    [0xD800 + v / 0x400, 0xDC00 + v % 0x400]

def ofChars (cs : List Char) : List Nat :=
  cs.flatMap unitsOfChar

def joined (high low : Nat) : Char :=
  Char.ofNat (0x10000 + (high - 0xD800) * 0x400 + (low - 0xDC00))

/-- The character of a unit outside a pair. -/
def single (unit : Nat) : Char :=
  if isHigh unit || isLow unit then replacement else Char.ofNat unit

def toChars : List Nat → List Char
  | [] => []
  | [unit] => [single unit]
  | unit :: next :: rest =>
      if isHigh unit && isLow next then joined unit next :: toChars rest
      else single unit :: toChars (next :: rest)

/-- Two bytes for each unit, the low one first. -/
def littleEndian (units : List Nat) : Bytes :=
  units.flatMap (ByteOrder.little.encode 2)

/-- The units of a run of bytes; a last odd byte is dropped. -/
def unitsOfBytes : Bytes → List Nat
  | low :: high :: rest => ByteOrder.little.decode [low, high] :: unitsOfBytes rest
  | _ => []

end PackedRecord.Utf16
