import PackedRecord.Floating.Layout

/-!
The three floating words and their conversions.

Each word is its bit pattern, so moving one never changes it. A double is
narrowed to half width on its bits, by one of three ways: a number in the
normal range drops bits of its fraction, one below it drops bits of its whole
significand, and one too small or too large needs no rounding. All other
narrowing and widening goes through `FloatLayout.convert`; widening is exact.
Two readings as an integer differ in what they accept: `wholeNumber?` takes only
a value that is an integer, `truncated` takes every value that is a number.
-/

namespace PackedRecord

/-- Whether dropped bits round the kept ones up: more than half a unit does, and
half a unit does if the kept bits are odd. -/
def roundsUp (kept dropped half : UInt64) : Bool :=
  half < dropped || (dropped == half && kept &&& 1 != 0)

/-- A word shifted right by 1 to 63 bits, to the nearest and on a tie to the even word. -/
def shiftRoundEven (word shift : UInt64) : UInt64 :=
  let kept := word >>> shift
  let dropped := word &&& ((1 <<< shift) - 1)
  if roundsUp kept dropped (1 <<< (shift - 1)) then kept + 1 else kept

/-- The half-width pattern without its sign for the fields of a double. A carry
out of the fraction moves into the exponent, and out of the greatest exponent
to infinity. -/
def halfMagnitude (exponent fraction : UInt64) : UInt64 :=
  if exponent = 0x7FF then
    let payload := fraction >>> 42
    if fraction = 0 then 0x7C00 else 0x7E00 ||| payload &&& 0x3FF
  else if exponent = 0 then 0
  else
    let halfExponent : Int := exponent.toNat - 1023 + 15
    if 0x1F ≤ halfExponent then 0x7C00
    else if halfExponent ≤ 0 then
      let shift := (42 + 1 - halfExponent).toNat
      if 63 < shift then 0 else shiftRoundEven (fraction ||| 0x10000000000000) (UInt64.ofNat shift)
    else
      let packed := UInt64.ofNat halfExponent.toNat <<< 10 ||| fraction >>> 42
      let dropped := fraction &&& 0x3FFFFFFFFFF
      if roundsUp packed dropped 0x20000000000 then packed + 1 else packed

structure Binary16 where
  bits : UInt16
  deriving DecidableEq, Repr

structure Binary32 where
  bits : UInt32
  deriving DecidableEq, Repr

structure Binary64 where
  bits : UInt64
  deriving DecidableEq, Repr

namespace Binary64

def datum (x : Binary64) : FloatDatum :=
  FloatLayout.binary64.classify x.bits.toNat

def ofNatBits (n : Nat) : Binary64 :=
  ⟨UInt64.ofNat n⟩

/-- The positive quiet pattern without a further payload. -/
def quietNaN : Binary64 :=
  ofNatBits (FloatLayout.binary64.quiet 0)

/-- The nearest value to an integer, ties to even; zero is positive. -/
def ofInt (n : Int) : Binary64 :=
  let L := FloatLayout.binary64
  ofNatBits (L.withSign (n < 0) (L.nearest (n.natAbs * L.unitsPerOne) 1))

/-- The nearest half-width word, ties to even. What is not a number keeps its
sign and the top of its payload, and becomes quiet. -/
def toBinary16 (x : Binary64) : Binary16 :=
  let sign := x.bits >>> 48 &&& 0x8000
  let exponent := x.bits >>> 52 &&& 0x7FF
  let fraction := x.bits &&& 0xFFFFFFFFFFFFF
  ⟨(sign ||| halfMagnitude exponent fraction).toUInt16⟩

def toBinary32 (x : Binary64) : Binary32 :=
  ⟨UInt32.ofNat (FloatLayout.binary64.convert .binary32 x.bits.toNat)⟩

private def signed (negative : Bool) (n : Nat) : Int :=
  if negative then -(n : Int) else n

/-- The value when it is an integer; minus zero is zero. -/
def wholeNumber? (x : Binary64) : Option Int :=
  match x.datum with
  | .finite negative u =>
      let one := FloatLayout.binary64.unitsPerOne
      if u % one = 0 then some (signed negative (u / one)) else none
  | _ => none

/-- The value cut to `±limit` and then toward zero; what is not a number
counts as zero. -/
def truncated (limit : Nat) (x : Binary64) : Int :=
  match x.datum with
  | .finite negative u =>
      signed negative (min (u / FloatLayout.binary64.unitsPerOne) limit)
  | .infinite negative => signed negative limit
  | .nan _ _ => 0

/-- Neither zero nor not a number. -/
def isNonzero (x : Binary64) : Bool :=
  match x.datum with
  | .finite _ u => u != 0
  | .infinite _ => true
  | .nan _ _ => false

end Binary64

def Binary32.toBinary64 (x : Binary32) : Binary64 :=
  .ofNatBits (FloatLayout.binary32.convert .binary64 x.bits.toNat)

/-- Exact, save that what is not a number keeps its sign alone. -/
def Binary16.toBinary64 (x : Binary16) : Binary64 :=
  match FloatLayout.binary16.classify x.bits.toNat with
  | .nan negative _ =>
      .ofNatBits (FloatLayout.binary64.withSign negative (FloatLayout.binary64.quiet 0))
  | _ => .ofNatBits (FloatLayout.binary16.convert .binary64 x.bits.toNat)

end PackedRecord
