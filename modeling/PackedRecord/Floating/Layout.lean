import PackedRecord.Bytes

/-!
Binary floating-point layouts.

A layout has a sign bit, an exponent field and a fraction field. Every finite
magnitude is a natural number of *units*, the unit being the smallest
subnormal, so no exponent arithmetic is needed: patterns without the sign are
ordered as the magnitudes are, and rounding a quotient of units is exact
integer arithmetic. `nearest` rounds to the nearest magnitude and takes the
even pattern on a tie. Rounding up out of the largest subnormal or out of a
binade carries into the exponent field by itself, and a pattern at or beyond
the all-ones exponent becomes infinity.
-/

namespace PackedRecord

structure FloatLayout where
  exponentBits : Nat
  fractionBits : Nat
  deriving DecidableEq, Repr

/-- What a pattern stands for. A finite magnitude is counted in units, and a
payload is the fraction field of a pattern that is not a number. -/
inductive FloatDatum where
  | finite (negative : Bool) (units : Nat)
  | infinite (negative : Bool)
  | nan (negative : Bool) (payload : Nat)
  deriving DecidableEq, Repr

/-- Quotient to the nearest integer, a half to the even neighbour. -/
def roundQuotient (n d : Nat) : Nat :=
  if d < 2 * (n % d) ∨ (2 * (n % d) = d ∧ (n / d) % 2 = 1) then n / d + 1 else n / d

namespace FloatLayout

def binary16 : FloatLayout := ⟨5, 10⟩
def binary32 : FloatLayout := ⟨8, 23⟩
def binary64 : FloatLayout := ⟨11, 52⟩

def signBit (L : FloatLayout) : Nat :=
  Nat.pow 2 (L.exponentBits + L.fractionBits)

/-- The pattern of positive infinity: every exponent bit set, no fraction. -/
def infinity (L : FloatLayout) : Nat :=
  (Nat.pow 2 L.exponentBits - 1) * Nat.pow 2 L.fractionBits

/-- The top bit of the fraction marks a quiet pattern. -/
def quietBit (L : FloatLayout) : Nat :=
  Nat.pow 2 (L.fractionBits - 1)

/-- The number one is this many units. -/
def unitsPerOne (L : FloatLayout) : Nat :=
  Nat.pow 2 (Nat.pow 2 (L.exponentBits - 1) - 2 + L.fractionBits)

/-- The magnitude of a finite pattern without its sign. -/
def units (L : FloatLayout) (pattern : Nat) : Nat :=
  let fraction := pattern % Nat.pow 2 L.fractionBits
  match pattern / Nat.pow 2 L.fractionBits with
  | 0 => fraction
  | e + 1 => (Nat.pow 2 L.fractionBits + fraction) * Nat.pow 2 e

/-- The pattern nearest to `n / d` units. -/
def nearest (L : FloatLayout) (n d : Nat) : Nat :=
  let shift := (n / d).log2 - L.fractionBits
  min (shift * Nat.pow 2 L.fractionBits + roundQuotient n (d * Nat.pow 2 shift)) L.infinity

def withSign (L : FloatLayout) (negative : Bool) (pattern : Nat) : Nat :=
  if negative then L.signBit + pattern else pattern

def classify (L : FloatLayout) (bits : Nat) : FloatDatum :=
  let negative := (bits / L.signBit) % 2 == 1
  let pattern := bits % L.signBit
  if pattern < L.infinity then .finite negative (L.units pattern)
  else if pattern = L.infinity then .infinite negative
  else .nan negative (pattern - L.infinity)

/-- The quiet pattern that is not a number, with a payload. -/
def quiet (L : FloatLayout) (payload : Nat) : Nat :=
  L.infinity + (L.quietBit ||| payload)

/-- The pattern of the target layout nearest to a pattern of the source. A
pattern that is not a number keeps its sign and the top of its payload, and
becomes quiet. -/
def convert (source target : FloatLayout) (bits : Nat) : Nat :=
  match source.classify bits with
  | .finite negative u =>
      target.withSign negative (target.nearest (u * target.unitsPerOne) source.unitsPerOne)
  | .infinite negative => target.withSign negative target.infinity
  | .nan negative payload =>
      target.withSign negative
        (target.quiet
          (payload * Nat.pow 2 target.fractionBits / Nat.pow 2 source.fractionBits))

end FloatLayout

end PackedRecord
