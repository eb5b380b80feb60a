import PackedRecord.Floating.Words

/-!
Decimal text with a fixed number of significant digits.

A positive quotient is rounded to the nearest decimal of the given precision,
ties to even, by exact integer arithmetic. The general notation is positional
while the decimal exponent is at least -4 and below the precision, and
scientific with at least two exponent digits otherwise; zeros at the end of
the fraction are dropped in both.
-/

namespace PackedRecord

/-- The number `digits * 10 ^ (exponent + 1 - precision)`, where `digits` has
exactly `precision` decimal digits. -/
structure Significant where
  digits : Nat
  exponent : Int
  deriving DecidableEq, Repr

namespace Significant

def digitCount (n : Nat) : Nat :=
  (Nat.toDigits 10 n).length

/-- The exponent of the greatest power of ten that is at most `n / d`. -/
def leadingExponent (n d : Nat) : Int :=
  if d ≤ n then digitCount (n / d) - 1
  else
    -- the least k with d ≤ n * 10 ^ k, found from the rounded-up quotient
    -(digitCount ((d + n - 1) / n - 1) : Int)

/-- The nearest decimal of a given precision to the positive quotient `n / d`. -/
def ofQuotient (precision n d : Nat) : Significant :=
  let x := leadingExponent n d
  let scale : Int := precision - 1 - x
  let rounded :=
    if 0 ≤ scale then roundQuotient (n * Nat.pow 10 scale.toNat) d
    else roundQuotient n (d * Nat.pow 10 (-scale).toNat)
  if rounded = Nat.pow 10 precision then ⟨Nat.pow 10 (precision - 1), x + 1⟩
  else ⟨rounded, x⟩

/-- A point and the fraction without its last zeros, or nothing. -/
def fractionText (digits : Bytes) : Bytes :=
  match (digits.reverse.dropWhile (· == '0'.toUInt8)).reverse with
  | [] => []
  | kept => '.'.toUInt8 :: kept

def exponentText (x : Int) : Bytes :=
  'e'.toUInt8 :: (if x < 0 then '-' else '+').toUInt8 ::
    Bytes.padZero 2 (Bytes.decimal x.natAbs)

/-- General notation with `precision` significant digits. -/
def general (precision : Nat) (s : Significant) : Bytes :=
  let digits := Bytes.decimal s.digits
  if s.exponent < -4 ∨ (precision : Int) ≤ s.exponent then
    digits.take 1 ++ fractionText (digits.drop 1) ++ exponentText s.exponent
  else if s.exponent < 0 then
    '0'.toUInt8 ::
      fractionText (List.replicate (s.exponent.natAbs - 1) '0'.toUInt8 ++ digits)
  else
    digits.take (s.exponent.toNat + 1) ++ fractionText (digits.drop (s.exponent.toNat + 1))

end Significant

/-- Seventeen significant digits tell any two finite values apart. -/
def Binary64.text (x : Binary64) : Bytes :=
  let signText (negative : Bool) : Bytes := if negative then ['-'.toUInt8] else []
  match x.datum with
  | .finite negative 0 => signText negative ++ Bytes.ofString "0"
  | .finite negative u =>
      signText negative ++
        Significant.general 17
          (Significant.ofQuotient 17 u FloatLayout.binary64.unitsPerOne)
  | .infinite negative => signText negative ++ Bytes.ofString "inf"
  | .nan negative _ => signText negative ++ Bytes.ofString "nan"

end PackedRecord
