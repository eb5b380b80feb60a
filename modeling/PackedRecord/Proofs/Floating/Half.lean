import Mathlib.Data.Nat.Bitwise
import PackedRecord.Proofs.Floating.Convert
import PackedRecord.Proofs.Floating.Nearest

/-!
Narrowing a double to half width, on its bits.

The bits that a shift drops are a remainder, and comparing them with half a unit
is how a quotient is rounded. So each way of narrowing gives the pattern nearest
to the magnitude: a number below the normal range is its significand over a
power of two, one within it has its exponent as the shift, and what is too small
or too large needs no rounding. Together with the sign this is the conversion of
the layouts.
-/

namespace PackedRecord

section Rounding

theorem roundsUp_iff (kept dropped half : UInt64) :
    roundsUp kept dropped half = true ↔
      half.toNat < dropped.toNat ∨ (dropped.toNat = half.toNat ∧ kept.toNat % 2 = 1) := by
  have hodd : (kept &&& 1 != 0) = true ↔ kept.toNat % 2 = 1 := by
    rw [bne_iff_ne, ne_eq, ← UInt64.toNat_inj, UInt64.toNat_and, UInt64.toNat_one,
      Nat.and_one_is_mod, UInt64.toNat_zero]
    omega
  simp only [roundsUp, Bool.or_eq_true, Bool.and_eq_true, decide_eq_true_eq, beq_iff_eq, hodd,
    UInt64.lt_iff_toNat_lt, ← UInt64.toNat_inj]

/-- A kept word below half the range is rounded up without a wrap. -/
theorem toNat_rounded {kept : UInt64} (hkept : kept.toNat < 2 ^ 63) (dropped half : UInt64) :
    (if roundsUp kept dropped half then kept + 1 else kept).toNat =
      if half.toNat < dropped.toNat ∨ (dropped.toNat = half.toNat ∧ kept.toNat % 2 = 1) then
        kept.toNat + 1
      else kept.toNat := by
  have hnext : (kept + 1).toNat = kept.toNat + 1 := by
    rw [UInt64.toNat_add, UInt64.toNat_one, Nat.mod_eq_of_lt (by omega)]
  simp only [roundsUp_iff, apply_ite UInt64.toNat, hnext]

/-- Rounding a quotient by a power of two looks at the bits that are dropped. -/
theorem roundQuotient_two_pow (n : ℕ) {k : ℕ} (hk : 0 < k) :
    roundQuotient n (2 ^ k) =
      if 2 ^ (k - 1) < n % 2 ^ k ∨ (n % 2 ^ k = 2 ^ (k - 1) ∧ n / 2 ^ k % 2 = 1) then n / 2 ^ k + 1
      else n / 2 ^ k := by
  obtain ⟨j, rfl⟩ := Nat.exists_eq_add_of_lt hk
  have hpow := Nat.pow_succ 2 j
  rw [Nat.zero_add, Nat.add_sub_cancel, roundQuotient]
  congr 1
  apply propext
  omega

theorem toNat_shiftRoundEven (word : UInt64) {shift : UInt64} (hpos : 0 < shift.toNat)
    (hlt : shift.toNat < 64) :
    (shiftRoundEven word shift).toNat = roundQuotient word.toNat (2 ^ shift.toNat) := by
  have hword := word.toNat_lt
  have hone : (1 : UInt64).toNat = 1 := UInt64.toNat_one
  have hpow (s : UInt64) (hs : s.toNat < 64) : ((1 : UInt64) <<< s).toNat = 2 ^ s.toNat := by
    rw [UInt64.toNat_shiftLeft, hone, Nat.mod_eq_of_lt hs, Nat.shiftLeft_eq, Nat.one_mul,
      Nat.mod_eq_of_lt (Nat.pow_lt_pow_right (by decide) hs)]
  have hhalf : (shift - 1).toNat = shift.toNat - 1 := by
    rw [UInt64.toNat_sub_of_le _ _ (UInt64.le_iff_toNat_le.mpr (hone ▸ hpos)), hone]
  have hmask : ((1 : UInt64) <<< shift - 1).toNat = 2 ^ shift.toNat - 1 := by
    have hle : (1 : UInt64) ≤ 1 <<< shift := by
      rw [UInt64.le_iff_toNat_le, hpow shift hlt, hone]
      exact Nat.one_le_two_pow
    rw [UInt64.toNat_sub_of_le _ _ hle, hpow shift hlt, hone]
  have hkept : (word >>> shift).toNat = word.toNat / 2 ^ shift.toNat := by
    rw [UInt64.toNat_shiftRight, Nat.mod_eq_of_lt hlt, Nat.shiftRight_eq_div_pow]
  have hle : word.toNat / 2 ^ shift.toNat ≤ word.toNat / 2 ^ 1 :=
    Nat.div_le_div_left (Nat.pow_le_pow_right (by decide) hpos) (by decide)
  rw [shiftRoundEven, toNat_rounded (by omega), UInt64.toNat_and, hmask, hkept,
    hpow (shift - 1) (by omega), hhalf, Nat.and_two_pow_sub_one_eq_mod,
    roundQuotient_two_pow _ hpos]

end Rounding

namespace FloatLayout

section Magnitude

variable {m : ℕ} (hlt : m < 2 ^ 53)
include hlt

/-- Below the normal range the whole significand is rounded at one place. -/
theorem nearest_below {k : ℕ} (hk : 43 ≤ k) :
    binary16.nearest m (2 ^ k) = roundQuotient m (2 ^ k) := by
  have hpow : 2 ^ 43 ≤ 2 ^ k := Nat.pow_le_pow_right (by decide) hk
  have hquot : m / 2 ^ k < 2 ^ 10 := by
    rw [Nat.div_lt_iff_lt_mul (Nat.two_pow_pos k)]
    omega
  have hshift : (m / 2 ^ k).log2 - binary16.fractionBits = 0 := by
    by_cases hzero : m / 2 ^ k = 0
    · rw [hzero, Nat.log2_zero, Nat.zero_sub]
    · exact Nat.sub_eq_zero_of_le (Nat.le_of_lt ((Nat.log2_lt hzero).mpr hquot))
  have hround : roundQuotient m (2 ^ k) ≤ 2 ^ 10 := by
    rw [roundQuotient]
    split <;> omega
  rw [nearest_eq, hshift, Nat.zero_mul, Nat.zero_add, Nat.pow_zero, Nat.mul_one]
  exact Nat.min_eq_left (Nat.le_trans hround (by decide))

/-- A significand of less than half a unit is rounded to zero. -/
theorem nearest_vanishing {k : ℕ} (hk : 54 ≤ k) : binary16.nearest m (2 ^ k) = 0 := by
  have hpow : 2 ^ 54 ≤ 2 ^ k := Nat.pow_le_pow_right (by decide) hk
  have hsmall : m < 2 ^ k := by omega
  rw [nearest_below hlt (by omega), roundQuotient, Nat.mod_eq_of_lt hsmall,
    Nat.div_eq_of_lt hsmall, if_neg (by omega)]

/-- In the normal range the fraction is rounded, and the exponent is above it. -/
theorem nearest_within (hleading : 2 ^ 52 ≤ m) {k : ℕ} (hk : k < 30) :
    binary16.nearest m (2 ^ (42 - k)) = k * 2 ^ 10 + roundQuotient m (2 ^ 42) := by
  have hpos := Nat.two_pow_pos (42 - k)
  have hlow : 2 ^ (10 + k) ≤ m / 2 ^ (42 - k) := by
    rw [Nat.le_div_iff_mul_le hpos, ← Nat.pow_add]
    exact Nat.le_trans (Nat.le_of_eq (congrArg _ (by omega))) hleading
  have hhigh : m / 2 ^ (42 - k) < 2 ^ (10 + k + 1) := by
    rw [Nat.div_lt_iff_lt_mul hpos, ← Nat.pow_add]
    exact Nat.lt_of_lt_of_eq hlt (congrArg _ (by omega))
  have hquot : (m / 2 ^ (42 - k)).log2 = 10 + k :=
    (Nat.log2_eq_iff (Nat.ne_of_gt (Nat.lt_of_lt_of_le (Nat.two_pow_pos _) hlow))).mpr
      ⟨hlow, hhigh⟩
  have hround : roundQuotient m (2 ^ 42) ≤ 2 ^ 11 := by
    rw [roundQuotient]
    split <;> omega
  have hsub : 10 + k - binary16.fractionBits = k := Nat.add_sub_cancel_left 10 k
  rw [nearest_eq, hquot, hsub, ← Nat.pow_add, Nat.sub_add_cancel (by omega)]
  refine Nat.min_eq_left ?_
  rw [show binary16.infinity = 29 * 2 ^ 10 + 2 ^ 11 by decide]
  exact Nat.add_le_add (Nat.mul_le_mul_right _ (by omega)) hround

end Magnitude

/-- A double in units of half width. -/
theorem nearest_units_binary64 (m : ℕ) {j : ℕ} (hj : j ≤ 1050) :
    binary16.nearest (m * 2 ^ j * binary16.unitsPerOne) binary64.unitsPerOne =
      binary16.nearest m (2 ^ (1050 - j)) := by
  have hwide : binary64.unitExponent = 1050 - j + (j + 24) := by
    rw [show binary64.unitExponent = 1050 + 24 from rfl]
    omega
  have hscale : 2 ^ j * binary16.unitsPerOne = 2 ^ (j + 24) := (Nat.pow_add 2 j 24).symm
  rw [Nat.mul_assoc, hscale, unitsPerOne_eq, hwide, Nat.pow_add 2 (1050 - j),
    nearest_mul _ _ _ (Nat.two_pow_pos _)]

/-- A double from 65536 on is beyond the half-width range. -/
theorem nearest_beyond {m j : ℕ} (hleading : 2 ^ 52 ≤ m) (hj : 1038 ≤ j) :
    binary16.nearest (m * 2 ^ j * binary16.unitsPerOne) binary64.unitsPerOne =
      binary16.infinity := by
  rw [nearest_eq_infinity_iff (by decide) _ binary64.unitsPerOne_pos (by decide),
    unitsPerOne_eq binary64, show binary16.unitsPerOne = 2 ^ 24 from rfl]
  have htop :
      binary16.units (binary16.infinity - 1) + binary16.units binary16.infinity ≤ 2 ^ 41 := by
    decide
  have hwide : 41 + binary64.unitExponent ≤ 52 + (j + 24 + 1) := by
    rw [show binary64.unitExponent = 1050 + 24 from rfl]
    omega
  generalize binary64.unitExponent = u at hwide ⊢
  calc _ ≤ 2 ^ 41 * 2 ^ u := Nat.mul_le_mul_right _ htop
    _ = 2 ^ (41 + u) := (Nat.pow_add 2 41 u).symm
    _ ≤ 2 ^ (52 + (j + 24 + 1)) := Nat.pow_le_pow_right (by decide) hwide
    _ = 2 ^ 52 * (2 ^ j * 2 ^ 24 * 2) := by
        rw [Nat.pow_add 2 52, Nat.pow_add 2 (j + 24), Nat.pow_add 2 j, Nat.pow_one]
    _ ≤ m * (2 ^ j * 2 ^ 24 * 2) := Nat.mul_le_mul_right _ hleading
    _ = 2 * (m * 2 ^ j * 2 ^ 24) := by rw [← Nat.mul_assoc, Nat.mul_comm _ 2, Nat.mul_assoc m]

/-- The units of a double with an exponent are its significand, shifted. -/
theorem units_binary64_succ (e : ℕ) {f : ℕ} (hf : f < 2 ^ 52) :
    binary64.units ((e + 1) * 2 ^ 52 + f) = (2 ^ 52 + f) * 2 ^ e := by
  have hbits : binary64.fractionBits = 52 := rfl
  have hnormal : binary64.Normal e (2 ^ 52 + f) :=
    ⟨by rw [hbits]; omega, .inl (Nat.le_add_right _ _)⟩
  rw [← hnormal.units, Nat.succ_mul, Nat.add_assoc]
  rfl

end FloatLayout

section HalfMagnitude

open FloatLayout

variable {exponent fraction : UInt64} (hfraction : fraction.toNat < 2 ^ 52)
include hfraction

/-- The leading bit of a significand stands above its fraction. -/
theorem toNat_leading_or : (fraction ||| 0x10000000000000).toNat = 2 ^ 52 + fraction.toNat := by
  rw [UInt64.toNat_or, Nat.or_comm]
  exact (Nat.two_pow_add_eq_or_of_lt hfraction 1).symm

omit hfraction in
theorem toNat_top : (fraction >>> 42).toNat = fraction.toNat / 2 ^ 42 := by
  rw [UInt64.toNat_shiftRight, Nat.shiftRight_eq_div_pow]
  rfl

/-- The exponent and the top of the fraction, side by side. -/
theorem toNat_packed {e : ℕ} (he : e < 32) :
    (UInt64.ofNat e <<< 10 ||| fraction >>> 42).toNat = e * 2 ^ 10 + fraction.toNat / 2 ^ 42 := by
  have hexp : (UInt64.ofNat e <<< 10).toNat = e * 2 ^ 10 := by
    rw [UInt64.toNat_shiftLeft, UInt64.toNat_ofNat_of_lt' (Nat.lt_trans he (by decide)),
      Nat.shiftLeft_eq]
    exact Nat.mod_eq_of_lt (show e * 2 ^ 10 < 2 ^ 64 by omega)
  rw [UInt64.toNat_or, toNat_top, hexp, Nat.mul_comm e]
  exact (Nat.two_pow_add_eq_or_of_lt (by omega) e).symm

/-- A fraction rounded to ten bits, under its exponent. -/
theorem toNat_within {k : ℕ} (hk : k < 30) :
    (if roundsUp (UInt64.ofNat (k + 1) <<< 10 ||| fraction >>> 42) (fraction &&& 0x3FFFFFFFFFF)
        0x20000000000 then (UInt64.ofNat (k + 1) <<< 10 ||| fraction >>> 42) + 1
      else UInt64.ofNat (k + 1) <<< 10 ||| fraction >>> 42).toNat =
      binary16.nearest (2 ^ 52 + fraction.toNat) (2 ^ (42 - k)) := by
  have hpacked := toNat_packed hfraction (show k + 1 < 32 by omega)
  have hdropped : (fraction &&& 0x3FFFFFFFFFF).toNat = fraction.toNat % 2 ^ 42 := by
    rw [UInt64.toNat_and]
    exact Nat.and_two_pow_sub_one_eq_mod _ 42
  have hhalf : (0x20000000000 : UInt64).toNat = 2 ^ (42 - 1) := rfl
  have hquot : (2 ^ 52 + fraction.toNat) / 2 ^ 42 = 2 ^ 10 + fraction.toNat / 2 ^ 42 := by omega
  have hmod : (2 ^ 52 + fraction.toNat) % 2 ^ 42 = fraction.toNat % 2 ^ 42 := by omega
  have hodd : ((k + 1) * 2 ^ 10 + fraction.toNat / 2 ^ 42) % 2 =
      (2 ^ 10 + fraction.toNat / 2 ^ 42) % 2 := by omega
  rw [nearest_within (by omega) (Nat.le_add_right _ _) hk, roundQuotient_two_pow _ (by decide),
    toNat_rounded (by omega), hpacked, hdropped, hhalf, hquot, hmod, hodd]
  split <;> omega

/-- A significand rounded at the place of the smallest number. -/
theorem toNat_below {j : ℕ} (hj : j ≤ 1007) :
    (if 63 < 1050 - j then 0
      else shiftRoundEven (fraction ||| 0x10000000000000) (UInt64.ofNat (1050 - j))).toNat =
      binary16.nearest (2 ^ 52 + fraction.toNat) (2 ^ (1050 - j)) := by
  have hlt : 2 ^ 52 + fraction.toNat < 2 ^ 53 := by omega
  split
  · rw [nearest_vanishing hlt (by omega)]
    rfl
  · have hshift : (UInt64.ofNat (1050 - j)).toNat = 1050 - j :=
      UInt64.toNat_ofNat_of_lt' (show 1050 - j < 2 ^ 64 by omega)
    rw [toNat_shiftRoundEven _ (by omega) (by omega), hshift, toNat_leading_or hfraction,
      nearest_below hlt (by omega)]

theorem toNat_halfMagnitude_finite (hexponent : exponent.toNat < 0x7FF) :
    (halfMagnitude exponent fraction).toNat =
      binary16.nearest
        (binary64.units (exponent.toNat * 2 ^ 52 + fraction.toNat) * binary16.unitsPerOne)
        binary64.unitsPerOne := by
  have hne : exponent ≠ 0x7FF := by
    rintro rfl
    exact absurd hexponent (by decide)
  have hzero : exponent = 0 ↔ exponent.toNat = 0 := UInt64.toNat_inj.symm
  simp only [halfMagnitude, if_neg hne, hzero]
  -- A double without an exponent is far below the smallest half-width number.
  cases he : exponent.toNat with
  | zero =>
      have hnormal : binary64.Normal 0 fraction.toNat :=
        ⟨Nat.lt_trans hfraction (by decide), .inr rfl⟩
      have hunits := hnormal.units
      rw [Nat.zero_mul] at hunits
      rw [if_pos rfl, Nat.zero_mul, hunits, nearest_units_binary64 _ (by decide),
        nearest_vanishing (by omega) (by decide)]
      rfl
  | succ j =>
      rw [if_neg (by omega), units_binary64_succ j hfraction]
      by_cases hbeyond : 1038 ≤ j
      · rw [if_pos (by omega), nearest_beyond (Nat.le_add_right _ _) hbeyond]
        rfl
      rw [if_neg (by omega), nearest_units_binary64 _ (by omega)]
      by_cases hbelow : j ≤ 1007
      · have hshift : (42 + 1 - (((j + 1 : ℕ) : ℤ) - 1023 + 15)).toNat = 1050 - j := by omega
        rw [if_pos (by omega), hshift, toNat_below hfraction hbelow]
      · obtain ⟨k, rfl⟩ := Nat.exists_eq_add_of_le (show 1008 ≤ j by omega)
        have hexp : (((1008 + k + 1 : ℕ) : ℤ) - 1023 + 15).toNat = k + 1 := by omega
        rw [if_neg (by omega), hexp, toNat_within hfraction (by omega),
          show 1050 - (1008 + k) = 42 - k by omega]

theorem toNat_halfMagnitude_nan (hpayload : 0 < fraction.toNat) :
    (halfMagnitude 0x7FF fraction).toNat =
      binary16.quiet
        (fraction.toNat * 2 ^ binary16.fractionBits / 2 ^ binary64.fractionBits) := by
  have hne : fraction ≠ 0 := by
    rintro rfl
    exact absurd hpayload (by decide)
  have htop : (fraction >>> 42 &&& 0x3FF).toNat = fraction.toNat / 2 ^ 42 := by
    rw [UInt64.toNat_and, toNat_top]
    exact (Nat.and_two_pow_sub_one_eq_mod _ 10).trans (Nat.mod_eq_of_lt (by omega))
  have hpayload' : binary16.quietBit ||| fraction.toNat / 2 ^ 42 < 2 ^ 10 :=
    (quiet_payload (L := .binary16) (by decide)
      (show fraction.toNat / 2 ^ 42 < 2 ^ 10 by omega)).2
  have hquot : fraction.toNat * 2 ^ 10 / 2 ^ 52 = fraction.toNat / 2 ^ 42 := by omega
  have hword : (halfMagnitude 0x7FF fraction).toNat =
      0x7E00 ||| fraction.toNat / 2 ^ 42 := by
    simp only [halfMagnitude, if_true, if_neg hne, UInt64.toNat_or, htop]
    rfl
  have hquiet :
      binary16.quiet (fraction.toNat / 2 ^ 42) = 0x7E00 ||| fraction.toNat / 2 ^ 42 := by
    rw [quiet, show binary16.infinity = 2 ^ 10 * 31 by decide,
      Nat.two_pow_add_eq_or_of_lt hpayload', ← Nat.or_assoc]
    rfl
  rw [hword, ← hquiet, ← hquot]
  rfl

end HalfMagnitude

namespace Binary64

theorem toNat_exponent (bits : UInt64) :
    (bits >>> 52 &&& 0x7FF).toNat = bits.toNat / 2 ^ 52 % 2 ^ 11 := by
  rw [UInt64.toNat_and, UInt64.toNat_shiftRight, Nat.shiftRight_eq_div_pow]
  exact Nat.and_two_pow_sub_one_eq_mod _ 11

theorem toNat_fraction (bits : UInt64) :
    (bits &&& 0xFFFFFFFFFFFFF).toNat = bits.toNat % 2 ^ 52 := by
  rw [UInt64.toNat_and]
  exact Nat.and_two_pow_sub_one_eq_mod _ 52

theorem toNat_sign (bits : UInt64) :
    (bits >>> 48 &&& 0x8000).toNat = 2 ^ 15 * (bits.toNat / 2 ^ 63) := by
  have hlt := bits.toNat_lt
  have htop : (bits >>> 48).toNat = bits.toNat / 2 ^ 48 := by
    rw [UInt64.toNat_shiftRight, Nat.shiftRight_eq_div_pow]
    rfl
  have hone : bits.toNat / 2 ^ 48 / 2 ^ 15 = bits.toNat / 2 ^ 63 := Nat.div_div_eq_div_mul _ _ _
  have hbit : bits.toNat / 2 ^ 63 < 2 := by omega
  rw [UInt64.toNat_and, htop]
  refine (Nat.and_two_pow _ 15).trans ?_
  rw [Nat.testBit_eq_decide_div_mod_eq, hone, Nat.mul_comm]
  congr 1
  generalize bits.toNat / 2 ^ 63 = b at hbit
  rcases (show b = 0 ∨ b = 1 by omega) with rfl | rfl <;> rfl

/-- The sign of a half-width word stands above its magnitude. -/
theorem toNat_toBinary16_add (x : Binary64) {magnitude : ℕ}
    (h : (halfMagnitude (x.bits >>> 52 &&& 0x7FF) (x.bits &&& 0xFFFFFFFFFFFFF)).toNat = magnitude)
    (hlt : magnitude < 2 ^ 15) :
    x.toBinary16.bits.toNat = 2 ^ 15 * (x.bits.toNat / 2 ^ 63) + magnitude := by
  have hbits := x.bits.toNat_lt
  simp only [toBinary16]
  rw [UInt64.toNat_toUInt16, UInt64.toNat_or, toNat_sign, h, ← Nat.two_pow_add_eq_or_of_lt hlt]
  exact Nat.mod_eq_of_lt (by omega)

/-- The pattern of a double without its sign, by its fields. -/
theorem fields_of_withSign {bits : UInt64} {negative : Bool} {pattern : ℕ}
    (hpattern : pattern < 2 ^ 63)
    (hbits : bits.toNat = FloatLayout.binary64.withSign negative pattern) :
    (bits >>> 52 &&& 0x7FF).toNat = pattern / 2 ^ 52 ∧
      (bits &&& 0xFFFFFFFFFFFFF).toNat = pattern % 2 ^ 52 ∧
      bits.toNat / 2 ^ 63 = if negative then 1 else 0 := by
  rw [toNat_exponent, toNat_fraction]
  cases negative with
  | false =>
      have hword : bits.toNat = pattern := hbits
      rw [if_neg (by decide)]
      refine ⟨?_, ?_, ?_⟩ <;> omega
  | true =>
      have hword : bits.toNat = 2 ^ 63 + pattern := hbits
      rw [if_pos rfl]
      refine ⟨?_, ?_, ?_⟩ <;> omega

theorem withSign_binary16 (negative : Bool) (magnitude : ℕ) :
    FloatLayout.binary16.withSign negative magnitude =
      2 ^ 15 * (if negative then 1 else 0) + magnitude := by
  cases negative with
  | false => exact (Nat.zero_add magnitude).symm
  | true => rfl

theorem toNat_toBinary16 (x : Binary64) :
    x.toBinary16.bits.toNat = FloatLayout.binary64.convert .binary16 x.bits.toNat := by
  have hword : x.bits.toNat < 2 * FloatLayout.binary64.signBit := x.bits.toNat_lt
  have hinfinity : FloatLayout.binary64.infinity = 2047 * 2 ^ 52 := by decide
  obtain ⟨negative, hcases⟩ := FloatLayout.binary64.word_cases hword
  rcases hcases with ⟨pattern, hfinite, hbits⟩ | hbits | ⟨payload, hpos, hlt, hbits⟩
  · obtain ⟨hexponent, hfraction, hneg⟩ := fields_of_withSign (by omega) hbits
    have hmagnitude := toNat_halfMagnitude_finite (hfraction ▸ Nat.mod_lt _ (Nat.two_pow_pos 52))
      (show (x.bits >>> 52 &&& 0x7FF).toNat < 0x7FF by omega)
    rw [hexponent, hfraction, Nat.div_add_mod'] at hmagnitude
    rw [toNat_toBinary16_add x hmagnitude, hneg, ← withSign_binary16, hbits]
    · simp only [FloatLayout.convert, FloatLayout.binary64.classify_finite negative hfinite]
    · exact Nat.lt_of_le_of_lt (Nat.min_le_right _ _) (by decide)
  · obtain ⟨hexponent, hfraction, hneg⟩ := fields_of_withSign (by omega) hbits
    rw [hinfinity, Nat.mul_div_cancel _ (by decide)] at hexponent
    rw [hinfinity, Nat.mul_mod_left] at hfraction
    have hexp : x.bits >>> 52 &&& 0x7FF = 0x7FF := UInt64.toNat_inj.mp hexponent
    have hfrac : x.bits &&& 0xFFFFFFFFFFFFF = 0 := UInt64.toNat_inj.mp hfraction
    have hmagnitude : (halfMagnitude (x.bits >>> 52 &&& 0x7FF)
        (x.bits &&& 0xFFFFFFFFFFFFF)).toNat = FloatLayout.binary16.infinity := by
      rw [hexp, hfrac]
      rfl
    rw [toNat_toBinary16_add x hmagnitude (by decide), hneg, ← withSign_binary16, hbits]
    simp only [FloatLayout.convert, FloatLayout.classify_infinity]
  · have hlt' : payload < 2 ^ 52 := hlt
    obtain ⟨hexponent, hfraction, hneg⟩ := fields_of_withSign (by omega) hbits
    rw [show (FloatLayout.binary64.infinity + payload) / 2 ^ 52 = 2047 by omega] at hexponent
    rw [show (FloatLayout.binary64.infinity + payload) % 2 ^ 52 = payload by omega] at hfraction
    have hexp : x.bits >>> 52 &&& 0x7FF = 0x7FF := UInt64.toNat_inj.mp hexponent
    have hmagnitude := toNat_halfMagnitude_nan (hfraction ▸ hlt') (hfraction ▸ hpos)
    rw [← hexp, hfraction] at hmagnitude
    rw [toNat_toBinary16_add x hmagnitude, hneg, ← withSign_binary16, hbits]
    · rw [FloatLayout.convert_of_nan (FloatLayout.binary64.classify_nan negative hpos hlt)]
    · exact FloatLayout.quiet_lt_signBit (L := .binary16) (by decide)
        (FloatLayout.payload_scaled_lt hlt .binary16)

end Binary64

end PackedRecord
