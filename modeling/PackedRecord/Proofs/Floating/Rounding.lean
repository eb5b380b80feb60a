import PackedRecord.Proofs.Floating.Half
import PackedRecord.Proofs.Floating.Number

/-!
Half width as rounding.

Among the numbers of half width the one that a double is narrowed to is nearest,
and it is even if another one is as near. From 65520 on, the middle between the
greatest of them and the power of two behind it, a double becomes infinity. The
sign is kept in any case, and what is not a number stays so.
-/

namespace PackedRecord

section Reflected

variable {q a b : ℚ} (hq : 0 ≤ q)
include hq

theorem abs_sub_abs_le_of_nonneg : |q - (|b|)| ≤ |q - b| := by
  have hreverse := abs_abs_sub_abs_le q b
  rwa [abs_of_nonneg hq] at hreverse

/-- Where a number is as near as zero, its negative is as near only if it is the same. -/
theorem eq_of_abs_eq (ha : 0 ≤ a) (hzero : |q - a| ≤ q) (hb : |b| = a)
    (hsame : |q - b| = |q - a|) : b = a := by
  rcases abs_choice b with habs | habs
  · exact habs.symm.trans hb
  · have hnegative : b = -a := by linarith
    rw [hnegative, sub_neg_eq_add, abs_of_nonneg (by linarith)] at hsame
    linarith

end Reflected

theorem abs_mul_sub {one : ℚ} (hone : 0 < one) (q k : ℚ) :
    |q * one - k| = |q - k / one| * one := by
  rw [← abs_of_pos hone, ← abs_mul, sub_mul, abs_of_pos hone, div_mul_cancel₀ _ (ne_of_gt hone)]

namespace Binary16

/-- The number that a finite half-width word stands for. -/
def number? (y : Binary16) : Option ℚ :=
  match FloatLayout.binary16.classify y.bits.toNat with
  | .finite negative u =>
      some ((if negative then -1 else 1) * (u / FloatLayout.binary16.unitsPerOne))
  | _ => none

/-- A word without its sign. -/
def magnitude (y : Binary16) : Binary16 :=
  ⟨y.bits &&& 0x7FFF⟩

/-- A finite word whose number is as near as any to a given one, and which is even if another
number is as near. -/
def NearestEven (y : Binary16) (q : ℚ) : Prop :=
  ∃ a, y.number? = some a ∧ ∀ (z : Binary16) (b : ℚ), z.number? = some b →
    |q - a| ≤ |q - b| ∧ (|q - b| = |q - a| → b ≠ a → y.bits % 2 = 0)

theorem toNat_magnitude {y : Binary16} (negative : Bool) {pattern : ℕ} (hlt : pattern < 2 ^ 15)
    (hbits : y.bits.toNat = FloatLayout.binary16.withSign negative pattern) :
    y.magnitude.bits.toNat = pattern := by
  rw [Binary64.withSign_binary16] at hbits
  rw [magnitude, UInt16.toNat_and]
  refine (Nat.and_two_pow_sub_one_eq_mod _ 15).trans ?_
  omega

theorem number?_of_lt_infinity {y : Binary16} (h : y.bits.toNat < FloatLayout.binary16.infinity) :
    y.number? = some
      ((FloatLayout.binary16.units y.bits.toNat : ℚ) / FloatLayout.binary16.unitsPerOne) := by
  have hclassify := FloatLayout.classify_finite _ false h
  rw [show FloatLayout.binary16.withSign false y.bits.toNat = y.bits.toNat from rfl] at hclassify
  simp only [number?, hclassify, Bool.false_eq_true, if_false, one_mul]

/-- A number of half width is a magnitude or the negative of one. -/
theorem abs_number? {y : Binary16} {b : ℚ} (h : y.number? = some b) :
    ∃ pattern,
      |b| = (FloatLayout.binary16.units pattern : ℚ) / FloatLayout.binary16.unitsPerOne := by
  have hword : y.bits.toNat < 2 * FloatLayout.binary16.signBit := y.bits.toNat_lt
  obtain ⟨negative, ⟨pattern, hfinite, hbits⟩ | hbits | ⟨payload, hpos, hlt, hbits⟩⟩ :=
    FloatLayout.binary16.word_cases hword
  · rw [number?, hbits, FloatLayout.classify_finite _ negative hfinite] at h
    exact ⟨pattern, by rw [← Option.some.inj h, abs_signed negative (by positivity)]⟩
  · rw [number?, hbits, FloatLayout.classify_infinity] at h
    contradiction
  · rw [number?, hbits, FloatLayout.classify_nan _ negative hpos hlt] at h
    contradiction

/-- A magnitude that is nearest among the magnitudes is nearest among the numbers of both
signs. -/
theorem nearestEven_of_magnitudes {y : Binary16} {q : ℚ} (hq : 0 ≤ q)
    (hfinite : y.bits.toNat < FloatLayout.binary16.infinity)
    (hnearest : ∀ other,
      |q * FloatLayout.binary16.unitsPerOne - FloatLayout.binary16.units y.bits.toNat| ≤
          |q * FloatLayout.binary16.unitsPerOne - FloatLayout.binary16.units other| ∧
        (|q * FloatLayout.binary16.unitsPerOne - FloatLayout.binary16.units other| =
          |q * FloatLayout.binary16.unitsPerOne - FloatLayout.binary16.units y.bits.toNat| →
          other ≠ y.bits.toNat → y.bits.toNat % 2 = 0)) : y.NearestEven q := by
  refine ⟨_, number?_of_lt_infinity hfinite, fun z b hb => ?_⟩
  have hone : (0 : ℚ) < FloatLayout.binary16.unitsPerOne :=
    Nat.cast_pos.mpr FloatLayout.binary16.unitsPerOne_pos
  simp only [abs_mul_sub hone, mul_le_mul_iff_left₀ hone, mul_left_inj' (ne_of_gt hone)]
    at hnearest
  have hzero := (hnearest 0).1
  rw [show FloatLayout.binary16.units 0 = 0 from rfl, Nat.cast_zero, zero_div, sub_zero,
    abs_of_nonneg hq] at hzero
  obtain ⟨pattern, hpattern⟩ := abs_number? hb
  obtain ⟨hle, htie⟩ := hnearest pattern
  rw [← hpattern] at hle htie
  have hsigns : |q - (|b|)| ≤ |q - b| := abs_sub_abs_le_of_nonneg hq
  refine ⟨hle.trans hsigns, fun hsame hne => ?_⟩
  rw [← UInt16.toNat_inj, UInt16.toNat_mod]
  refine htie (le_antisymm (hsigns.trans (le_of_eq hsame)) hle) ?_
  rintro rfl
  exact hne (eq_of_abs_eq hq (by positivity) hzero hpattern hsame)

end Binary16

namespace Binary64

section Finite

variable {x : Binary64} {negative : Bool} {pattern : ℕ}
  (hfinite : pattern < FloatLayout.binary64.infinity)
  (hbits : x.bits.toNat = FloatLayout.binary64.withSign negative pattern)
include hfinite hbits

theorem abs_number?_withSign {v : ℚ} (h : x.number? = some v) :
    |v| = (FloatLayout.binary64.units pattern : ℚ) / FloatLayout.binary64.unitsPerOne := by
  rw [number?, datum, hbits, FloatLayout.classify_finite _ negative hfinite] at h
  rw [← Option.some.inj h, abs_signed negative (div_nonneg (Nat.cast_nonneg _) (Nat.cast_nonneg _))]

/-- The magnitude of a finite double, counted in units of half width. -/
theorem abs_mul_unitsPerOne {v : ℚ} (h : x.number? = some v) :
    |v| * FloatLayout.binary16.unitsPerOne =
      ((FloatLayout.binary64.units pattern * FloatLayout.binary16.unitsPerOne : ℕ) : ℚ) /
        FloatLayout.binary64.unitsPerOne := by
  rw [abs_number?_withSign hfinite hbits h, Nat.cast_mul, div_mul_eq_mul_div]

theorem toNat_magnitude_toBinary16 :
    x.toBinary16.magnitude.bits.toNat =
      FloatLayout.binary16.nearest
        (FloatLayout.binary64.units pattern * FloatLayout.binary16.unitsPerOne)
        FloatLayout.binary64.unitsPerOne := by
  refine Binary16.toNat_magnitude negative ?_ ?_
  · exact Nat.lt_of_le_of_lt (Nat.min_le_right _ _) (by decide)
  · rw [toNat_toBinary16, hbits]
    simp only [FloatLayout.convert, FloatLayout.classify_finite _ negative hfinite]

/-- Infinity begins in the middle between 65504 and 65536. -/
theorem magnitude_eq_infinity_iff {v : ℚ} (h : x.number? = some v) :
    x.toBinary16.magnitude.bits = 0x7C00 ↔ 65520 ≤ |v| := by
  have htop : FloatLayout.binary16.units (FloatLayout.binary16.infinity - 1) +
      FloatLayout.binary16.units FloatLayout.binary16.infinity =
        2 * (65520 * FloatLayout.binary16.unitsPerOne) := by decide
  have hone : (0 : ℚ) < FloatLayout.binary16.unitsPerOne :=
    Nat.cast_pos.mpr FloatLayout.binary16.unitsPerOne_pos
  have hwide : (0 : ℚ) < FloatLayout.binary64.unitsPerOne :=
    Nat.cast_pos.mpr FloatLayout.binary64.unitsPerOne_pos
  rw [← UInt16.toNat_inj, toNat_magnitude_toBinary16 hfinite hbits,
    show (0x7C00 : UInt16).toNat = FloatLayout.binary16.infinity by decide,
    FloatLayout.nearest_eq_infinity_iff (by decide) _ FloatLayout.binary64.unitsPerOne_pos
      (by decide), htop, Nat.mul_assoc 2, Nat.mul_le_mul_left_iff (by decide),
    ← mul_le_mul_iff_left₀ hone, abs_mul_unitsPerOne hfinite hbits h, le_div_iff₀ hwide]
  exact_mod_cast Iff.rfl

theorem magnitude_nearestEven {v : ℚ} (h : x.number? = some v) (hlt : |v| < 65520) :
    x.toBinary16.magnitude.NearestEven |v| := by
  have hmagnitude := toNat_magnitude_toBinary16 hfinite hbits
  have hbelow : x.toBinary16.magnitude.bits.toNat ≠ FloatLayout.binary16.infinity := by
    intro htop
    have hinfinity := UInt16.toNat_inj.mp
      (htop.trans (show FloatLayout.binary16.infinity = (0x7C00 : UInt16).toNat by decide))
    exact absurd ((magnitude_eq_infinity_iff hfinite hbits h).mp hinfinity) (not_le.mpr hlt)
  have hnearest := FloatLayout.nearest_distance (L := .binary16) (by decide) _
    FloatLayout.binary64.unitsPerOne_pos (hmagnitude ▸ hbelow)
  refine Binary16.nearestEven_of_magnitudes (abs_nonneg v) ?_ ?_
  · refine Nat.lt_of_le_of_ne ?_ hbelow
    rw [hmagnitude]
    exact Nat.min_le_right _ _
  · rw [hmagnitude, abs_mul_unitsPerOne hfinite hbits h]
    exact hnearest

end Finite

/-- A double is narrowed under its sign. -/
theorem toBinary16_sign (x : Binary64) :
    x.toBinary16.bits.toNat / 2 ^ 15 = x.bits.toNat / 2 ^ 63 := by
  have hword := x.bits.toNat_lt
  obtain ⟨magnitude, hmagnitude, hconvert⟩ :=
    FloatLayout.exists_convert_eq .binary64 .binary16 (by decide) x.bits.toNat
  rw [show FloatLayout.binary16.signBit = 2 ^ 15 by decide] at hmagnitude
  rw [toNat_toBinary16, hconvert, withSign_binary16, FloatLayout.negative_classify,
    show FloatLayout.binary64.signBit = 2 ^ 63 by decide]
  simp only [beq_iff_eq]
  split <;> omega

/-- Narrowing keeps the sign and rounds to the nearest number of half width, ties to even. -/
theorem toBinary16_nearest (x : Binary64) :
    x.toBinary16.bits.toNat / 2 ^ 15 = x.bits.toNat / 2 ^ 63 ∧
      (∀ v, x.number? = some v →
        (x.toBinary16.magnitude.bits = 0x7C00 ↔ 65520 ≤ |v|) ∧
        (|v| < 65520 → x.toBinary16.magnitude.NearestEven |v|)) ∧
      (∀ negative, x.datum = .infinite negative → x.toBinary16.magnitude.bits = 0x7C00) ∧
      (∀ negative payload, x.datum = .nan negative payload →
        0x7E00 ≤ x.toBinary16.magnitude.bits) := by
  have hword : x.bits.toNat < 2 * FloatLayout.binary64.signBit := x.bits.toNat_lt
  refine ⟨x.toBinary16_sign, ?_⟩
  obtain ⟨sign, ⟨pattern, hfinite, hbits⟩ | hbits | ⟨payload, hpos, hlt, hbits⟩⟩ :=
    FloatLayout.binary64.word_cases hword
  · have hdatum : x.datum = .finite sign (FloatLayout.binary64.units pattern) := by
      rw [datum, hbits, FloatLayout.classify_finite _ sign hfinite]
    refine ⟨fun v hv => ⟨magnitude_eq_infinity_iff hfinite hbits hv,
      magnitude_nearestEven hfinite hbits hv⟩, ?_, ?_⟩ <;> simp [hdatum]
  · have hdatum : x.datum = .infinite sign := by
      rw [datum, hbits, FloatLayout.classify_infinity]
    have hmagnitude : x.toBinary16.magnitude.bits = 0x7C00 := by
      rw [← UInt16.toNat_inj]
      refine Binary16.toNat_magnitude sign (by decide) ?_
      rw [toNat_toBinary16, hbits]
      simp only [FloatLayout.convert, FloatLayout.classify_infinity]
      rfl
    refine ⟨?_, fun _ _ => hmagnitude, ?_⟩ <;> simp [number?, hdatum]
  · have hdatum : x.datum = .nan sign payload := by
      rw [datum, hbits, FloatLayout.classify_nan _ sign hpos hlt]
    have hmagnitude : 0x7E00 ≤ x.toBinary16.magnitude.bits := by
      have hquiet := FloatLayout.quiet_lt_signBit (L := .binary16) (by decide)
        (FloatLayout.payload_scaled_lt hlt .binary16)
      rw [UInt16.le_iff_toNat_le, Binary16.toNat_magnitude sign hquiet]
      · rw [show (0x7E00 : UInt16).toNat =
          FloatLayout.binary16.infinity + FloatLayout.binary16.quietBit by decide,
          FloatLayout.quiet]
        exact Nat.add_le_add_left Nat.left_le_or _
      · rw [toNat_toBinary16, hbits,
          FloatLayout.convert_of_nan (FloatLayout.classify_nan _ sign hpos hlt)]
    refine ⟨?_, ?_, fun _ _ _ => hmagnitude⟩ <;> simp [number?, hdatum]

/-- A tie between the greatest subnormal number and the smallest normal one, the first number
that becomes infinity, an infinity, and what is not a number. -/
theorem toBinary16_edges :
    ((⟨0x3F0FFC0000000000⟩ : Binary64).number? = some (2047 / 2 ^ 25) ∧
        (⟨0x3F0FFC0000000000⟩ : Binary64).toBinary16 = ⟨0x0400⟩ ∧
        (⟨0x0400⟩ : Binary16).NearestEven |2047 / 2 ^ 25|) ∧
      ((⟨0xC0EFFE0000000000⟩ : Binary64).number? = some (-65520) ∧
        (⟨0xC0EFFE0000000000⟩ : Binary64).toBinary16.magnitude.bits = 0x7C00) ∧
      ((⟨0xFFF0000000000000⟩ : Binary64).datum = .infinite true ∧
        (⟨0xFFF0000000000000⟩ : Binary64).toBinary16.magnitude.bits = 0x7C00) ∧
      ((⟨0xFFF0000000000001⟩ : Binary64).datum = .nan true 1 ∧
        0x7E00 ≤ (⟨0xFFF0000000000001⟩ : Binary64).toBinary16.magnitude.bits) := by
  have hsubnormal : (⟨0x3F0FFC0000000000⟩ : Binary64).number? = some (2047 / 2 ^ 25) := by
    have hbits : (⟨0x3F0FFC0000000000⟩ : Binary64).datum =
        .finite false (FloatLayout.binary64.units 0x3F0FFC0000000000) := by decide +kernel
    have hunits : FloatLayout.binary64.units 0x3F0FFC0000000000 * 2 ^ 25 =
        2047 * FloatLayout.binary64.unitsPerOne := by decide +kernel
    have hone : (FloatLayout.binary64.unitsPerOne : ℚ) ≠ 0 :=
      Nat.cast_ne_zero.mpr (Nat.pos_iff_ne_zero.mp FloatLayout.binary64.unitsPerOne_pos)
    rw [number?, hbits]
    refine congrArg some ?_
    generalize FloatLayout.binary64.unitsPerOne = one at hunits hone ⊢
    generalize FloatLayout.binary64.units 0x3F0FFC0000000000 = u at hunits ⊢
    rw [if_neg (by decide), one_mul, div_eq_div_iff hone (by norm_num)]
    exact_mod_cast hunits
  have hlimit : (⟨0xC0EFFE0000000000⟩ : Binary64).number? = some (-65520) := by
    exact_mod_cast (wholeNumber?_eq_some_iff ⟨0xC0EFFE0000000000⟩ (-65520)).mp
      (by decide +kernel)
  refine ⟨⟨hsubnormal, by decide, ?_⟩, ⟨hlimit, ?_⟩, ⟨by decide, ?_⟩, ⟨by decide, ?_⟩⟩
  · exact ((toBinary16_nearest ⟨0x3F0FFC0000000000⟩).2.1 _ hsubnormal).2 (by norm_num)
  · exact ((toBinary16_nearest ⟨0xC0EFFE0000000000⟩).2.1 _ hlimit).1.mpr (by norm_num)
  · exact (toBinary16_nearest ⟨0xFFF0000000000000⟩).2.2.1 true (by decide)
  · exact (toBinary16_nearest ⟨0xFFF0000000000001⟩).2.2.2 true 1 (by decide)

end Binary64

end PackedRecord
