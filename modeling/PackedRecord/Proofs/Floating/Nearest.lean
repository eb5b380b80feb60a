import Mathlib.Order.Monotone.Basic
import Mathlib.Tactic.Linarith
import PackedRecord.Proofs.Floating.Number
import PackedRecord.Proofs.Floating.Significand

/-!
Nearest magnitudes.

Patterns are ordered as their magnitudes are, so a quotient lies in the cell from
one pattern to the next. Rounding takes the end of the cell that is on the same
side of its middle, and the even end on the middle itself. As all other patterns
lie outside the cell, none of them is nearer. The pattern after the greatest
finite one is infinity, so rounding reaches it from the middle of the last
finite cell on.
-/

namespace PackedRecord

namespace FloatLayout

variable {L : FloatLayout}

/-- A carry out of the significand is a carry into the exponent. -/
theorem Normal.units_succ {shift m : ℕ} (h : L.Normal shift m) :
    L.units (shift * 2 ^ L.fractionBits + m + 1) = (m + 1) * 2 ^ shift := by
  have hlt := h.lt
  have hpow := Nat.pow_succ 2 L.fractionBits
  by_cases hcarry : m + 1 = 2 ^ (L.fractionBits + 1)
  · have hnext : L.Normal (shift + 1) (2 ^ L.fractionBits) :=
      ⟨Nat.pow_lt_pow_right (by decide) (by omega), .inl (Nat.le_refl _)⟩
    have hform : shift * 2 ^ L.fractionBits + m + 1 =
        (shift + 1) * 2 ^ L.fractionBits + 2 ^ L.fractionBits := by
      rw [Nat.succ_mul]
      omega
    rw [hform, hnext.units, hcarry, Nat.pow_succ, Nat.pow_succ, Nat.mul_assoc, Nat.mul_comm 2]
  · have hnext : L.Normal shift (m + 1) :=
      ⟨by omega, h.leading.imp_left Nat.le_succ_of_le⟩
    rw [Nat.add_assoc, hnext.units]

variable (L) in
theorem units_strictMono : StrictMono L.units := by
  refine strictMono_nat_of_lt_succ fun pattern => ?_
  obtain ⟨shift, m, hnormal, rfl⟩ := L.exists_normal pattern
  rw [hnormal.units, hnormal.units_succ]
  exact Nat.mul_lt_mul_of_pos_right (Nat.lt_succ_self m) (Nat.two_pow_pos shift)

/-- The magnitudes outside a cell, each on the side of one of its ends. -/
theorem units_outside (pattern other : ℕ) :
    ((L.units other : ℚ) ≤ L.units pattern ∧
        ((L.units other : ℚ) = L.units pattern → other = pattern)) ∨
      ((L.units (pattern + 1) : ℚ) ≤ L.units other ∧
        ((L.units other : ℚ) = L.units (pattern + 1) → other = pattern + 1)) := by
  have hinjective := L.units_strictMono.injective
  have hmono := L.units_strictMono.monotone
  rcases Nat.lt_or_ge pattern other with hgt | hle
  · exact .inr ⟨Nat.cast_le.mpr (hmono hgt), fun heq => hinjective (Nat.cast_injective heq)⟩
  · exact .inl ⟨Nat.cast_le.mpr (hmono hle), fun heq => hinjective (Nat.cast_injective heq)⟩

/-- A quotient lies between the magnitudes of a pattern and the next one. -/
structure Cell (L : FloatLayout) (n d pattern : ℕ) : Prop where
  le : L.units pattern * d ≤ n
  lt : n < L.units (pattern + 1) * d

/-- The end of a cell on the side of its middle where a quotient lies. -/
def cellEnd (L : FloatLayout) (n d pattern : ℕ) : ℕ :=
  let twiceMiddle := (L.units pattern + L.units (pattern + 1)) * d
  if twiceMiddle < 2 * n ∨ (twiceMiddle = 2 * n ∧ pattern % 2 = 1) then pattern + 1 else pattern

/-- The whole part of a quotient under its shift is a significand. -/
theorem normal_quotient (n d : ℕ) :
    L.Normal ((n / d).log2 - L.fractionBits)
      (n / (d * 2 ^ ((n / d).log2 - L.fractionBits))) := by
  rw [← Nat.div_div_eq_div_mul]
  generalize n / d = w
  have hpos := Nat.two_pow_pos (w.log2 - L.fractionBits)
  constructor
  · rw [Nat.div_lt_iff_lt_mul hpos, ← Nat.pow_add]
    exact Nat.lt_of_lt_of_le Nat.lt_log2_self (Nat.pow_le_pow_right (by decide) (by omega))
  · by_cases hshift : w.log2 - L.fractionBits = 0
    · exact .inr hshift
    · have hw : w ≠ 0 := by
        rintro rfl
        rw [Nat.log2_zero] at hshift
        omega
      refine .inl ?_
      rw [Nat.le_div_iff_mul_le hpos, ← Nat.pow_add]
      exact Nat.le_trans (Nat.pow_le_pow_right (by decide) (by omega)) (Nat.log2_self_le hw)

/-- Rounding finds the cell of a quotient and takes one end of it. -/
theorem nearest_eq_cellEnd (hfraction : 0 < L.fractionBits) (n : ℕ) {d : ℕ} (hd : 0 < d) :
    ∃ pattern, L.Cell n d pattern ∧ L.nearest n d = min (L.cellEnd n d pattern) L.infinity := by
  have hnormal := L.normal_quotient n d
  rw [nearest_eq]
  generalize (n / d).log2 - L.fractionBits = shift at hnormal ⊢
  have hunit : 0 < d * 2 ^ shift := Nat.mul_pos hd (Nat.two_pow_pos shift)
  have hsplit := Nat.div_add_mod' n (d * 2 ^ shift)
  have hmod := Nat.mod_lt n hunit
  have hlow := hnormal.units
  have hhigh := hnormal.units_succ
  have heven : (shift * 2 ^ L.fractionBits) % 2 = 0 := by
    obtain ⟨b, hb⟩ := Nat.exists_eq_add_of_lt hfraction
    rw [hb, Nat.pow_succ, ← Nat.mul_assoc, Nat.mul_mod_left]
  have hmul (k : ℕ) : k * 2 ^ shift * d = k * (d * 2 ^ shift) := by
    rw [Nat.mul_assoc, Nat.mul_comm (2 ^ shift)]
  refine ⟨shift * 2 ^ L.fractionBits + n / (d * 2 ^ shift), ⟨?_, ?_⟩, ?_⟩
  · rw [hlow, hmul]
    omega
  · rw [hhigh, hmul, Nat.succ_mul]
    omega
  · have htwice : (n / (d * 2 ^ shift) * 2 ^ shift + (n / (d * 2 ^ shift) + 1) * 2 ^ shift) * d =
        2 * (n / (d * 2 ^ shift) * (d * 2 ^ shift)) + d * 2 ^ shift := by
      rw [Nat.add_mul, hmul, hmul, Nat.succ_mul]
      omega
    simp only [cellEnd, roundQuotient, hlow, hhigh, htwice]
    congr 1
    have hparity : (shift * 2 ^ L.fractionBits + n / (d * 2 ^ shift)) % 2 =
        n / (d * 2 ^ shift) % 2 := by omega
    rw [hparity]
    split <;> split <;> omega

/-- The upper end is taken from the middle of the cell on, the lower one up to it, and an end
that is taken on the middle is even. -/
theorem cellEnd_cases (n : ℕ) {d : ℕ} (pattern : ℕ) (hd : 0 < d) :
    (L.cellEnd n d pattern = pattern + 1 ∧
        (L.units pattern + L.units (pattern + 1) : ℚ) ≤ 2 * (n / d) ∧
        ((L.units pattern + L.units (pattern + 1) : ℚ) = 2 * (n / d) → (pattern + 1) % 2 = 0)) ∨
      (L.cellEnd n d pattern = pattern ∧
        2 * (n / d) ≤ (L.units pattern + L.units (pattern + 1) : ℚ) ∧
        ((L.units pattern + L.units (pattern + 1) : ℚ) = 2 * (n / d) → pattern % 2 = 0)) := by
  have hpos : (0 : ℚ) < d := Nat.cast_pos.mpr hd
  have hle : (L.units pattern + L.units (pattern + 1) : ℚ) ≤ 2 * (n / d) ↔
      (L.units pattern + L.units (pattern + 1)) * d ≤ 2 * n := by
    rw [← mul_div_assoc, le_div_iff₀ hpos]
    exact_mod_cast Iff.rfl
  have hge : 2 * (n / d) ≤ (L.units pattern + L.units (pattern + 1) : ℚ) ↔
      2 * n ≤ (L.units pattern + L.units (pattern + 1)) * d := by
    rw [← mul_div_assoc, div_le_iff₀ hpos]
    exact_mod_cast Iff.rfl
  have heq : (L.units pattern + L.units (pattern + 1) : ℚ) = 2 * (n / d) ↔
      (L.units pattern + L.units (pattern + 1)) * d = 2 * n := by
    rw [le_antisymm_iff, hle, hge, ← le_antisymm_iff]
  rw [hle, hge, heq, cellEnd]
  split
  · refine .inl ⟨rfl, ?_, ?_⟩ <;> omega
  · refine .inr ⟨rfl, ?_, ?_⟩ <;> omega

namespace Cell

variable {n d pattern : ℕ} (h : L.Cell n d pattern)
include h

/-- Rounding passes a pattern that is even from the middle of the cell below it on. -/
theorem le_cellEnd_iff {top : ℕ} (htop : 0 < top) (heven : top % 2 = 0) :
    top ≤ L.cellEnd n d pattern ↔ (L.units (top - 1) + L.units top) * d ≤ 2 * n := by
  have hle := h.le
  have hlt := h.lt
  have hmono := L.units_strictMono.monotone
  obtain ⟨below, rfl⟩ := Nat.exists_eq_add_of_lt htop
  rw [Nat.zero_add, Nat.add_sub_cancel, cellEnd]
  rcases Nat.lt_trichotomy pattern below with hless | rfl | hmore
  · have hnext := Nat.mul_le_mul_right d (hmono (show pattern + 1 ≤ below from hless))
    have hnext' := Nat.mul_le_mul_right d (hmono (Nat.le_add_right below 1))
    have hsum := Nat.add_mul (L.units below) (L.units (below + 1)) d
    constructor
    · intro hend
      split at hend <;> omega
    · intro hmiddle
      omega
  · constructor
    · intro hend
      split at hend <;> omega
    · intro hmiddle
      rw [if_pos (by omega)]
  · have hnext := Nat.mul_le_mul_right d (hmono (show below + 1 ≤ pattern from hmore))
    have hnext' := Nat.mul_le_mul_right d (hmono (Nat.le_add_right below 1))
    have hsum := Nat.add_mul (L.units below) (L.units (below + 1)) d
    constructor
    · intro hend
      omega
    · intro hmiddle
      split <;> omega

/-- No magnitude is nearer to a quotient than the end of its cell, and if another one is as
near, the end is even. -/
theorem cellEnd_nearest (hd : 0 < d) (other : ℕ) :
    |(n / d : ℚ) - L.units (L.cellEnd n d pattern)| ≤ |(n / d : ℚ) - L.units other| ∧
      (|(n / d : ℚ) - L.units other| = |(n / d : ℚ) - L.units (L.cellEnd n d pattern)| →
        other ≠ L.cellEnd n d pattern → L.cellEnd n d pattern % 2 = 0) := by
  have hpos : (0 : ℚ) < d := Nat.cast_pos.mpr hd
  have hlow : (L.units pattern : ℚ) ≤ n / d := by
    rw [le_div_iff₀ hpos]
    exact_mod_cast h.le
  have hhigh : (n / d : ℚ) < L.units (pattern + 1) := by
    rw [div_lt_iff₀ hpos]
    exact_mod_cast h.lt
  have hends := L.cellEnd_cases n pattern hd
  generalize (n / d : ℚ) = q at hlow hhigh hends ⊢
  rcases hends with ⟨hend, hside, htie⟩ | ⟨hend, hside, htie⟩ <;> rw [hend]
  · rw [abs_of_nonpos (show q - L.units (pattern + 1) ≤ 0 by linarith)]
    rcases L.units_outside pattern other with ⟨hother, heq⟩ | ⟨hother, heq⟩
    · rw [abs_of_nonneg (show 0 ≤ q - L.units other by linarith)]
      exact ⟨by linarith, fun hsame _ => htie (by linarith)⟩
    · rw [abs_of_nonpos (show q - L.units other ≤ 0 by linarith)]
      exact ⟨by linarith, fun hsame hne => absurd (heq (by linarith)) hne⟩
  · rw [abs_of_nonneg (show 0 ≤ q - L.units pattern by linarith)]
    rcases L.units_outside pattern other with ⟨hother, heq⟩ | ⟨hother, heq⟩
    · rw [abs_of_nonneg (show 0 ≤ q - L.units other by linarith)]
      exact ⟨by linarith, fun hsame hne => absurd (heq (by linarith)) hne⟩
    · rw [abs_of_nonpos (show q - L.units other ≤ 0 by linarith)]
      exact ⟨by linarith, fun hsame _ => htie (by linarith)⟩

end Cell

section Nearest

variable (hfraction : 0 < L.fractionBits) (n : ℕ) {d : ℕ} (hd : 0 < d)
include hfraction hd

theorem nearest_eq_infinity_iff (hexponent : 0 < L.exponentBits) :
    L.nearest n d = L.infinity ↔ (L.units (L.infinity - 1) + L.units L.infinity) * d ≤ 2 * n := by
  obtain ⟨pattern, hcell, hnearest⟩ := L.nearest_eq_cellEnd hfraction n hd
  have hexp : 1 < 2 ^ L.exponentBits := Nat.one_lt_two_pow (Nat.ne_of_gt hexponent)
  have htop : 0 < L.infinity := Nat.mul_pos (Nat.sub_pos_of_lt hexp) (Nat.two_pow_pos _)
  have heven : L.infinity % 2 = 0 := by
    obtain ⟨b, hb⟩ := Nat.exists_eq_add_of_lt hfraction
    rw [infinity_eq, hb, Nat.pow_succ, ← Nat.mul_assoc, Nat.mul_mod_left]
  rw [hnearest, min_eq_right_iff, hcell.le_cellEnd_iff htop heven]

/-- A pattern that a quotient was rounded to is nearest to it, and even on a tie. -/
theorem nearest_distance (hfinite : L.nearest n d ≠ L.infinity) (other : ℕ) :
    |(n / d : ℚ) - L.units (L.nearest n d)| ≤ |(n / d : ℚ) - L.units other| ∧
      (|(n / d : ℚ) - L.units other| = |(n / d : ℚ) - L.units (L.nearest n d)| →
        other ≠ L.nearest n d → L.nearest n d % 2 = 0) := by
  obtain ⟨pattern, hcell, hnearest⟩ := L.nearest_eq_cellEnd hfraction n hd
  have hend : L.nearest n d = L.cellEnd n d pattern := by omega
  rw [hend]
  exact hcell.cellEnd_nearest hd other

end Nearest

end FloatLayout

end PackedRecord
