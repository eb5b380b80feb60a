import Mathlib.Algebra.Ring.Nat
import PackedRecord.Floating.Layout

/-!
Exact magnitudes.

A finite magnitude is a significand shifted by a power of two. A significand
has at most one bit more than the fraction field, and it has that bit unless
nothing is shifted; so the magnitude tells how far it was shifted, and the
pattern is the shift counted in the exponent field with the significand added.
A magnitude that a layout can hold is therefore rounded to its own pattern.
-/

namespace PackedRecord

theorem roundQuotient_mul (n d : Nat) {c : Nat} (hc : 0 < c) :
    roundQuotient (n * c) (d * c) = roundQuotient n d := by
  have hmod : 2 * (n % d * c) = 2 * (n % d) * c := (Nat.mul_assoc 2 _ c).symm
  simp only [roundQuotient, Nat.mul_mod_mul_right, Nat.mul_div_mul_right _ _ hc, hmod,
    Nat.mul_lt_mul_right hc, Nat.mul_left_inj (Nat.pos_iff_ne_zero.mp hc)]

theorem roundQuotient_of_dvd (m : Nat) {d : Nat} (hd : 0 < d) :
    roundQuotient (m * d) d = m := by
  rw [roundQuotient]
  rw [Nat.mul_mod_left, Nat.mul_div_cancel _ hd, if_neg (by omega)]

namespace FloatLayout

variable (L : FloatLayout)

theorem infinity_eq : L.infinity = (2 ^ L.exponentBits - 1) * 2 ^ L.fractionBits := rfl

theorem units_eq (pattern : Nat) :
    L.units pattern =
      match pattern / 2 ^ L.fractionBits with
      | 0 => pattern % 2 ^ L.fractionBits
      | e + 1 => (2 ^ L.fractionBits + pattern % 2 ^ L.fractionBits) * 2 ^ e := rfl

theorem nearest_eq (n d : Nat) :
    L.nearest n d =
      min (((n / d).log2 - L.fractionBits) * 2 ^ L.fractionBits +
        roundQuotient n (d * 2 ^ ((n / d).log2 - L.fractionBits))) L.infinity := rfl

theorem unitsPerOne_pos : 0 < L.unitsPerOne := Nat.two_pow_pos _

/-- A shift and the significand under it. -/
structure Normal (shift m : Nat) : Prop where
  lt : m < 2 ^ (L.fractionBits + 1)
  leading : 2 ^ L.fractionBits ≤ m ∨ shift = 0

theorem exists_normal (pattern : Nat) :
    ∃ shift m, L.Normal shift m ∧ pattern = shift * 2 ^ L.fractionBits + m := by
  have hpos := Nat.two_pow_pos L.fractionBits
  have hsplit := Nat.div_add_mod' pattern (2 ^ L.fractionBits)
  have hmod := Nat.mod_lt pattern hpos
  have hsucc := Nat.pow_succ 2 L.fractionBits
  cases hexp : pattern / 2 ^ L.fractionBits with
  | zero =>
      rw [hexp, Nat.zero_mul, Nat.zero_add] at hsplit
      refine ⟨0, pattern, ⟨?_, .inr rfl⟩, by omega⟩
      omega
  | succ e =>
      rw [hexp, Nat.succ_mul] at hsplit
      refine ⟨e, 2 ^ L.fractionBits + pattern % 2 ^ L.fractionBits, ⟨?_, ?_⟩, ?_⟩
      · omega
      · exact .inl (Nat.le_add_right _ _)
      · omega

namespace Normal

variable {L} {shift m : Nat}

theorem units (h : L.Normal shift m) :
    L.units (shift * 2 ^ L.fractionBits + m) = m * 2 ^ shift := by
  have hpos := Nat.two_pow_pos L.fractionBits
  have hlt := h.lt
  rw [Nat.pow_succ] at hlt
  by_cases hm : 2 ^ L.fractionBits ≤ m
  · obtain ⟨r, rfl⟩ := Nat.exists_eq_add_of_le hm
    have hr : r < 2 ^ L.fractionBits := by omega
    have hform : shift * 2 ^ L.fractionBits + (2 ^ L.fractionBits + r) =
        r + (shift + 1) * 2 ^ L.fractionBits := by
      rw [Nat.succ_mul]
      omega
    simp only [units_eq, hform, Nat.add_mul_div_right _ _ hpos, Nat.add_mul_mod_self_right,
      Nat.div_eq_of_lt hr, Nat.mod_eq_of_lt hr, Nat.zero_add]
  · obtain rfl := h.leading.resolve_left hm
    have hr : m < 2 ^ L.fractionBits := Nat.lt_of_not_le hm
    simp only [units_eq, Nat.zero_mul, Nat.zero_add, Nat.div_eq_of_lt hr,
      Nat.mod_eq_of_lt hr, Nat.pow_zero, Nat.mul_one]

/-- A magnitude tells how far its significand was shifted. -/
theorem shift_eq (h : L.Normal shift m) : (m * 2 ^ shift).log2 - L.fractionBits = shift := by
  have hpow := Nat.two_pow_pos shift
  by_cases hm : 2 ^ L.fractionBits ≤ m
  · have hpos : 0 < m := Nat.lt_of_lt_of_le (Nat.two_pow_pos _) hm
    have hlog : (m * 2 ^ shift).log2 = L.fractionBits + shift := by
      rw [Nat.log2_eq_iff (Nat.mul_ne_zero (by omega) (by omega))]
      constructor
      · rw [Nat.pow_add]
        exact Nat.mul_le_mul_right _ hm
      · rw [Nat.add_right_comm, Nat.pow_add]
        exact Nat.mul_lt_mul_of_pos_right h.lt hpow
    omega
  · obtain rfl := h.leading.resolve_left hm
    rw [Nat.pow_zero, Nat.mul_one]
    by_cases hzero : m = 0
    · rw [hzero, Nat.log2_zero, Nat.zero_sub]
    · have hlog := (Nat.log2_lt hzero).mpr h.lt
      omega

theorem nearest (h : L.Normal shift m) :
    L.nearest (m * 2 ^ shift) 1 = min (shift * 2 ^ L.fractionBits + m) L.infinity := by
  simp only [nearest_eq, Nat.div_one, h.shift_eq, Nat.one_mul,
    roundQuotient_of_dvd m (Nat.two_pow_pos shift)]

end Normal

/-- The magnitude of a finite pattern is rounded to that pattern. -/
theorem nearest_units {pattern : Nat} (h : pattern < L.infinity) :
    L.nearest (L.units pattern) 1 = pattern := by
  obtain ⟨shift, m, hnormal, rfl⟩ := L.exists_normal pattern
  rw [hnormal.units, hnormal.nearest, Nat.min_eq_left (Nat.le_of_lt h)]

theorem nearest_mul (n d : Nat) {c : Nat} (hc : 0 < c) :
    L.nearest (n * c) (d * c) = L.nearest n d := by
  simp only [nearest_eq, Nat.mul_div_mul_right _ _ hc, Nat.mul_right_comm d c,
    roundQuotient_mul _ _ hc]

/-- A number whose bits fit into a significand, and whose exponent is in range,
is the magnitude of a finite pattern. -/
theorem exists_units_eq {n : Nat} (hdvd : 2 ^ (n.log2 - L.fractionBits) ∣ n)
    (hrange : n.log2 - L.fractionBits + 2 < 2 ^ L.exponentBits) :
    ∃ pattern, pattern < L.infinity ∧ L.units pattern = n := by
  obtain ⟨m, hm⟩ := hdvd
  rw [Nat.mul_comm] at hm
  generalize hshift : n.log2 - L.fractionBits = shift at hm hrange
  have hpow := Nat.two_pow_pos shift
  have hnormal : L.Normal shift m := by
    by_cases hzero : n = 0
    · have hm0 : m = 0 := by
        rcases Nat.mul_eq_zero.mp (hm.symm.trans hzero) with h | h
        · exact h
        · omega
      rw [hzero, Nat.log2_zero, Nat.zero_sub] at hshift
      rw [hm0, ← hshift]
      exact ⟨Nat.two_pow_pos _, .inr rfl⟩
    · have hlow := Nat.log2_self_le hzero
      have hhigh : n < 2 ^ (n.log2 + 1) := Nat.lt_log2_self
      constructor
      · apply Nat.lt_of_mul_lt_mul_right (a := 2 ^ shift)
        rw [← hm, ← Nat.pow_add]
        exact Nat.lt_of_lt_of_le hhigh (Nat.pow_le_pow_right (by decide) (by omega))
      · by_cases hzero' : shift = 0
        · exact .inr hzero'
        · refine .inl (Nat.le_of_mul_le_mul_right (c := 2 ^ shift) ?_ hpow)
          rw [← hm, ← Nat.pow_add]
          exact Nat.le_trans (Nat.pow_le_pow_right (by decide) (by omega)) hlow
  refine ⟨shift * 2 ^ L.fractionBits + m, ?_, by rw [hnormal.units, hm]⟩
  have hlt := hnormal.lt
  have hmul : (shift + 2) * 2 ^ L.fractionBits ≤ L.infinity := by
    rw [infinity_eq]
    exact Nat.mul_le_mul_right _ (by omega)
  rw [Nat.pow_succ] at hlt
  rw [Nat.add_mul] at hmul
  omega

end FloatLayout

end PackedRecord
