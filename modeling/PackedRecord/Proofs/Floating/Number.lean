import Mathlib.Algebra.Order.Group.MinMax
import Mathlib.Data.Rat.Floor
import PackedRecord.Floating.Words
import PackedRecord.Proofs.Floating.Significand

/-!
Doubles as exact numbers.

A finite double stands for a rational number. The two readings as an integer
are stated by that number: one gives it when it is an integer, and the other
cuts it to a range and drops its fraction.
-/

namespace PackedRecord

/-- The integer that is left of a number when its fraction is dropped. -/
def towardZero (q : ℚ) : ℤ :=
  if q < 0 then ⌈q⌉ else ⌊q⌋

theorem towardZero_neg (q : ℚ) : towardZero (-q) = -towardZero q := by
  simp only [towardZero]
  rcases lt_trichotomy q 0 with hlt | heq | hgt
  · rw [if_neg (by linarith), if_pos hlt, Int.floor_neg]
  · rw [heq]
    rfl
  · rw [if_pos (by linarith), if_neg (by linarith), Int.ceil_neg]

theorem abs_signed (negative : Bool) {q : ℚ} (hq : 0 ≤ q) :
    |(if negative then -1 else 1) * q| = q := by
  cases negative with
  | false => rw [if_neg (by decide), one_mul, abs_of_nonneg hq]
  | true => rw [if_pos rfl, neg_one_mul, abs_neg, abs_of_nonneg hq]

namespace Binary64

/-- The number that a finite double stands for. -/
def number? (x : Binary64) : Option ℚ :=
  match x.datum with
  | .finite negative u =>
      some ((if negative then -1 else 1) * (u / FloatLayout.binary64.unitsPerOne))
  | _ => none

/-- A double cut to a range around zero; what is not a number counts as zero. -/
def clamped (x : Binary64) (limit : ℕ) : ℚ :=
  match x.datum with
  | .finite negative u =>
      max (-limit)
        (min limit ((if negative then -1 else 1) * (u / FloatLayout.binary64.unitsPerOne)))
  | .infinite negative => if negative then -limit else limit
  | .nan _ _ => 0

theorem wholeNumber?_eq_some_iff (x : Binary64) (n : ℤ) :
    x.wholeNumber? = some n ↔ x.number? = some (n : ℚ) := by
  have hone : (0 : ℚ) < FloatLayout.binary64.unitsPerOne :=
    Nat.cast_pos.mpr FloatLayout.binary64.unitsPerOne_pos
  rw [wholeNumber?, number?]
  cases x.datum with
  | infinite negative | nan negative payload => simp
  | finite negative u =>
      generalize FloatLayout.binary64.unitsPerOne = one at hone ⊢
      by_cases hmod : u % one = 0
      · obtain ⟨k, rfl⟩ := Nat.dvd_of_mod_eq_zero hmod
        have hnat : one * k / one = k := Nat.mul_div_cancel_left k (by exact_mod_cast hone)
        have hrat : ((one * k : ℕ) : ℚ) / one = k := by
          rw [Nat.cast_mul, mul_div_cancel_left₀ _ (ne_of_gt hone)]
        simp only [if_pos hmod, hnat, hrat]
        cases negative with
        | false =>
            rw [if_neg (by decide), one_mul, Option.some_inj, Option.some_inj]
            exact ⟨fun h => by exact_mod_cast h, fun h => by exact_mod_cast h⟩
        | true =>
            rw [if_pos rfl, neg_one_mul, Option.some_inj, Option.some_inj]
            exact ⟨fun h => by exact_mod_cast congrArg (Int.cast : ℤ → ℚ) h,
              fun h => by exact_mod_cast h⟩
      · simp only [if_neg hmod]
        constructor
        · intro h
          contradiction
        · intro h
          have habs : |(n : ℚ)| = u / one := by
            rw [← Option.some.inj h, abs_signed negative (by positivity)]
          have hu : (u : ℚ) = n.natAbs * one := by
            rw [Nat.cast_natAbs, Int.cast_abs, habs, div_mul_cancel₀ _ (ne_of_gt hone)]
          have hnat : u = n.natAbs * one := by exact_mod_cast hu
          rw [hnat, Nat.mul_mod_left] at hmod
          contradiction

/-- The magnitude of a finite double, cut and without its fraction. -/
theorem towardZero_min (u one limit : ℕ) :
    towardZero (min (limit : ℚ) (u / one)) = (min (u / one) limit : ℕ) := by
  have hnonneg : (0 : ℚ) ≤ min (limit : ℚ) (u / one) := by positivity
  rw [towardZero, if_neg (not_lt.mpr hnonneg), Int.floor_mono.map_min, Int.floor_natCast,
    Rat.floor_natCast_div_natCast, min_comm]
  push_cast
  rfl

theorem truncated_eq (x : Binary64) (limit : ℕ) :
    x.truncated limit = towardZero (x.clamped limit) := by
  have hlimit : (0 : ℚ) ≤ limit := by positivity
  rw [truncated, clamped]
  cases x.datum with
  | nan negative payload => rfl
  | infinite negative =>
      have hself : towardZero (limit : ℚ) = limit := by
        rw [towardZero, if_neg (not_lt.mpr hlimit), Int.floor_natCast]
      cases negative with
      | false => exact hself.symm
      | true =>
          simp only [if_true]
          rw [towardZero_neg, hself]
          rfl
  | finite negative u =>
      generalize FloatLayout.binary64.unitsPerOne = one
      have hu : (0 : ℚ) ≤ u / one := by positivity
      have hmin := towardZero_min u one limit
      cases negative with
      | false =>
          simp only [if_false, Bool.false_eq_true, one_mul]
          rw [max_eq_right (by linarith [le_min hlimit hu]), hmin]
          rfl
      | true =>
          simp only [if_true, neg_one_mul]
          rw [min_eq_right (show -((u : ℚ) / one) ≤ limit by linarith), max_neg_neg, towardZero_neg,
            hmin]
          rfl

end Binary64

end PackedRecord
