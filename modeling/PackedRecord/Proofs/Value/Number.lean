import PackedRecord.Proofs.ByteOrder
import PackedRecord.Proofs.Floating.Number
import PackedRecord.Value.Convert

/-!
Values as exact integers.

A field of 64 bits takes a value for the integer that it is. A narrower one
takes every number: a double is cut to the range in which all integers are
exact and loses its fraction, and an absent value counts as zero.
-/

namespace PackedRecord

theorem IntSize.width_le (size : IntSize) : size.width ≤ 8 := by
  cases size <;> decide

namespace Value

/-- The integer that a value is. -/
def Denotes (value : Value) (n : Int) : Prop :=
  match value with
  | bool b => n = if b then 1 else 0
  | int m => n = m.toInt
  | uint m => n = m.toNat
  | real x => x.number? = some (n : ℚ)
  | absent | bytes _ => False

/-- The integer that a value is cut to. -/
def CutsTo (value : Value) (n : Int) : Prop :=
  match value with
  | absent => n = 0
  | real x => n = towardZero (x.clamped safeIntegerLimit)
  | value => value.Denotes n

/-- The integer that a field of a size takes from a value. -/
def CountsIn (size : IntSize) (value : Value) (n : Int) : Prop :=
  match size with
  | .quad => value.Denotes n
  | .byte | .short | .long => value.CutsTo n

theorem wideInteger?_eq_some_iff (value : Value) (word : UInt64) :
    value.wideInteger? = some word ↔
      ∃ n, value.Denotes n ∧ -2 ^ 63 ≤ n ∧ n < 2 ^ 64 ∧ word = UInt64.ofInt n := by
  cases value with
  | absent | bytes v => simp [wideInteger?, Denotes]
  | bool b =>
      have hword : UInt64.ofInt (if b then 1 else 0) = if b then 1 else 0 := by
        cases b <;> rfl
      have hlow : -2 ^ 63 ≤ (if b then (1 : ℤ) else 0) := by
        cases b <;> decide
      have hhigh : (if b then (1 : ℤ) else 0) < 2 ^ 64 := by
        cases b <;> decide
      simp only [wideInteger?, Option.some_inj, Denotes, exists_eq_left, hword, hlow, hhigh,
        true_and, eq_comm (b := word)]
  | int m =>
      have hlow := m.le_toInt
      have hhigh : m.toInt < 2 ^ 64 := Int.lt_trans m.toInt_lt (by decide)
      simp only [wideInteger?, Option.some_inj, Denotes, exists_eq_left, wordOfInt_toInt, hlow,
        hhigh, true_and, eq_comm (b := word)]
  | uint m =>
      have hlow : -2 ^ 63 ≤ (m.toNat : ℤ) := Int.le_trans (by decide) (Int.natCast_nonneg _)
      have hhigh : (m.toNat : ℤ) < 2 ^ 64 := by exact_mod_cast m.toNat_lt
      simp only [wideInteger?, Option.some_inj, Denotes, exists_eq_left, wordOfInt_natCast, hlow,
        hhigh, true_and, eq_comm (b := word)]
  | real x =>
      simp only [wideInteger?, Option.bind_eq_some_iff, x.wholeNumber?_eq_some_iff, Denotes]
      refine exists_congr fun n => and_congr_right fun _ => ?_
      by_cases hrange : n < -0x8000000000000000 ∨ 0x10000000000000000 ≤ n
      · rw [if_pos hrange]
        exact ⟨fun hnone => by contradiction, fun h => by omega⟩
      · have hlow : -2 ^ 63 ≤ n := by omega
        have hhigh : n < 2 ^ 64 := by omega
        rw [if_neg hrange, word_of_sign hhigh, Option.some_inj]
        simp only [hlow, hhigh, true_and, eq_comm (b := word)]

theorem narrowInteger?_eq_some_iff (value : Value) (word : UInt64) :
    value.narrowInteger?.map Int64.toUInt64 = some word ↔
      ∃ n, value.CutsTo n ∧ word = UInt64.ofInt n := by
  cases value with
  | bytes v => simp [narrowInteger?, CutsTo, Denotes]
  | absent =>
      simp only [narrowInteger?, CutsTo, Option.map_some, Option.some_inj, exists_eq_left,
        eq_comm (b := word)]
      rfl
  | bool b =>
      simp only [narrowInteger?, CutsTo, Denotes, Option.map_some, Option.some_inj, exists_eq_left,
        eq_comm (b := word)]
      cases b <;> rfl
  | int m =>
      simp only [narrowInteger?, CutsTo, Denotes, Option.map_some, Option.some_inj, exists_eq_left,
        wordOfInt_toInt, eq_comm (b := word)]
  | uint m =>
      simp only [narrowInteger?, CutsTo, Denotes, Option.map_some, Option.some_inj, exists_eq_left,
        wordOfInt_natCast, UInt64.toUInt64_toInt64, eq_comm (b := word)]
  | real x =>
      simp only [narrowInteger?, CutsTo, Option.map_some, Option.some_inj, exists_eq_left,
        toUInt64_ofInt, x.truncated_eq, eq_comm (b := word)]

/-- What a field takes from a value is a word for the integer that it counts for. -/
theorem integer?_eq_some_iff (value : Value) (size : IntSize) (word : UInt64) :
    value.integer? size = some word ↔
      ∃ n, value.CountsIn size n ∧ (size = .quad → -2 ^ 63 ≤ n ∧ n < 2 ^ 64) ∧
        word = UInt64.ofInt n := by
  cases size with
  | quad =>
      refine (value.wideInteger?_eq_some_iff word).trans (exists_congr fun n => ?_)
      simp only [CountsIn, forall_const, and_assoc]
  | byte | short | long =>
      refine (value.narrowInteger?_eq_some_iff word).trans (exists_congr fun n => ?_)
      simp only [CountsIn, reduceCtorEq, false_implies, true_and]

end Value

end PackedRecord
