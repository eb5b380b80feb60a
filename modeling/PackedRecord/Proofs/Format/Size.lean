import Mathlib.Algebra.Ring.Nat
import PackedRecord.Format.Size

/-!
Sizes in bounded and in exact arithmetic.

A checked product or sum is the exact one when that is below the size limit,
and nothing otherwise. As no item has a negative size, a running total passes
the limit exactly when the whole sum does. So the order of the items does not
matter, and nothing that is formed on the way has wrapped.
-/

namespace PackedRecord

theorem checkedAdd_eq {a : Nat} (b : Nat) (ha : a < sizeLimit) :
    checkedAdd a b = if a + b < sizeLimit then some (a + b) else none := by
  rw [checkedAdd]
  by_cases h : a + b < sizeLimit
  · rw [if_pos h, if_pos (by omega), Nat.mod_eq_of_lt h]
  · rw [if_neg h, if_neg (by omega)]

theorem checkedMul_eq (a b : Nat) :
    checkedMul a b = if a * b < sizeLimit then some (a * b) else none := by
  have hpos : 0 < sizeLimit := by decide
  rw [checkedMul]
  by_cases hzero : a = 0 ∨ b = 0
  · have hprod : a * b = 0 := Nat.mul_eq_zero.mpr hzero
    rw [if_pos hzero, hprod, if_pos hpos]
  · have hb : 0 < b := Nat.pos_of_ne_zero fun h => hzero (.inr h)
    have hle : a ≤ (sizeLimit - 1) / b ↔ a * b < sizeLimit := by
      rw [Nat.le_div_iff_mul_le hb]
      omega
    rw [if_neg hzero]
    by_cases h : a * b < sizeLimit
    · rw [if_pos h, if_pos (hle.mpr h), Nat.mod_eq_of_lt h]
    · rw [if_neg h, if_neg (mt hle.mp h)]

/-- Adding up sizes from a total gives the exact sum if that is in bounds. -/
theorem sizeFrom_eq (items : List Item) {total : Nat} (h : total < sizeLimit) :
    sizeFrom total items =
      if total + totalSize items < sizeLimit then some (total + totalSize items) else none := by
  induction items generalizing total with
  | nil =>
      rw [totalSize_nil, Nat.add_zero, if_pos h]
      rfl
  | cons item items ih =>
      rw [totalSize_cons, sizeFrom, checkedMul_eq]
      by_cases hmul : item.count * Code.widthOfByte item.code < sizeLimit
      · rw [if_pos hmul]
        simp only [checkedAdd_eq _ h]
        by_cases hadd : total + item.count * Code.widthOfByte item.code < sizeLimit
        · simp only [if_pos hadd]
          rw [ih hadd, Nat.add_assoc]
          rfl
        · simp only [if_neg hadd]
          rw [if_neg (by simp only [Item.size]; omega)]
      · rw [if_neg hmul, if_neg (by simp only [Item.size]; omega)]

theorem packedSize_eq (items : List Item) :
    packedSize items =
      if totalSize items < sizeLimit then .ok (totalSize items) else .error .lengthOverflow := by
  have hzero : 0 < sizeLimit := by decide
  rw [packedSize, sizeFrom_eq items hzero, Nat.zero_add]
  by_cases h : totalSize items < sizeLimit
  · rw [if_pos h, if_pos h]
  · rw [if_neg h, if_neg h]

theorem packedSize_eq_ok_iff (items : List Item) (n : Nat) :
    packedSize items = .ok n ↔ totalSize items = n ∧ n < sizeLimit := by
  rw [packedSize_eq]
  by_cases h : totalSize items < sizeLimit
  · rw [if_pos h, Except.ok.injEq]
    constructor
    · rintro rfl
      exact ⟨rfl, h⟩
    · exact And.left
  · rw [if_neg h]
    constructor
    · intro hcontra
      contradiction
    · rintro ⟨rfl, hlt⟩
      contradiction

theorem packedSize_eq_error_iff (items : List Item) (e : PackError) :
    packedSize items = .error e ↔ sizeLimit ≤ totalSize items ∧ e = .lengthOverflow := by
  rw [packedSize_eq]
  by_cases h : totalSize items < sizeLimit
  · rw [if_pos h]
    exact ⟨fun hcontra => by contradiction, fun hcontra => by omega⟩
  · rw [if_neg h, Except.error.injEq, eq_comm]
    exact ⟨fun he => ⟨by omega, he⟩, And.right⟩

/-- An item lies within its record. -/
theorem totalSize_take_le {items : List Item} {k : Nat} {item : Item} (h : items[k]? = some item) :
    totalSize (items.take k) + item.size ≤ totalSize items := by
  have hsplit := totalSize_append (items.take (k + 1)) (items.drop (k + 1))
  rw [List.take_append_drop, List.take_add_one, h, totalSize_append] at hsplit
  simp only [Option.toList_some, totalSize_cons, totalSize_nil] at hsplit
  omega

theorem totalSize_eq_sum (items : List Item) :
    totalSize items =
      (items.map fun item => item.count * Code.widthOfByte item.code).sum := by
  induction items with
  | nil => rfl
  | cons item items ih =>
      rw [totalSize_cons, ih, List.map_cons, List.sum_cons]
      rfl

theorem packedSize_perm {items others : List Item} (h : items.Perm others) :
    packedSize others = packedSize items := by
  rw [packedSize_eq, packedSize_eq, totalSize_eq_sum, totalSize_eq_sum, (h.map _).sum_nat]

theorem eq_mul_of_checkedMul {a b n : Nat} (h : checkedMul a b = some n) : n = a * b := by
  rw [checkedMul_eq] at h
  split at h
  · exact (Option.some.inj h).symm
  · contradiction

theorem eq_add_of_checkedAdd {a b n : Nat} (ha : a < sizeLimit) (h : checkedAdd a b = some n) :
    n = a + b := by
  rw [checkedAdd_eq b ha] at h
  split at h
  · exact (Option.some.inj h).symm
  · contradiction

/-- A running total that was formed is exact. -/
theorem eq_totalSize_of_sizeFrom {items : List Item} {total : Nat}
    (h : sizeFrom 0 items = some total) : total = totalSize items ∧ total < sizeLimit := by
  rw [sizeFrom_eq items (by decide), Nat.zero_add] at h
  split at h
  · obtain rfl := Option.some.inj h
    exact ⟨rfl, by assumption⟩
  · contradiction

/-- The size of a list of items is their exact sum, or an overflow if that is out of bounds.
The order of the items does not matter, a code outside the alphabet adds nothing, and every
total and product that is formed on the way is the exact one. -/
theorem packedSize_exact (items : List Item) :
    (∀ size, packedSize items = .ok size ↔
        (items.map fun item => item.count * Code.widthOfByte item.code).sum = size ∧
          size < 2 ^ 64) ∧
      (∀ e, packedSize items = .error e ↔
        2 ^ 64 ≤ (items.map fun item => item.count * Code.widthOfByte item.code).sum ∧
          e = .lengthOverflow) ∧
      (∀ item ∈ items, item.kind? = none → item.count * Code.widthOfByte item.code = 0) ∧
      (∀ others, items.Perm others → packedSize others = packedSize items) ∧
      ∀ front item back total bytes next, items = front ++ item :: back →
        sizeFrom 0 front = some total →
        checkedMul item.count (Code.widthOfByte item.code) = some bytes →
        checkedAdd total bytes = some next →
        total = (front.map fun item => item.count * Code.widthOfByte item.code).sum ∧
          bytes = item.count * Code.widthOfByte item.code ∧ next = total + bytes := by
  refine ⟨fun size => ?_, fun e => ?_, ?_, fun others => packedSize_perm, ?_⟩
  · rw [← totalSize_eq_sum]
    exact packedSize_eq_ok_iff items size
  · rw [← totalSize_eq_sum]
    exact packedSize_eq_error_iff items e
  · intro item _ hkind
    rw [Code.widthOfByte, show Code.ofByte? item.code = none from hkind, Nat.mul_zero]
  · intro front item back total bytes next _ htotal hbytes hnext
    obtain ⟨hexact, hlt⟩ := eq_totalSize_of_sizeFrom htotal
    rw [← totalSize_eq_sum]
    exact ⟨hexact, eq_mul_of_checkedMul hbytes, eq_add_of_checkedAdd hlt hnext⟩

/-- Padding, a code outside the alphabet and one element reach the last size that can be
counted, and one byte more is too many. -/
theorem packedSize_exact_limit :
    let pad : Item := ⟨2 ^ 64 - 9, 'x'.toUInt8⟩
    let unknown : Item := ⟨2 ^ 64 - 1, 0⟩
    let element : Item := ⟨1, 'q'.toUInt8⟩
    packedSize [pad, unknown, element] = .ok (2 ^ 64 - 1) ∧
      packedSize [pad, unknown, element, ⟨1, '?'.toUInt8⟩] = .error .lengthOverflow ∧
      unknown.count * Code.widthOfByte unknown.code = 0 ∧
      packedSize [element, unknown, pad] = packedSize [pad, unknown, element] ∧
      checkedAdd (2 ^ 64 - 9) 8 = some (2 ^ 64 - 1) ∧ 2 ^ 64 - 1 = 2 ^ 64 - 9 + 8 := by
  intro pad unknown element
  have hexact := packedSize_exact [pad, unknown, element]
  refine ⟨(hexact.1 _).mpr ⟨by decide, by decide⟩, ?_, ?_, ?_, by decide, ?_⟩
  · exact ((packedSize_exact [pad, unknown, element, ⟨1, '?'.toUInt8⟩]).2.1 _).mpr
      ⟨by decide, rfl⟩
  · exact hexact.2.2.1 unknown (by decide) (by decide)
  · exact hexact.2.2.2.1 _ (List.reverse_perm _).symm
  · exact (hexact.2.2.2.2 [pad, unknown] element [] (2 ^ 64 - 9) 8 (2 ^ 64 - 1) rfl (by decide)
      (by decide) (by decide)).2.2

end PackedRecord
