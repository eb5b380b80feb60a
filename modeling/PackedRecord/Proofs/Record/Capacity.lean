import PackedRecord.Proofs.Format.Size
import PackedRecord.Record.Capacity

/-!
The check before a record.

A buffer passes exactly when the items end within it and their size is below
the size limit, and the check then reports that size. It has no failures but an
overflow of the size and a buffer that is too small.
-/

namespace PackedRecord

theorem checkCapacity_of_fits {items : List Item} {actual : Nat}
    (h : (checkCapacity items actual).2 = none) :
    checkCapacity items actual = (⟨totalSize items, actual⟩, none) ∧
      totalSize items ≤ actual ∧ totalSize items < sizeLimit := by
  rw [checkCapacity] at h ⊢
  cases hsize : packedSize items with
  | error e => simp [hsize] at h
  | ok required =>
      obtain ⟨rfl, hlt⟩ := (packedSize_eq_ok_iff items required).mp hsize
      simp only [hsize] at h
      by_cases hsmall : actual < totalSize items
      · rw [if_pos hsmall] at h
        contradiction
      · refine ⟨?_, by omega, hlt⟩
        simp only [if_neg hsmall]

theorem checkCapacity_of_le {items : List Item} {actual : Nat} (h : totalSize items ≤ actual)
    (hlt : totalSize items < sizeLimit) :
    checkCapacity items actual = (⟨totalSize items, actual⟩, none) := by
  have hsize := (packedSize_eq_ok_iff items (totalSize items)).mpr ⟨rfl, hlt⟩
  simp only [checkCapacity, hsize]
  rw [if_neg (by omega)]

theorem checkCapacity_of_overflow {items : List Item} {actual : Nat}
    (h : sizeLimit ≤ totalSize items) :
    checkCapacity items actual = (⟨0, actual⟩, some .sizeOverflow) := by
  rw [checkCapacity]
  cases hsize : packedSize items with
  | error e => rfl
  | ok required =>
      obtain ⟨rfl, hlt⟩ := (packedSize_eq_ok_iff items required).mp hsize
      omega

theorem checkCapacity_of_small {items : List Item} {actual : Nat}
    (h : totalSize items < sizeLimit) (hsmall : actual < totalSize items) :
    checkCapacity items actual =
      (⟨totalSize items, actual⟩, some (.tooSmall (totalSize items) actual)) := by
  have hsize := (packedSize_eq_ok_iff items (totalSize items)).mpr ⟨rfl, h⟩
  simp only [checkCapacity, hsize, if_pos hsmall]

theorem fault_checkCapacity {items : List Item} {actual : Nat} {failure : Failure}
    (h : (checkCapacity items actual).2 = some failure) :
    failure.fault = .pack .lengthOverflow ∨ failure.fault = .pack .bufferTooSmall := by
  rw [checkCapacity] at h
  split at h
  · obtain rfl := Option.some.inj h
    exact .inl rfl
  · rename_i required _
    by_cases hsmall : actual < required
    · rw [if_pos hsmall] at h
      obtain rfl := Option.some.inj h
      exact .inr rfl
    · rw [if_neg hsmall] at h
      contradiction

end PackedRecord
