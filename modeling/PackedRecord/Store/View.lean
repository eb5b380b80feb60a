import PackedRecord.Bytes

/-!
Views.

A view names an interval of cells of one block. Cutting a view gives a view of
the same block, so several views may show the same cells. The bounds of a cut
are clamped to the view, and a cut that holds nothing names no block at all:
every empty view made here is the same one.
-/

namespace PackedRecord

structure View where
  block : Nat
  offset : Nat
  size : Nat
  deriving DecidableEq, Repr

namespace View

def empty : View := ⟨0, 0, 0⟩

/-- The cells from `start` up to `stop`, both clamped to the view. -/
def slice (v : View) (start stop : Nat) : View :=
  let first := min start v.size
  let last := min stop v.size
  if last ≤ first then empty else ⟨v.block, v.offset + first, last - first⟩

def drop (v : View) (start : Nat) : View :=
  v.slice start v.size

/-- A field of the given width, when it lies within the view. The width is compared
with the room behind the offset, so that no sum is formed before it is known to be
within the view. -/
def field? (v : View) (offset width : Nat) : Option View :=
  if v.size < offset ∨ v.size - offset < width then none
  else some (v.slice offset (offset + width))

/-- Cell `i` of block `b` is one of the view's. -/
def Covers (v : View) (b i : Nat) : Prop :=
  b = v.block ∧ v.offset ≤ i ∧ i < v.offset + v.size

instance (v : View) (b i : Nat) : Decidable (v.Covers b i) := by
  unfold Covers
  infer_instance

theorem size_slice (v : View) (start stop : Nat) :
    (v.slice start stop).size = min stop v.size - min start v.size := by
  by_cases h : min stop v.size ≤ min start v.size
  · simp [slice, empty, h]
  · simp [slice, h]

/-- There is no field exactly when it would end past the view. -/
theorem field?_eq_none_iff (v : View) (offset width : Nat) :
    v.field? offset width = none ↔ v.size < offset + width := by
  unfold field?
  split
  · simp only [true_iff]
    omega
  · simp only [reduceCtorEq, false_iff]
    omega

theorem field?_eq_some {v : View} {offset width : Nat} (h : offset + width ≤ v.size) :
    v.field? offset width = some (v.slice offset (offset + width)) :=
  if_neg (by omega)

theorem eq_slice_of_field {v field : View} {offset width : Nat}
    (h : v.field? offset width = some field) :
    field = v.slice offset (offset + width) ∧ offset + width ≤ v.size := by
  unfold field? at h
  split at h
  · contradiction
  · exact ⟨(Option.some.inj h).symm, by omega⟩

/-- A cut covers only cells of the view it was cut from. -/
theorem Covers.of_slice {v : View} {start stop b i : Nat}
    (h : (v.slice start stop).Covers b i) : v.Covers b i := by
  by_cases hle : min stop v.size ≤ min start v.size
  · simp only [slice, hle, if_true, Covers, empty] at h
    omega
  · simp only [slice, hle, if_false, Covers] at h
    refine ⟨h.1, ?_, ?_⟩ <;> omega

end View

end PackedRecord
