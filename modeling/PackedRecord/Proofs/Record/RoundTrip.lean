import Mathlib.Data.List.Forall2
import PackedRecord.Proofs.Field.RoundTrip
import PackedRecord.Proofs.Record.Fresh
import PackedRecord.Proofs.Record.Read

/-!
Packing and unpacking again.

The slots that take a value yield one each, so the values come back in their
order, every one as what is left of it in its slot. Neither a count of zero nor
padding lets the two sides drift apart, since both walk over the same slots.
-/

namespace PackedRecord

/-- The slots that take a value. -/
def valueSlots (slots : List Slot) : List Slot :=
  slots.filter (·.shape.taken == 1)

/-- The number of values that an item takes. -/
def Item.valueCount (item : Item) : Nat :=
  match item.kind? with
  | none | some .pad => 0
  | some (.scalar _) => item.count
  | some .string | some .counted => 1

theorem Shape.taken_cases (shape : Shape) : shape.taken = 0 ∨ shape.taken = 1 := by
  cases shape <;> simp [taken]

theorem valueSlots_cons_of_zero {slot : Slot} (h : slot.shape.taken = 0) (slots : List Slot) :
    valueSlots (slot :: slots) = valueSlots slots :=
  List.filter_cons_of_neg (by simp [h])

theorem valueSlots_cons_of_one {slot : Slot} (h : slot.shape.taken = 1) (slots : List Slot) :
    valueSlots (slot :: slots) = slot :: valueSlots slots :=
  List.filter_cons_of_pos (by simp [h])

theorem sum_taken (slots : List Slot) :
    (slots.map (·.shape.taken)).sum = (valueSlots slots).length := by
  induction slots with
  | nil => rfl
  | cons slot slots ih =>
      rw [List.map_cons, List.sum_cons, ih]
      rcases slot.shape.taken_cases with h | h
      · rw [valueSlots_cons_of_zero h, h, Nat.zero_add]
      · rw [valueSlots_cons_of_one h, h, List.length_cons, Nat.add_comm]

theorem Item.length_valueSlots (item : Item) :
    (valueSlots item.slots).length = item.valueCount := by
  rw [← sum_taken]
  rw [slots, valueCount]
  cases item.kind? with
  | none => rfl
  | some code =>
      cases code with
      | scalar scalar => simp [Shape.taken]
      | pad | string | counted => rfl

theorem length_valueSlots_slotsOf (items : List Item) :
    (valueSlots (slotsOf items)).length = (items.map Item.valueCount).sum := by
  induction items with
  | nil => rfl
  | cons item items ih =>
      rw [slotsOf_cons, valueSlots, List.filter_append, List.length_append, List.map_cons,
        List.sum_cons, ← ih, ← item.length_valueSlots]
      rfl

end PackedRecord
