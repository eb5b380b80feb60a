import PackedRecord.Proofs.Field.Reach

/-!
Packing an item fills its slots.

An item that lies within the target is packed as the plan for its slots says.
So no access of its elements fails for want of room: the only faults are those
of slots.
-/

namespace PackedRecord

namespace Item

theorem size_of_kind {item : Item} {code : Code} (h : item.kind? = some code) :
    item.size = item.count * code.width := by
  rw [kind?] at h
  simp only [size, Code.widthOfByte, h]

theorem size_of_unknown {item : Item} (h : item.kind? = none) : item.size = 0 := by
  rw [kind?] at h
  simp only [size, Code.widthOfByte, h, Nat.mul_zero]

theorem slotsWidth_slots (item : Item) : slotsWidth item.slots = item.size := by
  cases h : item.kind? with
  | none => simp [slots, h, slotsWidth, Shape.width, size_of_unknown h]
  | some code =>
      rw [size_of_kind h]
      cases code with
      | scalar scalar =>
          simp [slots, h, slotsWidth, Shape.width, Code.width]
      | pad | string | counted =>
          simp [slots, h, slotsWidth, Shape.width, Code.width]

end Item

theorem slotsWidth_slotsOf (items : List Item) :
    slotsWidth (slotsOf items) = totalSize items := by
  induction items with
  | nil => rfl
  | cons item items ih =>
      rw [slotsOf_cons, slotsWidth_append, item.slotsWidth_slots, ih, totalSize_cons]

/-- The step of an item, behind items that took `base` values, is a run over slots. -/
structure ItemPacked.Over (step : ItemPacked) (order : ByteOrder) (s : Store) (target : View)
    (values : List Value) (base : Nat) (slots : List Slot) (p : Progress) : Prop where
  store : step.store = placeSlots order target values slots s p
  reached : ⟨step.progress.offset, base + step.progress.consumed⟩ =
    (fillSlots values slots p).progress
  fault : step.fault = (fillSlots values slots p).stopped.map fun stop => .pack stop.2

/-- Where there is room for all slots, a step stops for no reason but a fault of a slot. -/
theorem ItemPacked.Reached.over {step : ItemPacked} {order : ByteOrder} {s : Store}
    {target : View} {values : List Value} {base : Nat} {slots : List Slot} {p : Progress} {n : Nat}
    (h : step.Reached order s target values base slots p n)
    (hfit : p.offset + slotsWidth slots ≤ target.size) :
    step.Over order s target values base slots p := by
  cases hfault : step.fault with
  | none =>
      have hall : slots.take n = slots := by rw [h.completed hfault, List.take_length]
      have hfilling := h.filling
      rw [hall] at hfilling
      refine ⟨?_, ?_, ?_⟩
      · rw [h.store, hall]
      · rw [hfilling]
      · rw [hfault, hfilling]
        rfl
  | some fault =>
      obtain ⟨slot, hslot, hstops⟩ := h.stopped fault hfault
      obtain ⟨hlt, rfl⟩ := List.getElem?_eq_some_iff.mp hslot
      have hsplit : slots.take n ++ slots[n] :: slots.drop (n + 1) = slots := by
        rw [← List.drop_eq_getElem_cons hlt, List.take_append_drop]
      cases hstops with
      | room hnone hroom =>
          have hoffset := h.offset_eq
          have hwidth : slotsWidth slots = slotsWidth (slots.take n) +
              (slots[n].shape.width + slotsWidth (slots.drop (n + 1))) := by
            conv_lhs => rw [← hsplit, slotsWidth_append]
            rfl
          omega
      | own hown =>
          have hnone : (fillSlots values (slots.take n) p).stopped = none := by rw [h.filling]
          have hplace := placeSlots_append order target values (slots.take n)
            (slots[n] :: slots.drop (n + 1)) s p
          have hfill := fillSlots_append values (slots.take n) (slots[n] :: slots.drop (n + 1)) p
          rw [if_pos hnone, hsplit, h.filling] at hplace hfill
          rw [fillSlots_cons_of_fault hown] at hfill
          rw [placeSlots_cons_of_fault order target hown] at hplace
          refine ⟨?_, ?_, ?_⟩
          · rw [h.store, hplace]
          · rw [hfill]
          · rw [hfault, hfill]
            rfl

namespace Item

/-- Packing an item that lies within the target is a run over its slots. -/
theorem pack_over (item : Item) (order : ByteOrder) (s : Store) (target : View)
    (values : List Value) (p : Progress) (hfit : p.offset + item.size ≤ target.size) :
    (item.pack order target (values.drop p.consumed) s p.offset).Over order s target values
      p.consumed item.slots p := by
  obtain ⟨n, hreached⟩ := item.pack_reached order s target values p
  exact hreached.over (by rw [item.slotsWidth_slots]; exact hfit)

end Item

end PackedRecord
