import PackedRecord.Proofs.Field.Fault

/-!
Runs over joined slots and joined values.

A run that nothing stops has looked at no value behind those it took, so it is
the same run when more values follow. If it took them all, the slots behind it
find their values just where a run of their own would.
-/

namespace PackedRecord

/-- Only padding can be filled without a value. -/
theorem Shape.exists_pad_of_fault? {shape : Shape} (h : shape.fault? none = none) :
    ∃ width, shape = .pad width := by
  cases shape with
  | pad width => exact ⟨width, rfl⟩
  | element _ | string _ | counted _ | unknown => contradiction

section

variable {first : List Value} {shape : Shape} {n : Nat} (h : shape.fault? first[n]? = none)
  (second : List Value)
include h

theorem Shape.fault?_append : shape.fault? (first ++ second)[n]? = none := by
  rcases Nat.lt_or_ge n first.length with hlt | hge
  · rwa [List.getElem?_append_left hlt]
  · rw [List.getElem?_eq_none hge] at h
    obtain ⟨width, rfl⟩ := exists_pad_of_fault? h
    rfl

theorem Shape.encode?_append (order : ByteOrder) (s : Store) :
    shape.encode? order s (first ++ second)[n]? = shape.encode? order s first[n]? := by
  rcases Nat.lt_or_ge n first.length with hlt | hge
  · rw [List.getElem?_append_left hlt]
  · rw [List.getElem?_eq_none hge] at h
    obtain ⟨width, rfl⟩ := exists_pad_of_fault? h
    rfl

end

section

variable {first second : List Value} {xs ys : List Slot}

/-- Values behind those that a run takes make no difference to it. -/
theorem fillSlots_append_values (second : List Value) {p : Progress}
    (h : (fillSlots first xs p).stopped = none) :
    fillSlots (first ++ second) xs p = fillSlots first xs p := by
  induction xs generalizing p with
  | nil => rfl
  | cons slot xs ih =>
      cases hf : slot.shape.fault? first[p.consumed]? with
      | some e =>
          rw [fillSlots_cons_of_fault hf] at h
          contradiction
      | none =>
          rw [fillSlots_cons_of_none hf] at h ⊢
          rw [fillSlots_cons_of_none (Shape.fault?_append hf second), ih h]

theorem slotBytes_append_values (order : ByteOrder) (s : Store) (second : List Value)
    {p : Progress} (h : (fillSlots first xs p).stopped = none) :
    slotBytes order s (first ++ second) xs p.consumed = slotBytes order s first xs p.consumed := by
  induction xs generalizing p with
  | nil => rfl
  | cons slot xs ih =>
      cases hf : slot.shape.fault? first[p.consumed]? with
      | some e =>
          rw [fillSlots_cons_of_fault hf] at h
          contradiction
      | none =>
          rw [fillSlots_cons_of_none hf] at h
          simp only [slotBytes, Shape.encode?_append hf second, ih h]

variable (hxs : (fillSlots first xs ⟨0, 0⟩).stopped = none)
  (hall : (fillSlots first xs ⟨0, 0⟩).progress.consumed = first.length)
include hxs hall

theorem stopped_fillSlots_joined (hys : (fillSlots second ys ⟨0, 0⟩).stopped = none) :
    (fillSlots (first ++ second) (xs ++ ys) ⟨0, 0⟩).stopped = none := by
  have hfront := fillSlots_append_values second hxs
  rw [fillSlots_append, hfront, if_pos hxs, stopped_fillSlots_eq_none_iff, hall, List.drop_left]
  exact (stopped_fillSlots_eq_none_iff second ys ⟨0, 0⟩).mp hys

theorem slotBytes_joined (order : ByteOrder) (s : Store) :
    slotBytes order s (first ++ second) (xs ++ ys) 0 =
      slotBytes order s first xs 0 ++ slotBytes order s second ys 0 := by
  have hfront := fillSlots_append_values second hxs
  have happend := slotBytes_append order s (first ++ second) xs ys ⟨0, 0⟩
  rw [hfront, if_pos hxs, hall] at happend
  calc slotBytes order s (first ++ second) (xs ++ ys) 0
      = slotBytes order s (first ++ second) xs 0 ++
          slotBytes order s (first ++ second) ys first.length := happend
    _ = slotBytes order s first xs 0 ++ slotBytes order s second ys 0 := by
          rw [slotBytes_append_values order s second hxs, slotBytes_drop order s _ ys first.length,
            List.drop_left]

end

end PackedRecord
