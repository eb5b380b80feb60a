import PackedRecord.Proofs.Field.Fill

/-!
The first fault.

Each slot takes its value from where the slots before it have left off, so
whether it can be filled is known without running anything. A run over slots
gets to the first that cannot be filled, if there is one, and all slots before
it take no more values than there are.
-/

namespace PackedRecord

/-- The number of values that the slots before slot `i` take. -/
def valueIndex (slots : List Slot) (i : Nat) : Nat :=
  ((slots.take i).map (·.shape.taken)).sum

/-- Why slot `i` cannot be filled. -/
def slotFault? (slots : List Slot) (values : List Value) (i : Nat) : Option PackError :=
  slots[i]?.bind fun slot => slot.shape.fault? values[valueIndex slots i]?

/-- Slot `i` has a fault, and no slot before it has one. -/
structure FirstFault (slots : List Slot) (values : List Value) (i : Nat) (e : PackError) :
    Prop where
  fault : slotFault? slots values i = some e
  before : ∀ j, j < i → slotFault? slots values j = none

section

variable {slots : List Slot} {values : List Value}

theorem valueIndex_succ (slot : Slot) (slots : List Slot) (i : Nat) :
    valueIndex (slot :: slots) (i + 1) = slot.shape.taken + valueIndex slots i := rfl

theorem slotFault?_zero (slot : Slot) (slots : List Slot) (values : List Value) :
    slotFault? (slot :: slots) values 0 = slot.shape.fault? values[0]? := rfl

theorem slotFault?_succ (slot : Slot) (slots : List Slot) (values : List Value) (i : Nat) :
    slotFault? (slot :: slots) values (i + 1) =
      slotFault? slots (values.drop slot.shape.taken) i := by
  simp only [slotFault?, List.getElem?_cons_succ, valueIndex_succ, List.getElem?_drop]

theorem slotFault?_of_alike {s t : Store} {others : List Value}
    (h : List.Forall₂ (Value.Alike s t) values others) (i : Nat) :
    slotFault? slots others i = slotFault? slots values i := by
  simp only [slotFault?]
  cases slots[i]? with
  | none => rfl
  | some slot => exact slot.shape.fault?_of_alike (getElem?_alike h _)

/-- The plan of a run in terms of the faults of single slots. -/
theorem fillSlots_cases (values : List Value) (slots : List Slot) (p : Progress) :
    ((∀ i, slotFault? slots (values.drop p.consumed) i = none) ∧
      (fillSlots values slots p).stopped = none) ∨
    ∃ i slot e, slots[i]? = some slot ∧ FirstFault slots (values.drop p.consumed) i e ∧
      fillSlots values slots p =
        ⟨⟨p.offset + slotsWidth (slots.take i), p.consumed + valueIndex slots i⟩,
          some (slot, e)⟩ := by
  induction slots generalizing p with
  | nil => exact .inl ⟨fun i => rfl, rfl⟩
  | cons slot slots ih =>
      have hzero : slotFault? (slot :: slots) (values.drop p.consumed) 0 =
          slot.shape.fault? values[p.consumed]? := by
        rw [slotFault?_zero, List.getElem?_drop, Nat.add_zero]
      cases hf : slot.shape.fault? values[p.consumed]? with
      | some e =>
          rw [hf] at hzero
          refine .inr ⟨0, slot, e, rfl, ⟨hzero, ?_⟩, ?_⟩
          · intro j hj
            contradiction
          · rw [fillSlots_cons_of_fault hf]
            rfl
      | none =>
          rw [hf] at hzero
          rw [fillSlots_cons_of_none hf]
          have hsucc (i : Nat) : slotFault? (slot :: slots) (values.drop p.consumed) (i + 1) =
              slotFault? slots (values.drop (p.consumed + slot.shape.taken)) i := by
            rw [slotFault?_succ, List.drop_drop]
          rcases ih ⟨p.offset + slot.shape.width, p.consumed + slot.shape.taken⟩ with
            ⟨hall, hnone⟩ | ⟨i, stop, e, hslot, hfirst, hfill⟩
          · refine .inl ⟨?_, hnone⟩
            intro i
            cases i with
            | zero => exact hzero
            | succ i => exact (hsucc i).trans (hall i)
          · refine .inr ⟨i + 1, stop, e, hslot, ⟨(hsucc i).trans hfirst.fault, ?_⟩, ?_⟩
            · intro j hj
              cases j with
              | zero => exact hzero
              | succ j => exact (hsucc j).trans (hfirst.before j (by omega))
            · rw [hfill]
              simp only [valueIndex_succ, List.take_succ_cons, slotsWidth, List.map_cons,
                List.sum_cons, Nat.add_assoc]

/-- Nothing stops a run exactly when no slot has a fault. -/
theorem stopped_fillSlots_eq_none_iff (values : List Value) (slots : List Slot) (p : Progress) :
    (fillSlots values slots p).stopped = none ↔
      ∀ i, slotFault? slots (values.drop p.consumed) i = none := by
  cases fillSlots_cases values slots p with
  | inl hfilled => exact ⟨fun _ => hfilled.1, fun _ => hfilled.2⟩
  | inr hstopped =>
      obtain ⟨i, slot, e, -, hfirst, hfill⟩ := hstopped
      rw [hfill]
      refine ⟨fun hnone => by contradiction, ?_⟩
      intro hall
      have hfault := hfirst.fault
      rw [hall i] at hfault
      contradiction

theorem FirstFault.unique {i j : Nat} {e f : PackError} (hi : FirstFault slots values i e)
    (hj : FirstFault slots values j f) : i = j ∧ e = f := by
  have hij : i = j := by
    rcases Nat.lt_trichotomy i j with hlt | heq | hgt
    · have hnone := hj.before i hlt
      rw [hi.fault] at hnone
      contradiction
    · exact heq
    · have hnone := hi.before j hgt
      rw [hj.fault] at hnone
      contradiction
  subst hij
  exact ⟨rfl, Option.some.inj (hi.fault.symm.trans hj.fault)⟩

/-- Slots that are filled take no more values than there are. -/
theorem valueIndex_le {i : Nat} (h : ∀ j, j < i → slotFault? slots values j = none) :
    valueIndex slots i ≤ values.length := by
  induction i with
  | zero => exact Nat.zero_le _
  | succ i ih =>
      have hle := ih fun j hj => h j (by omega)
      cases hslot : slots[i]? with
      | none =>
          have hlen := List.getElem?_eq_none_iff.mp hslot
          rw [valueIndex] at hle ⊢
          rw [List.take_of_length_le (by omega)] at hle ⊢
          exact hle
      | some slot =>
          have hfault := h i (Nat.lt_succ_self i)
          simp only [slotFault?, hslot, Option.bind_some] at hfault
          have htaken := Shape.taken_le_of_fault? hfault hle
          have hsucc : valueIndex slots (i + 1) = valueIndex slots i + slot.shape.taken := by
            simp only [valueIndex, List.take_add_one, hslot, Option.toList_some, List.map_append,
              List.map_cons, List.map_nil, List.sum_append, List.sum_singleton]
          omega

/-- When the values run out, all of them have been taken. -/
theorem FirstFault.valueIndex_eq_length {i : Nat}
    (h : FirstFault slots values i .notEnoughValues) : valueIndex slots i = values.length := by
  have hle := valueIndex_le h.before
  have hfault := h.fault
  cases hslot : slots[i]? with
  | none => simp [slotFault?, hslot] at hfault
  | some slot =>
      simp only [slotFault?, hslot, Option.bind_some] at hfault
      cases hnext : values[valueIndex slots i]? with
      | none =>
          have hge := List.getElem?_eq_none_iff.mp hnext
          omega
      | some value =>
          rw [hnext] at hfault
          cases hshape : slot.shape <;> simp [hshape, Shape.fault?] at hfault

/-- The faults that slots have. -/
theorem FirstFault.error_cases {i : Nat} {e : PackError} (h : FirstFault slots values i e) :
    e = .unknownFormat ∨ e = .notEnoughValues ∨ e = .invalidArgument := by
  have hfault := h.fault
  cases hslot : slots[i]? with
  | none => simp [slotFault?, hslot] at hfault
  | some slot =>
      simp only [slotFault?, hslot, Option.bind_some] at hfault
      simp only [Shape.fault?] at hfault
      split at hfault <;> simp_all

end

end PackedRecord
