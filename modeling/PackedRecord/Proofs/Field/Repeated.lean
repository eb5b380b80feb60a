import PackedRecord.Proofs.Field.Read

/-!
Slots in exchange for others.

Two lists of slots are interchangeable if every run over the one does what a run
over the other does: it leaves the same store, gets equally far, stops for the
same reason and reads the same values. Only the items that the slots belong to
may differ. A count of an element and as many single elements have slots of the
same shapes. Padding is one slot whatever its count; filled in one go or cell by
cell, it is the same zeros.
-/

namespace PackedRecord

structure Interchangeable (xs ys : List Slot) : Prop where
  width : slotsWidth ys = slotsWidth xs
  progress : ∀ (values : List Value) (p : Progress),
    (fillSlots values ys p).progress = (fillSlots values xs p).progress
  stopped : ∀ (values : List Value) (p : Progress),
    (fillSlots values ys p).stopped.map Prod.snd = (fillSlots values xs p).stopped.map Prod.snd
  place : ∀ (order : ByteOrder) (target : View) (values : List Value) (s : Store) (p : Progress),
    p.offset + slotsWidth xs ≤ target.size →
    placeSlots order target values ys s p = placeSlots order target values xs s p
  read : ∀ (order : ByteOrder) (s : Store) (source : View) (offset : Nat),
    readSlots order s source ys offset = readSlots order s source xs offset

namespace Interchangeable

theorem refl (xs : List Slot) : Interchangeable xs xs :=
  ⟨rfl, fun _ _ => rfl, fun _ _ => rfl, fun _ _ _ _ _ _ => rfl, fun _ _ _ _ => rfl⟩

section Append

variable {xs ys us vs : List Slot}

theorem stopped_eq_none_iff (h : Interchangeable xs ys) (values : List Value) (p : Progress) :
    (fillSlots values ys p).stopped = none ↔ (fillSlots values xs p).stopped = none := by
  rw [← Option.map_eq_none_iff (f := Prod.snd), h.stopped, Option.map_eq_none_iff]

theorem append (h : Interchangeable xs ys) (hrest : Interchangeable us vs) :
    Interchangeable (xs ++ us) (ys ++ vs) := by
  refine ⟨?_, ?_, ?_, ?_, ?_⟩
  · rw [slotsWidth_append, slotsWidth_append, h.width, hrest.width]
  · intro values p
    simp only [fillSlots_append, h.stopped_eq_none_iff, h.progress]
    split
    · exact hrest.progress _ _
    · exact h.progress _ _
  · intro values p
    simp only [fillSlots_append, h.stopped_eq_none_iff, h.progress]
    split
    · exact hrest.stopped _ _
    · exact h.stopped _ _
  · intro order target values s p hfit
    rw [slotsWidth_append] at hfit
    simp only [placeSlots_append, h.stopped_eq_none_iff, h.progress]
    rw [h.place _ _ _ _ _ (by omega)]
    split
    case isTrue hnone =>
      refine hrest.place _ _ _ _ _ ?_
      rw [progress_fillSlots xs p hnone]
      show p.offset + slotsWidth xs + slotsWidth us ≤ target.size
      omega
    case isFalse => rfl
  · intro order s source offset
    rw [readSlots_append, readSlots_append, h.read, hrest.read, h.width]

end Append

/-- A slot counts for its shape. -/
theorem of_shape (item other : Item) (shape : Shape) :
    Interchangeable [⟨item, shape⟩] [⟨other, shape⟩] := by
  refine ⟨rfl, ?_, ?_, fun _ _ _ _ _ _ => rfl, fun _ _ _ _ => rfl⟩
  all_goals
    intro values p
    simp only [fillSlots]
    cases shape.fault? values[p.consumed]? <;> rfl

theorem replicate (item other : Item) (shape : Shape) (n : Nat) :
    Interchangeable (List.replicate n ⟨item, shape⟩) (List.replicate n ⟨other, shape⟩) := by
  induction n with
  | zero => exact refl _
  | succ n ih => exact (of_shape item other shape).append ih

end Interchangeable

section Padding

variable (item : Item)

theorem slotsWidth_pads (n : Nat) : slotsWidth (List.replicate n ⟨item, .pad 1⟩) = n := by
  simp [slotsWidth, Shape.width]

theorem fillSlots_pads (values : List Value) (n : Nat) (p : Progress) :
    fillSlots values (List.replicate n ⟨item, .pad 1⟩) p = ⟨⟨p.offset + n, p.consumed⟩, none⟩ := by
  induction n generalizing p with
  | zero => rfl
  | succ n ih =>
      rw [List.replicate_succ, fillSlots_cons_of_none rfl, ih]
      simp only [Shape.width, Shape.taken, Nat.add_zero, Nat.add_assoc, Nat.add_comm 1]

theorem readSlots_pads (order : ByteOrder) (s : Store) (source : View) (n offset : Nat) :
    readSlots order s source (List.replicate n ⟨item, .pad 1⟩) offset = [] := by
  induction n generalizing offset with
  | zero => rfl
  | succ n ih =>
      rw [List.replicate_succ, readSlots, ih]
      rfl

/-- Zeros that are written cell by cell are a run of zeros. -/
theorem placeSlots_pads (order : ByteOrder) {target : View} (values : List Value) (n : Nat)
    (s : Store) (p : Progress) (hfit : p.offset + n ≤ target.size) :
    placeSlots order target values (List.replicate n ⟨item, .pad 1⟩) s p =
      s.patch target.block (target.offset + p.offset) (List.replicate n 0) := by
  induction n generalizing s p with
  | zero => exact (Store.patch_nil s _ _).symm
  | succ n ih =>
      have hcell : p.offset + 1 ≤ target.size := by omega
      simp only [List.replicate_succ, placeSlots, Shape.place?, Shape.width, Shape.taken]
      rw [Store.fill_slice s hcell, ih _ _ (by simp only; omega)]
      exact Store.patch_patch_append s _ _ [0] _

theorem interchangeable_pads (other : Item) (n : Nat) :
    Interchangeable [⟨item, .pad n⟩] (List.replicate n ⟨other, .pad 1⟩) := by
  refine ⟨?_, ?_, ?_, ?_, ?_⟩
  · rw [slotsWidth_pads]
    exact (Nat.add_zero n).symm
  · intro values p
    rw [fillSlots_pads]
    rfl
  · intro values p
    rw [fillSlots_pads]
    rfl
  · intro order target values s p hfit
    have hroom : p.offset + n ≤ target.size := hfit
    rw [placeSlots_pads other order values n s p hroom]
    exact (Store.fill_slice s hroom).symm
  · intro order s source offset
    rw [readSlots_pads]
    rfl

end Padding

theorem slotsOf_replicate {item : Item} {slot : Slot} (h : item.slots = [slot]) (n : Nat) :
    slotsOf (List.replicate n item) = List.replicate n slot := by
  induction n with
  | zero => rfl
  | succ n ih =>
      rw [List.replicate_succ, slotsOf_cons, h, ih]
      rfl

/-- As many items that count one. -/
def Item.copies (item : Item) : List Item :=
  List.replicate item.count ⟨1, item.code⟩

/-- An item counts its copies, unless it is a text. -/
theorem Item.slots_copies {item : Item} {code : Code} (hkind : item.kind? = some code)
    (hstring : code ≠ .string) (hcounted : code ≠ .counted) :
    Interchangeable item.slots (slotsOf item.copies) := by
  have hone : kind? ⟨1, item.code⟩ = some code := hkind
  cases code with
  | string | counted => contradiction
  | pad =>
      have hslots : slots ⟨1, item.code⟩ = [⟨⟨1, item.code⟩, .pad 1⟩] := by
        simp only [slots, hone]
      rw [copies, slotsOf_replicate hslots]
      simp only [slots, hkind]
      exact interchangeable_pads _ _ item.count
  | scalar scalar =>
      have hslots : slots ⟨1, item.code⟩ = [⟨⟨1, item.code⟩, .element scalar⟩] := by
        simp only [slots, hone, List.replicate_one]
      rw [copies, slotsOf_replicate hslots]
      simp only [slots, hkind]
      exact .replicate _ _ _ item.count

end PackedRecord
