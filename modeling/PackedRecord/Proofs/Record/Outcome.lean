import PackedRecord.Proofs.Field.Fault
import PackedRecord.Proofs.Record.Run

/-!
The outcome of packing.

Packing into a buffer that is large enough succeeds when every slot can be
filled, and fails otherwise with the fault of the first that cannot. Its failure
counts all the values when they have run out, and otherwise names the place of
the value that was refused. No access ever falls outside the buffer.
-/

namespace PackedRecord

/-- The failure that a fault in a slot amounts to, when the slot would take the
value at an index. -/
def Slot.failure (slot : Slot) (values : List Value) (s : Store) (index : Nat) :
    PackError → Failure
  | .notEnoughValues => .notEnoughValues slot.item values.length
  | .invalidArgument => .invalidValue slot.item index (values[index]?.map (·.text s))
  | .unknownFormat => .unknownCode slot.item
  | e => .itemFailed slot.item (.pack e)

theorem Slot.fault_failure (slot : Slot) (values : List Value) (s : Store) (index : Nat)
    (e : PackError) : (slot.failure values s index e).fault = .pack e := by
  cases e <;> rfl

namespace Format

variable (format : Format) (s : Store) (target : View) (values : List Value)

/-- Packing into a buffer that is large enough fills all slots, or fails at the
first fault. -/
theorem failure_packInto_cases (hfits : (checkCapacity format.items target.size).2 = none) :
    let slots := slotsOf format.items
    let packed := format.packInto s target values
    ((∀ i, slotFault? slots values i = none) ∧ packed.failure = none) ∨
    ∃ i slot e, slots[i]? = some slot ∧ FirstFault slots values i e ∧
      packed.written = slotsWidth (slots.take i) ∧
      packed.failure = some (slot.failure values packed.store (valueIndex slots i) e) := by
  have hran := packInto_ran hfits s values
  have hfailure := hran.failure
  have hwritten := hran.written
  dsimp only
  cases fillSlots_cases values (slotsOf format.items) ⟨0, 0⟩ with
  | inl hfilled =>
      obtain ⟨hall, hnone⟩ := hfilled
      rw [plan, hnone] at hfailure
      exact .inl ⟨hall, hfailure⟩
  | inr hstopped =>
      obtain ⟨i, slot, e, hslot, hfirst, hfill⟩ := hstopped
      simp only [List.drop_zero, Nat.zero_add] at hfirst hfill
      rw [plan, hfill] at hfailure hwritten
      refine .inr ⟨i, slot, e, hslot, hfirst, hwritten, ?_⟩
      rw [hfailure]
      rcases hfirst.error_cases with rfl | rfl | rfl
      · rfl
      · simp only [Option.map_some, packFailure, Slot.failure, hfirst.valueIndex_eq_length]
      · rfl

theorem failure_packInto_iff (hfits : (checkCapacity format.items target.size).2 = none) :
    (format.packInto s target values).failure = none ↔
      ∀ i, slotFault? (slotsOf format.items) values i = none := by
  cases format.failure_packInto_cases s target values hfits with
  | inl hfilled => exact ⟨fun _ => hfilled.1, fun _ => hfilled.2⟩
  | inr hstopped =>
      obtain ⟨i, slot, e, -, hfirst, -, hfailure⟩ := hstopped
      rw [hfailure]
      refine ⟨fun hnone => by contradiction, ?_⟩
      intro hall
      have hfault := hfirst.fault
      rw [hall i] at hfault
      contradiction

/-- The exact outcome of packing: success when no slot has a fault, and else
the failure of the first fault from the left. -/
theorem packInto_outcome (hfits : (checkCapacity format.items target.size).2 = none) :
    let slots := slotsOf format.items
    let packed := format.packInto s target values
    (packed.failure = none ↔ ∀ i, slotFault? slots values i = none) ∧
    (∀ failure, packed.failure = some failure ↔
      ∃ i slot e, slots[i]? = some slot ∧ FirstFault slots values i e ∧
        failure = slot.failure values packed.store (valueIndex slots i) e ∧
        failure.fault = .pack e) ∧
    ∀ failure, packed.failure = some failure → failure.fault ≠ .core .outOfRange := by
  refine ⟨format.failure_packInto_iff s target values hfits, ?_, ?_⟩
  · intro failure
    constructor
    · intro hfailure
      cases format.failure_packInto_cases s target values hfits with
      | inl hfilled =>
          rw [hfilled.2] at hfailure
          contradiction
      | inr hstopped =>
          obtain ⟨i, slot, e, hslot, hfirst, -, hsome⟩ := hstopped
          obtain rfl := Option.some.inj (hfailure.symm.trans hsome)
          exact ⟨i, slot, e, hslot, hfirst, rfl, slot.fault_failure _ _ _ e⟩
    · rintro ⟨j, other, f, hother, hfirst', rfl, -⟩
      cases format.failure_packInto_cases s target values hfits with
      | inl hfilled =>
          have hfault := hfirst'.fault
          rw [hfilled.1 j] at hfault
          contradiction
      | inr hstopped =>
          obtain ⟨i, slot, e, hslot, hfirst, -, hsome⟩ := hstopped
          obtain ⟨rfl, rfl⟩ := hfirst.unique hfirst'
          obtain rfl := Option.some.inj (hslot.symm.trans hother)
          exact hsome
  · intro failure hfailure
    cases format.failure_packInto_cases s target values hfits with
    | inl hfilled =>
        rw [hfilled.2] at hfailure
        contradiction
    | inr hstopped =>
        obtain ⟨i, slot, e, -, -, -, hsome⟩ := hstopped
        obtain rfl := Option.some.inj (hfailure.symm.trans hsome)
        rw [slot.fault_failure]
        intro hcore
        contradiction

/-- Two half-words, an unknown code behind them, and values that run out. -/
theorem packInto_outcome_missing_value :
    (checkCapacity [⟨2, 'h'.toUInt8⟩, ⟨1, 'z'.toUInt8⟩] 4).2 = none ∧
    (packInto ⟨.little, [⟨2, 'h'.toUInt8⟩, ⟨1, 'z'.toUInt8⟩]⟩ ⟨[[0, 0, 0, 0]]⟩ ⟨0, 0, 4⟩
      [.int 7]).failure = some (.notEnoughValues ⟨2, 'h'.toUInt8⟩ 1) := by
  have hfits : (checkCapacity [⟨2, 'h'.toUInt8⟩, ⟨1, 'z'.toUInt8⟩] 4).2 = none := by decide
  have houtcome := packInto_outcome ⟨.little, [⟨2, 'h'.toUInt8⟩, ⟨1, 'z'.toUInt8⟩]⟩
    ⟨[[0, 0, 0, 0]]⟩ ⟨0, 0, 4⟩ [.int 7] hfits
  refine ⟨hfits, (houtcome.2.1 _).mpr ⟨1, ⟨⟨2, 'h'.toUInt8⟩, .element (.integer true .short)⟩,
    .notEnoughValues, by decide, ⟨by decide, ?_⟩, rfl, rfl⟩⟩
  intro j hj
  obtain rfl : j = 0 := by omega
  decide

end Format

end PackedRecord
