import PackedRecord.Proofs.Field.Pack
import PackedRecord.Proofs.Record.Capacity
import PackedRecord.Record.Pack

/-!
Packing a record fills its slots.

Once the capacity check has passed, every item lies within the target, and the
run over the items is the one planned for their slots: it stops at the slot at
which the plan stops, and its failure names that slot's item.
-/

namespace PackedRecord

theorem fault_packFailure (item : Item) (values : List Value) (s : Store) (consumed : Nat)
    (fault : Fault) : (packFailure item values s consumed fault).fault = fault := by
  cases fault with
  | core e => rfl
  | pack e => cases e <;> rfl

theorem mem_of_stopped {values : List Value} {slots : List Slot} {p : Progress} {slot : Slot}
    {e : PackError} (h : (fillSlots values slots p).stopped = some (slot, e)) :
    slot ∈ slots := by
  induction slots generalizing p with
  | nil => contradiction
  | cons first slots ih =>
      cases hf : first.shape.fault? values[p.consumed]? with
      | some f =>
          rw [fillSlots_cons_of_fault hf] at h
          obtain ⟨rfl, -⟩ := Prod.mk.inj (Option.some.inj h)
          exact List.mem_cons_self
      | none =>
          rw [fillSlots_cons_of_none hf] at h
          exact List.mem_cons_of_mem _ (ih h)

section

variable (order : ByteOrder) {target : View} (values : List Value)

/-- A run over items is the run over their slots. -/
theorem packItems_eq (items : List Item) (s : Store) (p : Progress)
    (hfit : p.offset + totalSize items ≤ target.size) :
    let t := placeSlots order target values (slotsOf items) s p
    let filling := fillSlots values (slotsOf items) p
    packItems order target values items s p =
      ⟨t, filling.progress, filling.stopped.map fun stop =>
        packFailure stop.1.item values t filling.progress.consumed (.pack stop.2)⟩ := by
  induction items generalizing s p with
  | nil => rfl
  | cons item items ih =>
      rw [totalSize_cons] at hfit
      have hitem := item.pack_over order s target values p (by omega)
      have hend := offset_fillSlots_le values item.slots p
      rw [item.slotsWidth_slots] at hend
      dsimp only at ih ⊢
      rw [packItems, slotsOf_cons, hitem.reached, hitem.store, hitem.fault]
      cases hstop : (fillSlots values item.slots p).stopped with
      | some stop =>
          have hsome : (fillSlots values item.slots p).stopped ≠ none := by
            rw [hstop]
            exact Option.some_ne_none _
          rw [placeSlots_append, if_neg hsome, fillSlots_append, if_neg hsome, hstop]
          simp only [Option.map_some, Item.item_of_mem_slots (mem_of_stopped hstop)]
      | none =>
          rw [placeSlots_append, if_pos hstop, fillSlots_append, if_pos hstop]
          exact ih _ _ (by omega)

end

/-- How far packing gets by a format, and the slot that stops it. -/
def Format.plan (format : Format) (values : List Value) : Filling :=
  fillSlots values (slotsOf format.items) ⟨0, 0⟩

/-- A packing into a buffer that is large enough went by its plan: it patched the
target from the first cell to the place it reached, and nothing else. -/
structure Format.Ran (format : Format) (s : Store) (target : View) (values : List Value)
    (packed : Packed) : Prop where
  buffer : packed.buffer = target
  extent : packed.extent = ⟨totalSize format.items, target.size⟩
  written : packed.written = (format.plan values).progress.offset
  failure : packed.failure = (format.plan values).stopped.map fun stop =>
    packFailure stop.1.item values packed.store (format.plan values).progress.consumed
      (.pack stop.2)
  log : packed.failure = none →
    packed.log = trailingNote (values.length - (format.plan values).progress.consumed)
  patched : ∃ data, packed.store = s.patch target.block target.offset data ∧
    data.length = packed.written ∧
    (s.Foreign target values → data = slotBytes format.order s values (slotsOf format.items) 0)

namespace Format

variable {format : Format} {target : View}

theorem packInto_of_refused {failure : Failure} {s : Store} {values : List Value}
    (h : (checkCapacity format.items target.size).2 = some failure) :
    format.packInto s target values =
      .refused s (checkCapacity format.items target.size).1 failure := by
  have hcheck : checkCapacity format.items target.size =
      ((checkCapacity format.items target.size).1, some failure) := Prod.ext rfl h
  rw [packInto, hcheck]

theorem packInto_ran (hfits : (checkCapacity format.items target.size).2 = none) (s : Store)
    (values : List Value) : format.Ran s target values (format.packInto s target values) := by
  obtain ⟨hcheck, hsize, -⟩ := checkCapacity_of_fits hfits
  have hrun := packItems_eq format.order values format.items s ⟨0, 0⟩
    (show 0 + totalSize format.items ≤ target.size by omega)
  have hfilled := placeSlots_filled format.order target values (slotsOf format.items) s ⟨0, 0⟩
    (show 0 + slotsWidth (slotsOf format.items) ≤ target.size by rw [slotsWidth_slotsOf]; omega)
  obtain ⟨data, hstore, hlength, hdata⟩ := hfilled.patched
  rw [Nat.zero_add] at hlength
  simp only [packInto, hcheck, hrun]
  cases hstop : (fillSlots values (slotsOf format.items) ⟨0, 0⟩).stopped with
  | some stop =>
      refine ⟨rfl, rfl, rfl, ?_, ?_, data, hstore, hlength, hdata⟩
      · rw [plan, hstop]
        rfl
      · intro hnone
        contradiction
  | none =>
      refine ⟨rfl, rfl, rfl, ?_, fun _ => rfl, data, hstore, hlength, hdata⟩
      rw [plan, hstop]
      rfl

theorem store_packInto (hfits : (checkCapacity format.items target.size).2 = none) (s : Store)
    (values : List Value) :
    (format.packInto s target values).store =
      placeSlots format.order target values (slotsOf format.items) s ⟨0, 0⟩ := by
  obtain ⟨hcheck, hsize, -⟩ := checkCapacity_of_fits hfits
  have hrun := packItems_eq format.order values format.items s ⟨0, 0⟩
    (show 0 + totalSize format.items ≤ target.size by omega)
  simp only [packInto, hcheck, hrun]
  cases (fillSlots values (slotsOf format.items) ⟨0, 0⟩).stopped <;> rfl

namespace Ran

variable {s : Store} {values : List Value} {packed : Packed}
  (h : format.Ran s target values packed)
include h

theorem written_le : packed.written ≤ totalSize format.items := by
  have hle := offset_fillSlots_le values (slotsOf format.items) ⟨0, 0⟩
  rw [slotsWidth_slotsOf, Nat.zero_add] at hle
  rw [h.written]
  exact hle

theorem stopped_of_success (hnone : packed.failure = none) :
    (format.plan values).stopped = none := by
  have hfailure := h.failure
  rw [hnone, eq_comm, Option.map_eq_none_iff] at hfailure
  exact hfailure

theorem written_of_success (hnone : packed.failure = none) :
    packed.written = totalSize format.items := by
  rw [h.written, plan, progress_fillSlots _ _ (h.stopped_of_success hnone), slotsWidth_slotsOf,
    Nat.zero_add]

/-- On success every slot that takes a value has taken one. -/
theorem log_of_success (hnone : packed.failure = none) :
    packed.log =
      trailingNote (values.length - ((slotsOf format.items).map (·.shape.taken)).sum) := by
  rw [h.log hnone, plan, progress_fillSlots _ _ (h.stopped_of_success hnone)]
  simp only [Nat.zero_add]

end Ran

end Format

end PackedRecord
