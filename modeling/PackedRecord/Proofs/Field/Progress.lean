import PackedRecord.Proofs.Field.Pack

/-!
The progress of packing an item.

The progress that packing an item reports bounds what it wrote, wherever in a buffer
or beyond it the item was to begin. Elements are written one at a time, so a fault
leaves those before it; padding and a text are written as a whole or not at all.
-/

namespace PackedRecord

namespace Code

/-- The values that an item of a code takes. -/
def taken (count : Nat) : Code → Nat
  | pad => 0
  | scalar _ => count
  | string | counted => 1

/-- The width of the fields that an item of a code is written in. -/
def fieldWidth (count : Nat) : Code → Nat
  | scalar element => element.width
  | pad | string | counted => count

end Code

namespace Item

section Scalars

variable (scalar : Scalar) (order : ByteOrder) (target : View)

/-- The elements that were written before a fault are written alike when there are to be no
more of them. -/
theorem packScalars_prefix (count : Nat) (values : List Value) (s : Store) (p : Progress) :
    let step := packScalars scalar order target count values s p
    ∃ n, n ≤ count ∧ (step.fault = none ↔ n = count) ∧
      step.progress = ⟨p.offset + n * scalar.width, p.consumed + n⟩ ∧
      packScalars scalar order target n values s p = { step with fault := none } := by
  induction count generalizing values s p with
  | zero => exact ⟨0, Nat.le_refl 0, by simp [packScalars], by simp [packScalars], rfl⟩
  | succ count ih =>
      obtain ⟨fault, -, hstop⟩ | ⟨value, rest, word, field, -, -, -, hstep⟩ :=
        packScalars_succ_cases scalar order target count values s p
      · rw [hstop]
        exact ⟨0, Nat.zero_le _, by simp, by simp, by simp [packScalars]⟩
      · obtain ⟨n, hn, hfault, hprogress, hrun⟩ := ih rest (s.write field word)
          ⟨p.offset + scalar.width, p.consumed + 1⟩
        simp only [hstep]
        refine ⟨n + 1, Nat.succ_le_succ hn, ?_, ?_, hstep n ▸ hrun⟩
        · simp only [hfault, Nat.succ_inj]
        · simp only [hprogress, Nat.succ_mul]
          congr 1 <;> omega

/-- Each element that was written holds its value, as it was when the element was reached. -/
theorem packScalars_element {s : Store} (hvalid : s.Valid target) (values : List Value)
    (count i : Nat) (p : Progress)
    (hi : p.consumed + i <
      (packScalars scalar order target count (values.drop p.consumed) s p).progress.consumed) :
    ∃ value, values[p.consumed + i]? = some value ∧
      scalar.encode? order (packScalars scalar order target i (values.drop p.consumed) s p).store
          value =
        some ((packScalars scalar order target count (values.drop p.consumed) s p).store.bytes
          (target.slice (p.offset + i * scalar.width) (p.offset + (i + 1) * scalar.width))) := by
  induction count generalizing s p i with
  | zero =>
      simp only [packScalars] at hi
      omega
  | succ count ih =>
      obtain ⟨fault, -, hstop⟩ | ⟨value, rest, word, field, hnext, hword, hfield, hstep⟩ :=
        packScalars_succ_cases scalar order target count (values.drop p.consumed) s p
      · rw [hstop] at hi
        exact absurd hi (Nat.not_lt.mpr (Nat.le_add_right _ _))
      · obtain ⟨hslice, hroom⟩ := View.eq_slice_of_field hfield
        have hrest := drop_succ_of_drop_eq_cons hnext
        simp only [← hrest] at hstep
        rw [hstep] at hi ⊢
        cases i with
        | zero =>
            have hwritten : (s.write field word).bytes field = word := by
              rw [hslice]
              exact Store.bytes_write_field hvalid hroom (Scalar.length_encode? hword)
            obtain ⟨_, hreached⟩ := packScalars_reached order target values ⟨count, 0⟩
              scalar 0 count (s.write field word)
              ⟨p.offset + scalar.width, p.consumed + 1⟩
            simp only [Nat.zero_add] at hreached
            -- all later elements lie behind this one
            have hkept := hreached.confined.bytes_eq (target.apart_slice p.offset _ _)
            refine ⟨value, getElem?_of_drop_eq_cons hnext, ?_⟩
            simp only [packScalars, Nat.zero_mul, Nat.add_zero, Nat.zero_add, Nat.one_mul]
            rw [hword, hkept, ← hslice, hwritten]
        | succ i =>
            have hstill : (s.write field word).Valid target := Store.valid_write.mpr hvalid
            obtain ⟨later, hlater, hencode⟩ := ih hstill i
              ⟨p.offset + scalar.width, p.consumed + 1⟩ (by simp only; omega)
            refine ⟨later, ?_, ?_⟩
            · rw [← hlater, Nat.add_assoc, Nat.add_comm 1]
            · rw [hstep, hencode]
              congr 3 <;> simp only [Nat.succ_mul] <;> omega

end Scalars

theorem sum_taken_slots {item : Item} {code : Code} (h : item.kind? = some code) :
    (item.slots.map (·.shape.taken)).sum = code.taken item.count := by
  cases code with
  | scalar scalar => simp [slots, h, Shape.taken, Code.taken]
  | pad | string | counted => simp [slots, h, Shape.taken, Code.taken]

theorem width_of_mem_slots {item : Item} {code : Code} (h : item.kind? = some code) {slot : Slot}
    (hslot : slot ∈ item.slots) : slot.shape.width = code.fieldWidth item.count := by
  rw [slots, h] at hslot
  cases code with
  | scalar scalar =>
      rw [List.eq_of_mem_replicate hslot]
      rfl
  | pad | string | counted =>
      rw [List.mem_singleton.mp hslot]
      rfl

section Pack

variable {order : ByteOrder} {s : Store} {target : View} {values : List Value} {offset : Nat}

theorem progress_of_success {item : Item}
    (h : (item.pack order target values s offset).fault = none) :
    ∃ code, item.kind? = some code ∧ (item.pack order target values s offset).progress =
      ⟨offset + item.count * code.width, code.taken item.count⟩ := by
  cases hkind : item.kind? with
  | none =>
      simp only [pack, hkind] at h
      contradiction
  | some code =>
      obtain ⟨n, hreached⟩ := item.pack_reached order s target values ⟨offset, 0⟩
      have hoffset := hreached.offset_eq
      have hconsumed := hreached.consumed_eq
      rw [hreached.completed h, List.take_length] at hoffset hconsumed
      rw [slotsWidth_slots, size_of_kind hkind] at hoffset
      rw [sum_taken_slots hkind, Nat.zero_add, Nat.zero_add] at hconsumed
      exact ⟨code, rfl, congrArg₂ Progress.mk hoffset hconsumed⟩

/-- An item that is no scalar is written as a whole or not at all. -/
theorem pack_eq_of_fault {item : Item} (hkind : ∀ scalar, item.kind? ≠ some (.scalar scalar))
    {fault : Fault} (h : (item.pack order target values s offset).fault = some fault) :
    item.pack order target values s offset = ⟨s, ⟨offset, 0⟩, some fault⟩ := by
  obtain ⟨n, hreached⟩ := item.pack_reached order s target values ⟨offset, 0⟩
  obtain ⟨slot, hslot, -⟩ := hreached.stopped fault h
  have hsingle : item.slots.length = 1 := by
    rw [slots]
    split
    case h_3 scalar hscalar => exact absurd hscalar (hkind scalar)
    all_goals rfl
  obtain ⟨hlt, -⟩ := List.getElem?_eq_some_iff.mp hslot
  obtain ⟨hstore, hprogress⟩ := hreached.eq_start (show n = 0 by omega)
  rw [Nat.zero_add] at hprogress
  exact (ItemPacked.mk.injEq ..).mpr ⟨hstore, hprogress, h⟩

theorem room_of_outOfRange {item : Item}
    (h : (item.pack order target values s offset).fault = some (.core .outOfRange)) :
    ∃ code, item.kind? = some code ∧
      target.size < (item.pack order target values s offset).progress.offset +
        code.fieldWidth item.count := by
  cases hkind : item.kind? with
  | none =>
      simp only [pack, hkind] at h
      contradiction
  | some code =>
      obtain ⟨n, hreached⟩ := item.pack_reached order s target values ⟨offset, 0⟩
      obtain ⟨slot, hslot, hstops⟩ := hreached.stopped _ h
      cases hstops with
      | room _ hroom =>
          rw [width_of_mem_slots hkind (List.mem_of_getElem? hslot)] at hroom
          exact ⟨code, rfl, hroom⟩

/-- A step over a scalar item is one over as many elements as it consumed values. -/
theorem pack_scalars {item : Item} {scalar : Scalar} (hkind : item.kind? = some (.scalar scalar)) :
    let step := item.pack order target values s offset
    let consumed := step.progress.consumed
    consumed ≤ item.count ∧ (step.fault = none ↔ consumed = item.count) ∧
      step.progress.offset = offset + consumed * scalar.width ∧
      pack ⟨consumed, item.code⟩ order target values s offset = { step with fault := none } ∧
      (s.Valid target → ∀ i < consumed, ∃ value, values[i]? = some value ∧
        scalar.encode? order (pack ⟨i, item.code⟩ order target values s offset).store value =
          some (step.store.bytes
            (target.slice (offset + i * scalar.width) (offset + (i + 1) * scalar.width)))) := by
  intro step consumed
  have hpack (n : Nat) : pack ⟨n, item.code⟩ order target values s offset =
      packScalars scalar order target n values s ⟨offset, 0⟩ := by
    simp only [pack, show kind? ⟨n, item.code⟩ = _ from hkind]
  have hitem : item.pack order target values s offset = _ := hpack item.count
  obtain ⟨n, hn, hfault, hprogress, hrun⟩ :=
    packScalars_prefix scalar order target item.count values s ⟨offset, 0⟩
  have hconsumed : consumed = n := by
    simp only [consumed, step, hitem, hprogress, Nat.zero_add]
  rw [hconsumed, hpack n]
  refine ⟨hn, ?_, ?_, ?_, ?_⟩
  · simp only [step, hitem, hfault]
  · simp only [step, hitem, hprogress]
  · simp only [step, hitem, hrun]
  · intro hvalid i hi
    have helement := packScalars_element scalar order target hvalid values item.count i
      ⟨offset, 0⟩
      (by simp only [List.drop_zero, hprogress, Nat.zero_add]; exact hi)
    simp only [Nat.zero_add, List.drop_zero] at helement
    rw [hpack i]
    simp only [step, hitem]
    exact helement

end Pack

/-- Wherever an item is packed, the cells that its offset moved over are all that changes,
and the offset and the number of values that it took are those of what was written. -/
theorem pack_progress (item : Item) (order : ByteOrder) (s : Store) (target : View)
    (values : List Value) (offset : Nat) :
    let step := item.pack order target values s offset
    let reached := step.progress.offset
    let consumed := step.progress.consumed
    s.Confined step.store (target.slice offset reached) ∧
      offset ≤ reached ∧ reached ≤ max offset target.size ∧
      (offset < sizeLimit → target.size < sizeLimit → reached < sizeLimit) ∧
      (step.fault = none → ∃ code, item.kind? = some code ∧
        step.progress = ⟨offset + item.count * code.width, code.taken item.count⟩) ∧
      (∀ scalar, item.kind? = some (.scalar scalar) →
        consumed ≤ item.count ∧ (step.fault = none ↔ consumed = item.count) ∧
          reached = offset + consumed * scalar.width ∧
          pack ⟨consumed, item.code⟩ order target values s offset = { step with fault := none } ∧
          (s.Valid target → ∀ i < consumed, ∃ value, values[i]? = some value ∧
            scalar.encode? order (pack ⟨i, item.code⟩ order target values s offset).store value =
              some (step.store.bytes
                (target.slice (offset + i * scalar.width) (offset + (i + 1) * scalar.width))))) ∧
      (∀ fault, step.fault = some fault → (∀ scalar, item.kind? ≠ some (.scalar scalar)) →
        step = ⟨s, ⟨offset, 0⟩, some fault⟩) ∧
      (step.fault = some (.core .outOfRange) → ∃ code, item.kind? = some code ∧
        target.size < reached + code.fieldWidth item.count) := by
  intro step reached consumed
  obtain ⟨n, hreached⟩ := item.pack_reached order s target values ⟨offset, 0⟩
  obtain ⟨hge, hle⟩ := hreached.offset_le
  refine ⟨hreached.confined, hge, hle, ?_, progress_of_success, fun _ => pack_scalars,
    fun _ hfault hkind => pack_eq_of_fault hkind hfault, room_of_outOfRange⟩
  intro hoffset hsize
  exact Nat.lt_of_le_of_lt hle (Nat.max_lt.mpr ⟨hoffset, hsize⟩)

/-- The third half-word would end behind the last cell. -/
example : pack ⟨3, 'h'.toUInt8⟩ .big ⟨0, 0, 6⟩ [.int 1, .int 2, .int 3] ⟨[[9, 9, 9, 9, 9, 9]]⟩ 1 =
    ⟨⟨[[9, 0, 1, 0, 2, 9]]⟩, ⟨5, 2⟩, some (.core .outOfRange)⟩ := by
  decide +kernel

end Item

end PackedRecord
