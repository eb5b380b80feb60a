import PackedRecord.Proofs.Field.Offset
import PackedRecord.Proofs.Record.Run

/-!
Records at an offset.

Items that are packed one by one, from some place in a buffer on, are packed as a
record into the rest of the buffer. The record is checked for room beforehand and
its items are not, so the two agree wherever the check passes.
-/

namespace PackedRecord

/-- Packs one more item behind those before it, unless one of them had a fault. -/
def ItemPacked.packNext (order : ByteOrder) (target : View) (values : List Value)
    (step : ItemPacked) (item : Item) : ItemPacked :=
  match step.fault with
  | some _ => step
  | none =>
      let p := step.progress
      let next := item.pack order target (values.drop p.consumed) step.store p.offset
      { next with progress := ⟨next.progress.offset, p.consumed + next.progress.consumed⟩ }

/-- Packs items one by one, each from the values and the offset that are next. -/
def packEach (order : ByteOrder) (target : View) (values : List Value) (items : List Item)
    (s : Store) (offset : Nat) : ItemPacked :=
  items.foldl (ItemPacked.packNext order target values) ⟨s, ⟨offset, 0⟩, none⟩

section

variable (order : ByteOrder) {target : View} (values : List Value)

theorem foldl_packNext_of_fault {step : ItemPacked} (h : step.fault ≠ none) (items : List Item) :
    items.foldl (ItemPacked.packNext order target values) step = step := by
  induction items with
  | nil => rfl
  | cons item items ih =>
      have hstays : step.packNext order target values item = step := by
        rw [ItemPacked.packNext]
        split
        · rfl
        · contradiction
      rw [List.foldl_cons, hstays, ih]

/-- The run over the items of a record packs them one by one. -/
theorem foldl_packNext_eq (items : List Item) (s : Store) (p : Progress) :
    let run := packItems order target values items s p
    items.foldl (ItemPacked.packNext order target values) ⟨s, p, none⟩ =
      ⟨run.store, run.progress, run.failure.map Failure.fault⟩ := by
  induction items generalizing s p with
  | nil => rfl
  | cons item items ih =>
      simp only [List.foldl_cons, packItems, ItemPacked.packNext]
      cases hfault : (item.pack order target (values.drop p.consumed) s p.offset).fault with
      | none => exact ih _ _
      | some fault =>
          rw [foldl_packNext_of_fault order values (by simp)]
          simp only [Option.map_some, fault_packFailure]

/-- A failure of a run is that of one of its items, where the run came to its end. -/
theorem exists_packFailure {items : List Item} {s : Store} {p : Progress} {failure : Failure}
    (h : (packItems order target values items s p).failure = some failure) :
    let run := packItems order target values items s p
    ∃ item ∈ items, failure =
      packFailure item values run.store run.progress.consumed failure.fault := by
  induction items generalizing s p with
  | nil => contradiction
  | cons item items ih =>
      simp only [packItems] at h ⊢
      cases hfault : (item.pack order target (values.drop p.consumed) s p.offset).fault with
      | none =>
          rw [hfault] at h
          obtain ⟨failed, hmem, hfailure⟩ := ih h
          exact ⟨failed, List.mem_cons_of_mem _ hmem, hfailure⟩
      | some fault =>
          rw [hfault] at h
          obtain rfl := Option.some.inj h
          exact ⟨item, List.mem_cons_self, by rw [fault_packFailure]⟩

/-- The run over items behind some cells is the run in the rest of the target. -/
theorem packItems_drop {n : Nat} (hn : n ≤ target.size) (items : List Item) (s : Store)
    (p : Progress) :
    let run := packItems order (target.drop n) values items s p
    packItems order target values items s (p.behind n) =
      { run with progress := run.progress.behind n } := by
  induction items generalizing s p with
  | nil => rfl
  | cons item items ih =>
      have hitem := item.pack_drop order hn (values.drop p.consumed) s p.offset
      rw [packItems, packItems, show (p.behind n).offset = n + p.offset from rfl,
        show (p.behind n).consumed = p.consumed from rfl, hitem]
      obtain ⟨t, q, fault⟩ := item.pack order (target.drop n) (values.drop p.consumed) s p.offset
      cases fault with
      | none => exact ih t ⟨q.offset, p.consumed + q.consumed⟩
      | some fault => rfl

theorem packEach_drop {n : Nat} (hn : n ≤ target.size) (items : List Item) (s : Store) :
    let run := packItems order (target.drop n) values items s ⟨0, 0⟩
    packEach order target values items s n =
      ⟨run.store, run.progress.behind n, run.failure.map Failure.fault⟩ := by
  have hrun := packItems_drop order values hn items s ⟨0, 0⟩
  rw [show Progress.behind n ⟨0, 0⟩ = ⟨n, 0⟩ from rfl] at hrun
  simp only [packEach, foldl_packNext_eq, hrun]

end

/-- Where a record has room, packing its items one by one from an offset on is packing it into
the rest of the target. -/
theorem packEach_eq_packInto {target : View} {n : Nat} (hn : n ≤ target.size) (format : Format)
    (s : Store) (values : List Value)
    (hfits : (checkCapacity format.items (target.drop n).size).2 = none) :
    let each := packEach format.order target values format.items s n
    let packed := format.packInto s (target.drop n) values
    let extent : Extent := ⟨totalSize format.items, target.size - n⟩
    each.progress.offset = n + packed.written ∧
      (each.fault = none →
        packed = ⟨each.store, target.drop n, extent, each.progress.offset - n, none,
          trailingNote (values.length - each.progress.consumed)⟩) ∧
      ∀ fault, each.fault = some fault → ∃ item ∈ format.items,
        let failure := packFailure item values each.store each.progress.consumed fault
        packed = ⟨each.store, target.drop n, extent, each.progress.offset - n, some failure,
          [Operation.pack.logEntry failure]⟩ := by
  intro each packed extent
  obtain ⟨hcheck, -, -⟩ := checkCapacity_of_fits hfits
  rw [View.size_drop] at hcheck
  have heach := packEach_drop format.order values hn format.items s
  simp only [each, packed, heach, Format.packInto, View.size_drop, hcheck, Progress.behind,
    Nat.add_sub_cancel_left]
  cases hfailure :
      (packItems format.order (target.drop n) values format.items s ⟨0, 0⟩).failure with
  | none =>
      refine ⟨rfl, fun _ => rfl, ?_⟩
      intro fault hfault
      contradiction
  | some failure =>
      refine ⟨rfl, fun hnone => absurd hnone (Option.some_ne_none _), ?_⟩
      intro fault hfault
      obtain rfl := Option.some.inj hfault
      obtain ⟨item, hitem, heq⟩ := exists_packFailure format.order values hfailure
      exact ⟨item, hitem, by rw [← heq]⟩

/-- What is done at an offset is what is done at the beginning of the rest of a buffer, item
by item, and so for all items of a record that has room there. -/
theorem offset_translated {target : View} {n : Nat} (hn : n ≤ target.size) (order : ByteOrder)
    (s : Store) :
    (∀ (item : Item) (values : List Value),
      let whole := item.pack order target values s n
      let rest := item.pack order (target.drop n) values s 0
      whole.fault = rest.fault ∧ whole.progress.consumed = rest.progress.consumed ∧
        whole.progress.offset = n + rest.progress.offset ∧ whole.store = rest.store) ∧
    (∀ item : Item, ∃ appended, ∀ present,
      let whole := item.unpackOnto order s target n present
      let rest := item.unpackOnto order s (target.drop n) 0 present
      whole.fault = rest.fault ∧ whole.values = present ++ appended ∧
        rest.values = present ++ appended ∧ whole.offset = n + rest.offset) ∧
    ∀ (format : Format) (values : List Value),
      let each := packEach format.order target values format.items s n
      let packed := format.packInto s (target.drop n) values
      let extent : Extent := ⟨totalSize format.items, target.size - n⟩
      (checkCapacity format.items (target.drop n).size).2 = none →
        each.progress.offset = n + packed.written ∧
          (each.fault = none →
            packed = ⟨each.store, target.drop n, extent, each.progress.offset - n, none,
              trailingNote (values.length - each.progress.consumed)⟩) ∧
          ∀ fault, each.fault = some fault → ∃ item ∈ format.items,
            let failure := packFailure item values each.store each.progress.consumed fault
            packed = ⟨each.store, target.drop n, extent, each.progress.offset - n, some failure,
              [Operation.pack.logEntry failure]⟩ := by
  refine ⟨?_, ?_, ?_⟩
  · intro item values whole rest
    have hwhole : whole = rest.behind n := item.pack_drop order hn values s 0
    rw [hwhole]
    exact ⟨rfl, rfl, rfl, rfl⟩
  · intro item
    have hwhole : item.unpack order s target n =
        (item.unpack order s (target.drop n) 0).behind n := item.unpack_drop order s hn 0
    refine ⟨(item.unpack order s (target.drop n) 0).values, ?_⟩
    intro present
    simp only [Item.unpackOnto_eq, hwhole, ItemUnpacked.behind, and_self]
  · intro format values each packed extent hfits
    exact packEach_eq_packInto hn format s values hfits

/-- A half-word and a text behind the first cell of a buffer. -/
theorem offset_translated_behind_one :
    let s : Store := ⟨[[9, 9, 9, 9, 9], [65, 66]]⟩
    let target : View := ⟨0, 0, 5⟩
    let format : Format := ⟨.big, [⟨1, 'H'.toUInt8⟩, ⟨2, 'p'.toUInt8⟩]⟩
    let values : List Value := [.int 258, .bytes ⟨1, 0, 2⟩]
    1 ≤ target.size ∧ (checkCapacity format.items (target.drop 1).size).2 = none ∧
      (packEach format.order target values format.items s 1).store =
        ⟨[[9, 1, 2, 1, 65], [65, 66]]⟩ := by
  intro s target format values
  have hfits : (checkCapacity format.items (target.drop 1).size).2 = none := by decide
  obtain ⟨-, -, hrecords⟩ := offset_translated (show 1 ≤ target.size by decide) format.order s
  obtain ⟨-, hsuccess, -⟩ := hrecords format values hfits
  have hpacked := hsuccess (by decide +kernel)
  refine ⟨by decide, hfits, (congrArg Packed.store hpacked).symm.trans ?_⟩
  decide +kernel

end PackedRecord
