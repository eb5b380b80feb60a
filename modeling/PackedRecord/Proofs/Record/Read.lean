import Mathlib.Data.List.TakeWhile
import PackedRecord.Proofs.Field.Read
import PackedRecord.Proofs.Format.Parsed
import PackedRecord.Proofs.Record.Capacity
import PackedRecord.Record.Unpack

/-!
Unpacking a record reads its slots.

A buffer that is large enough is read to the end of the items before the first
unknown code. A parsed format has no such code, so unpacking by it succeeds
whatever the buffer holds.
-/

namespace PackedRecord

/-- Unpacking reads the slots of the items before the first unknown code. -/
theorem unpackItems_read (order : ByteOrder) (s : Store) (source : View) (items : List Item)
    (offset : Nat) (hfit : offset + totalSize items ≤ source.size) :
    unpackItems order s source items offset =
      (readSlots order s source (slotsOf (items.takeWhile (·.kind?.isSome))) offset,
        (items.find? (·.kind?.isNone)).map .unknownCode) := by
  induction items generalizing offset with
  | nil => rfl
  | cons item items ih =>
      rw [totalSize_cons] at hfit
      cases hkind : item.kind? with
      | none =>
          simp only [unpackItems, Item.unpack, hkind, List.takeWhile_cons, List.find?_cons,
            Option.isSome_none, Option.isNone_none]
          rfl
      | some code =>
          have hknown : item.kind?.isSome := by rw [hkind]; rfl
          have hnone : item.kind?.isNone = false := by rw [hkind]; rfl
          have hitem := Item.unpack_read order s source hknown
            (show offset + item.size ≤ source.size by omega)
          have hrest := ih (offset + item.size) (by omega)
          simp only [unpackItems, hitem, hrest, List.takeWhile_cons, hknown, if_true, slotsOf_cons,
            readSlots_append, item.slotsWidth_slots, List.find?_cons, hnone]

/-- Unpacking a buffer that is large enough. -/
theorem Format.unpack_of_fits {format : Format} {source : View}
    (h : (checkCapacity format.items source.size).2 = none) (s : Store) :
    format.unpack s source =
      let failure := (format.items.find? (·.kind?.isNone)).map Failure.unknownCode
      ⟨readSlots format.order s source (slotsOf (format.items.takeWhile (·.kind?.isSome))) 0,
        ⟨totalSize format.items, source.size⟩, failure,
        failure.toList.map Operation.unpack.logEntry⟩ := by
  obtain ⟨hcheck, hsize, -⟩ := checkCapacity_of_fits h
  have hread := unpackItems_read format.order s source format.items 0
    (by rw [Nat.zero_add]; exact hsize)
  simp only [unpack, readFrom, hcheck, hread]

/-- A parsed format has no unknown code at which reading could stop. -/
theorem Format.readFrom_of_parse {text : Bytes} {format : Format} {source : View}
    (hparse : Format.parse text = .ok format) (hroom : totalSize format.items ≤ source.size)
    (s : Store) :
    format.readFrom s source =
      (readSlots format.order s source (slotsOf format.items) 0, none) := by
  have hknown := Format.isSome_kind?_of_parse hparse
  have hfind : format.items.find? (·.kind?.isNone) = none := by
    apply List.find?_eq_none.mpr
    intro item hitem hnone
    have hsome := hknown item hitem
    rw [Option.isNone_iff_eq_none.mp hnone] at hsome
    contradiction
  rw [readFrom, unpackItems_read _ _ _ _ _ (by omega), hfind, List.takeWhile_eq_self_iff.mpr hknown]
  rfl

theorem unpack_of_parse {text : Bytes} {format : Format} {source : View}
    (hparse : Format.parse text = .ok format)
    (hfits : (checkCapacity format.items source.size).2 = none) (s : Store) :
    unpack text s source =
      ⟨readSlots format.order s source (slotsOf format.items) 0,
        ⟨totalSize format.items, source.size⟩, none, []⟩ := by
  obtain ⟨hcheck, hsize, -⟩ := checkCapacity_of_fits hfits
  simp only [unpack, Format.ofText, hparse, Format.unpack, hcheck,
    Format.readFrom_of_parse hparse hsize]
  rfl

/-- A buffer that is large enough shows the slots of a parsed format. -/
theorem shown_unpack_of_parse {text : Bytes} {format : Format} {s : Store} {source : View}
    (hparse : Format.parse text = .ok format) (hvalid : s.Valid source)
    (hroom : totalSize format.items ≤ source.size) (hlimit : totalSize format.items < sizeLimit) :
    (unpack text s source).failure = none ∧
      (unpack text s source).values.map (·.shown s) =
        shownSlots format.order (slotsOf format.items) (s.bytes source) := by
  rw [unpack_of_parse hparse (by rw [checkCapacity_of_le hroom hlimit])]
  exact ⟨rfl, shown_readSlots format.order hvalid _ 0⟩

end PackedRecord
