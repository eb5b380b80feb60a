import PackedRecord.Proofs.Record.Outcome
import PackedRecord.Proofs.Store.Insert

/-!
Packing into new buffers.

A new buffer is exactly as long as the format needs and stands apart from all
values. So packing into it has no failure but those of the slots, and leaves
nothing in it but their bytes.
-/

namespace PackedRecord

theorem maxBufferSize_lt : maxBufferSize < sizeLimit := by decide

theorem pack_of_parse {text : Bytes} {format : Format} (hparse : Format.parse text = .ok format)
    (hsize : totalSize format.items ≤ maxBufferSize) (s : Store) (values : List Value) :
    pack text s values =
      format.packInto (s.alloc (totalSize format.items)).1 (s.alloc (totalSize format.items)).2
        values := by
  have hlimit := maxBufferSize_lt
  have hpacked := (packedSize_eq_ok_iff format.items (totalSize format.items)).mpr
    ⟨rfl, by omega⟩
  simp only [pack, Format.ofText, hparse, hpacked, if_neg (Nat.not_lt.mpr hsize)]

/-- A packing into a new buffer that succeeds had a format, and room for it. -/
theorem exists_format_of_pack {text : Bytes} {s : Store} {values : List Value}
    (h : (pack text s values).failure = none) :
    ∃ format, Format.parse text = .ok format ∧ totalSize format.items ≤ maxBufferSize := by
  rw [pack, Format.ofText] at h
  cases hparse : Format.parse text with
  | error e =>
      rw [hparse] at h
      contradiction
  | ok format =>
      rw [hparse] at h
      cases hpacked : packedSize format.items with
      | error e =>
          simp only [hpacked] at h
          contradiction
      | ok required =>
          obtain ⟨htotal, -⟩ := (packedSize_eq_ok_iff format.items required).mp hpacked
          simp only [hpacked] at h
          split at h
          · contradiction
          · exact ⟨format, rfl, by omega⟩

theorem fits_alloc {items : List Item} (hsize : totalSize items ≤ maxBufferSize) (s : Store) :
    (checkCapacity items (s.alloc (totalSize items)).2.size).2 = none := by
  have hlimit := maxBufferSize_lt
  rw [Store.alloc, Store.size_insert, List.length_replicate,
    checkCapacity_of_le (Nat.le_refl _) (by omega)]

section

variable {text : Bytes} {format : Format} (hparse : Format.parse text = .ok format)
  (hsize : totalSize format.items ≤ maxBufferSize) (s : Store) (values : List Value)
include hparse hsize

theorem failure_pack_iff :
    (pack text s values).failure = none ↔
      ∀ i, slotFault? (slotsOf format.items) values i = none := by
  rw [pack_of_parse hparse hsize]
  exact format.failure_packInto_iff _ _ values (fits_alloc hsize s)

/-- A new buffer holds the bytes of the slots. -/
theorem pack_bytes (hvalid : ∀ value ∈ values, value.Valid s)
    (hfaults : ∀ i, slotFault? (slotsOf format.items) values i = none) :
    let packed := pack text s values
    packed.store.Valid packed.buffer ∧ packed.buffer.size = totalSize format.items ∧
      packed.store.bytes packed.buffer =
        slotBytes format.order s values (slotsOf format.items) 0 ∧
      packed.log =
        trailingNote (values.length - ((slotsOf format.items).map (·.shape.taken)).sum) := by
  have hnone := (failure_pack_iff hparse hsize s values).mpr hfaults
  have hfits := fits_alloc hsize s
  have htarget : (s.alloc (totalSize format.items)).1.Valid (s.alloc (totalSize format.items)).2 :=
    s.valid_insert _
  have hlength : (s.alloc (totalSize format.items)).2.size = totalSize format.items := by
    rw [Store.alloc, Store.size_insert, List.length_replicate]
  have hforeign : (s.alloc (totalSize format.items)).1.Foreign
      (s.alloc (totalSize format.items)).2 values := Store.foreign_insert _ hvalid
  have halike : List.Forall₂ (Value.Alike s (s.alloc (totalSize format.items)).1) values values :=
    (s.extends_insert _).forall_alike hvalid
  dsimp only
  rw [pack_of_parse hparse hsize] at hnone ⊢
  have hran := Format.packInto_ran hfits (s.alloc (totalSize format.items)).1 values
  obtain ⟨data, hstore, hwritten, hdata⟩ := hran.patched
  have hsizes : data.length = (s.alloc (totalSize format.items)).2.size := by
    rw [hwritten, hran.written_of_success hnone, hlength]
  rw [hran.buffer, hran.log_of_success hnone, hstore]
  refine ⟨Store.valid_patch.mpr htarget, hlength, ?_, rfl⟩
  rw [Store.bytes_patch_self htarget (Nat.le_of_eq hsizes),
    List.drop_eq_nil_of_le (by rw [Store.length_bytes htarget]; exact Nat.le_of_eq hsizes.symm),
    List.append_nil, hdata hforeign]
  exact slotBytes_of_alike _ halike _ _

end

end PackedRecord
