import PackedRecord.Proofs.Field.RoundTrip

/-!
Counted texts of any width.

The length of a counted text is kept in one byte. The parser cuts the width of
such a field to 255, where every length fits; an item made by hand may be wider.
The text itself is then packed as far as there is room, but its length is kept
modulo 256, and only so much of it is read back.
-/

namespace PackedRecord

namespace Item

section Pack

variable {s : Store} {target text : View} {count offset : Nat}
  (hfit : offset + count ≤ target.size) (htext : s.Valid text) (hapart : text.Apart target)
include hfit htext hapart

/-- A text apart from the target fills its field as it is. -/
theorem pack_counted (order : ByteOrder) (values : List Value) :
    pack ⟨count, 'p'.toUInt8⟩ order target (.bytes text :: values) s offset =
      ⟨s.patch target.block (target.offset + offset) ((s.bytes text).fitCounted count),
        ⟨offset + count, 1⟩, none⟩ := by
  have hkind : kind? ⟨count, 'p'.toUInt8⟩ = some .counted := rfl
  obtain ⟨data, -, hplace, hdata⟩ := placeCounted_patch (s := s) text hfit
  rw [hdata htext, Store.bytes_fill_of_apart hfit hapart] at hplace
  simp only [pack, hkind, packText, Value.view?, View.field?_eq_some hfit, hplace]

/-- The field then holds the text behind its length. -/
theorem bytes_pack_counted (hvalid : s.Valid target) (order : ByteOrder) (values : List Value) :
    (pack ⟨count, 'p'.toUInt8⟩ order target (.bytes text :: values) s offset).store.bytes
        (target.slice offset (offset + count)) =
      (s.bytes text).fitCounted count := by
  have hlength := Bytes.length_fitCounted count (s.bytes text)
  have hfield := Store.bytes_patch_slice hvalid
    (show offset + ((s.bytes text).fitCounted count).length ≤ target.size by
      rw [hlength]; exact hfit)
  rw [hlength] at hfield
  rw [pack_counted hfit htext hapart]
  exact hfield

end Pack

/-- A field of a counted text shows what stands behind its length. -/
theorem unpack_counted {s : Store} {source : View} {count offset : Nat} (hvalid : s.Valid source)
    (hfit : offset + count ≤ source.size) (order : ByteOrder) :
    let read := unpack ⟨count, 'p'.toUInt8⟩ order s source offset
    read.fault = none ∧ read.offset = offset + count ∧
      read.values.map (·.shown s) =
        [.bytes (s.bytes (source.slice offset (offset + count))).counted] := by
  have hkind : kind? ⟨count, 'p'.toUInt8⟩ = some .counted := rfl
  have hfield := Store.valid_slice hvalid offset (offset + count)
  simp only [unpack, hkind, unpackField, View.field?_eq_some hfit, List.map_singleton, Value.shown,
    bytes_countedText hfield, and_self]

/-- A text that is packed into a field of any width and read back comes out cut to the room
of the field, if its length fits into a byte then, and else cut to that length modulo 256. -/
theorem unpack_pack_counted {s : Store} {target text : View} {count offset : Nat}
    (hcount : 1 ≤ count) (hfit : offset + count ≤ target.size) (hvalid : s.Valid target)
    (htext : s.Valid text) (hapart : text.Apart target) (order readOrder : ByteOrder)
    (values : List Value) :
    let item : Item := ⟨count, 'p'.toUInt8⟩
    let packed := item.pack order target (.bytes text :: values) s offset
    let read := item.unpack readOrder packed.store target offset
    let length := min (s.bytes text).length (count - 1)
    let shown := read.values.map (·.shown packed.store)
    packed.fault = none ∧ packed.progress = ⟨offset + count, 1⟩ ∧
      packed.store.bytes (target.slice offset (offset + count)) =
        UInt8.ofNat length :: (s.bytes text).fit (count - 1) ∧
      read.fault = none ∧ read.offset = offset + count ∧
      shown = [.bytes ((s.bytes text).take (length % 2 ^ 8))] ∧
      (shown = [.bytes ((s.bytes text).take length)] ↔ length < 2 ^ 8) := by
  intro item packed read length shown
  obtain ⟨room, rfl⟩ : ∃ room, count = room + 1 := ⟨count - 1, by omega⟩
  have hpacked := pack_counted hfit htext hapart order values
  have hbytes := bytes_pack_counted hfit htext hapart hvalid order values
  have hstill : packed.store.Valid target := by
    simp only [packed, item, hpacked]
    exact Store.valid_patch.mpr hvalid
  obtain ⟨hfault, hoffset, hread⟩ := unpack_counted hstill hfit readOrder
  have hshown : shown = [.bytes ((s.bytes text).take (length % 2 ^ 8))] := by
    simp only [shown, read, item, hread]
    rw [hbytes, Bytes.counted_fitCounted_succ]
    rfl
  refine ⟨?_, ?_, hbytes, hfault, hoffset, hshown, ?_⟩
  · simp only [packed, item, hpacked]
  · simp only [packed, item, hpacked]
  · have hle : length ≤ (s.bytes text).length := Nat.min_le_left _ _
    simp only [hshown, List.cons.injEq, Shown.bytes.injEq, and_true, List.take_eq_take_iff]
    omega

/-- A text of 256 bytes in a field that has room for it: nothing of it is read back. -/
theorem unpack_pack_counted_length_lost :
    let s : Store := ⟨[List.replicate 257 0, List.replicate 256 65]⟩
    let target : View := ⟨0, 0, 257⟩
    let text : View := ⟨1, 0, 256⟩
    let item : Item := ⟨257, 'p'.toUInt8⟩
    let packed := item.pack .big target [.bytes text] s 0
    let shown := (item.unpack .big packed.store target 0).values.map (·.shown packed.store)
    1 ≤ 257 ∧ 0 + 257 ≤ target.size ∧ s.Valid target ∧ s.Valid text ∧ text.Apart target ∧
      packed.fault = none ∧ shown = [.bytes []] ∧
      shown ≠ [.bytes ((s.bytes text).take (min (s.bytes text).length (257 - 1)))] := by
  intro s target text item packed shown
  have hvalid : s.Valid target := by decide +kernel
  have htext : s.Valid text := by decide +kernel
  have hapart : text.Apart target := by
    rintro b i ⟨htext, -⟩ ⟨htarget, -⟩
    exact absurd (htext.symm.trans htarget) (by decide)
  have hlength : (s.bytes text).length = 256 := Store.length_bytes htext
  obtain ⟨hfault, -, -, -, -, hread, hwhole⟩ := unpack_pack_counted (show 1 ≤ 257 by decide)
    (show 0 + 257 ≤ target.size by decide) hvalid htext hapart .big .big []
  rw [hlength] at hread hwhole
  refine ⟨by decide, by decide, hvalid, htext, hapart, hfault, hread, ?_⟩
  rw [hlength]
  exact fun hall => absurd (hwhole.mp hall) (by decide)

end Item

end PackedRecord
