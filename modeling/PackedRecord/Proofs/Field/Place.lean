import PackedRecord.Proofs.Field.Slot

/-!
Texts in their fields.

A text is placed by several writes: zeros over the whole field, the text over
the zeros, and for a counted text the length over the first cell. Together
they are one patch of the width of the field. The text is read behind the zeros,
so the zeros are part of it where it shares cells with its field; a text apart
from the target is cut or zero-filled as it was.
-/

namespace PackedRecord

theorem Store.fill_slice (s : Store) {v : View} {offset width : Nat} {value : UInt8}
    (h : offset + width ≤ v.size) :
    s.fill (v.slice offset (offset + width)) value =
      s.patch v.block (v.offset + offset) (List.replicate width value) := by
  have hsize : (v.slice offset (offset + width)).size = width := by
    rw [View.size_slice]
    omega
  rw [Store.fill, hsize]
  exact Store.write_slice s (Nat.le_of_eq (by rw [List.length_replicate])) h

theorem Bytes.take_append_zeros (text : Bytes) (width : Nat) :
    text.take width ++ List.replicate (width - (text.take width).length) 0 = text.fit width := by
  have hroom : width - (text.take width).length = width - text.length := by
    rw [List.length_take]
    omega
  rw [hroom]
  rfl

theorem Store.bytes_fill_slice {s : Store} {v : View} {offset width : Nat} {value : UInt8}
    (hv : s.Valid v) (h : offset + width ≤ v.size) :
    (s.fill (v.slice offset (offset + width)) value).bytes (v.slice offset (offset + width)) =
      List.replicate width value := by
  let data : Bytes := List.replicate width value
  have hdata : data.length = width := List.length_replicate
  have hshown := bytes_patch_slice hv (show offset + data.length ≤ v.size by rw [hdata]; exact h)
  rw [hdata] at hshown
  rw [fill_slice s h]
  exact hshown

/-- A field that is filled is not seen by texts apart from its view. -/
theorem Store.bytes_fill_of_apart {s : Store} {target text : View} {offset width : Nat}
    {value : UInt8} (h : offset + width ≤ target.size) (hapart : text.Apart target) :
    (s.fill (target.slice offset (offset + width)) value).bytes text = s.bytes text := by
  rw [Store.fill_slice s h]
  exact Shown.bytes.inj (Value.shown_patch (.bytes text) hapart
    (by rw [List.length_replicate]; exact h))

namespace Item

variable {s : Store} {target : View} {offset : Nat}

/-- A string field holds the text as it reads after the zeros were written. -/
theorem placeString_patch (text : View) {count : Nat} (h : offset + count ≤ target.size) :
    let field := target.slice offset (offset + count)
    placeString count s text field =
      s.patch target.block (target.offset + offset) (((s.fill field 0).bytes text).fit count) := by
  intro field
  let filled := s.patch target.block (target.offset + offset) (List.replicate count 0)
  let content := (filled.bytes text).take count
  have hfill : s.fill field 0 = filled := Store.fill_slice s h
  have hcontent : content.length ≤ count := List.length_take_le _ _
  have hplace : placeString count s text field = filled.write (field.drop 0) content := by
    rw [show content = filled.bytes (text.slice 0 count) from
      (Store.bytes_slice filled text 0 count).symm, ← hfill]
    rfl
  rw [hfill, hplace, View.drop_slice (by omega) h, Nat.add_zero,
    Store.write_slice filled (by omega) h, Store.patch_patch_over s _ _
      (by rw [List.length_replicate]; exact hcontent), List.drop_replicate,
    ← Bytes.take_append_zeros]

theorem placeCounted_patch (text : View) {count : Nat} (h : offset + count ≤ target.size) :
    let field := target.slice offset (offset + count)
    ∃ data, data.length = count ∧
      placeCounted count s text field = s.patch target.block (target.offset + offset) data ∧
      (s.Valid text → data = ((s.fill field 0).bytes text).fitCounted count) := by
  cases count with
  | zero => exact ⟨[], rfl, (Store.patch_nil s _ _).symm, fun _ => rfl⟩
  | succ room =>
      intro field
      let filled := s.patch target.block (target.offset + offset) (List.replicate (room + 1) 0)
      let content := (filled.bytes text).take room
      let length : UInt8 := UInt8.ofNat (min (text.slice 0 room).size room)
      have hfill : s.fill field 0 = filled := Store.fill_slice s h
      have hcontent : content.length ≤ room := List.length_take_le _ _
      have hroom : (field.drop 1).size = room := by
        rw [View.drop_slice (by omega) h, View.size_slice]
        omega
      have hplace : placeCounted (room + 1) s text field =
          (filled.write (field.drop 1) content).write field [length] := by
        rw [show content = filled.bytes (text.slice 0 room) from
          (Store.bytes_slice filled text 0 room).symm, ← hfill]
        simp only [placeCounted, Store.copy, hroom]
        rfl
      have htext : overwrite (List.replicate (room + 1) 0) 1 content =
          0 :: (filled.bytes text).fit room := by
        rw [List.replicate_succ, overwrite_succ,
          overwrite_zero (by rw [List.length_replicate]; exact hcontent), List.drop_replicate,
          Bytes.take_append_zeros]
      refine ⟨length :: (filled.bytes text).fit room, ?_, ?_, ?_⟩
      · rw [List.length_cons, Bytes.length_fit]
      · rw [hplace, View.drop_slice (by omega) h, Store.write_slice filled (by omega) h,
          ← Nat.add_assoc, Store.patch_patch_within s _ _ _ _
            (by rw [List.length_replicate]; omega), htext,
          Store.write_slice _ (by simp only [List.length_cons, List.length_nil]; omega) h,
          Store.patch_patch_over s _ _ (by simp)]
        rfl
      · intro hvalid
        have hlength : length = UInt8.ofNat (min (filled.bytes text).length room) := by
          rw [Store.length_bytes (Store.valid_patch.mpr hvalid)]
          simp only [length, View.size_slice]
          congr 1
          omega
        rw [hfill, hlength]
        rfl

end Item

end PackedRecord
