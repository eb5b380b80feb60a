import PackedRecord.Proofs.ByteOrder
import PackedRecord.Proofs.Store.Confined

/-!
Words in a view.

An access within the view reads a cut of what the view shows, or patches the
cells of that cut; any other access is refused. So what a write leaves can be
read off the patch: no other cell changes, and the bytes that were there before
take everything back. Patches that have no cell in common can be made in either
order.
-/

namespace PackedRecord

/-- Runs that do not overlap can be laid down in either order. -/
theorem overwrite_comm (cells : Bytes) {i j : Nat} {d e : Bytes}
    (h : i + d.length ≤ j ∨ j + e.length ≤ i) :
    overwrite (overwrite cells i d) j e = overwrite (overwrite cells j e) i d := by
  apply List.ext_getElem?
  intro k
  by_cases hk : k < cells.length
  · rw [getElem?_overwrite _ _ _ _ (by rwa [length_overwrite]), getElem?_overwrite _ _ _ _ hk,
      getElem?_overwrite _ _ _ _ (by rwa [length_overwrite]), getElem?_overwrite _ _ _ _ hk]
    by_cases hd : i ≤ k ∧ k < i + d.length
    · rw [if_neg (by omega), if_pos hd, if_pos hd]
    · rw [if_neg hd, if_neg hd]
  · rw [List.getElem?_eq_none (by simp only [length_overwrite]; omega),
      List.getElem?_eq_none (by simp only [length_overwrite]; omega)]

namespace Store

/-- A store is its blocks. -/
theorem eq_of_blocks {s t : Store} (hcount : t.blocks.length = s.blocks.length)
    (h : ∀ b, t.block b = s.block b) : t = s := by
  cases s
  cases t
  congr 1
  apply List.ext_getElem hcount
  intro b hleft hright
  have hblock := h b
  simp only [block, List.getD_eq_getElem?_getD, List.getElem?_eq_getElem hleft,
    List.getElem?_eq_getElem hright, Option.getD_some] at hblock
  exact hblock

theorem patch_comm (s : Store) (b : Nat) {i j : Nat} {d e : Bytes}
    (h : i + d.length ≤ j ∨ j + e.length ≤ i) :
    (s.patch b i d).patch b j e = (s.patch b j e).patch b i d := by
  simp only [patch, List.modify_modify_eq]
  congr 2
  funext cells
  exact overwrite_comm cells h

section Word

variable {s : Store} {v : View} (order : ByteOrder) {offset width : Nat}

theorem readWord_of_lt (h : v.size < offset + width) :
    s.readWord v order offset width = .error .outOfRange := by
  rw [readWord, (v.field?_eq_none_iff offset width).mpr h]

theorem writeWord_of_lt (h : v.size < offset + width) (n : Nat) :
    s.writeWord v order offset width n = .error .outOfRange := by
  rw [writeWord, (v.field?_eq_none_iff offset width).mpr h]

variable (hv : s.Valid v)
include hv

theorem length_field (h : offset + width ≤ v.size) :
    (s.bytes (v.slice offset (offset + width))).length = width := by
  rw [bytes_slice_add]
  exact length_cut (by rwa [length_bytes hv])

theorem readWord_of_le (h : offset + width ≤ v.size) :
    s.readWord v order offset width = .ok (order.decode (cut (s.bytes v) offset width)) := by
  rw [readWord, View.field?_eq_some h]
  simp only
  rw [order.load_eq_decode (length_field hv h), bytes_slice_add]

theorem writeWord_of_le (h : offset + width ≤ v.size) (n : Nat) :
    s.writeWord v order offset width n =
      .ok (s.patch v.block (v.offset + offset) (order.encode width n)) := by
  rw [writeWord, View.field?_eq_some h]
  simp only
  rw [order.store_eq_encode n (length_field hv h),
    write_slice s (Nat.le_of_eq (by rw [order.length_encode])) h]

/-- The cells of a cut that were patched. -/
theorem cut_bytes_patch {data : Bytes} (hdata : data.length = width) (h : offset + width ≤ v.size) :
    cut ((s.patch v.block (v.offset + offset) data).bytes v) offset width = data := by
  subst hdata
  rw [← bytes_slice_add]
  exact bytes_patch_slice hv h

/-- What a view showed takes back every change of its cells. -/
theorem patch_back {t : Store} (h : offset + width ≤ v.size)
    (hchange : s.Confined t (v.slice offset (offset + width))) :
    t.patch v.block (v.offset + offset) (cut (s.bytes v) offset width) = s := by
  have hlength : (cut (s.bytes v) offset width).length = width :=
    length_cut (by rwa [length_bytes hv])
  refine eq_of_blocks ((List.length_modify ..).trans hchange.count) fun b => ?_
  apply List.ext_getElem?
  intro i
  by_cases hi : i < (s.block b).length
  · have hin : i < (t.block b).length := by rwa [hchange.length]
    by_cases hcell : b = v.block ∧ v.offset + offset ≤ i ∧ i < v.offset + offset + width
    · obtain ⟨rfl, hge, hlt⟩ := hcell
      rw [block_patch, if_pos rfl, getElem?_overwrite _ _ _ _ hin, hlength, if_pos ⟨hge, hlt⟩,
        getElem?_cut, if_pos (by omega), bytes_eq_cut, getElem?_cut, if_pos (by omega)]
      congr 1
      omega
    · rw [getElem?_block_patch _ _ _ _ _ _ (by rwa [hlength])]
      refine hchange.outside b i fun hcovers => hcell ?_
      rw [View.slice] at hcovers
      split at hcovers
      · exact absurd hcovers.2.2 (Nat.not_lt.mpr hcovers.2.1)
      · obtain ⟨hb, hge, hlt⟩ := hcovers
        simp only at hge hlt
        exact ⟨hb, by omega, by omega⟩
  · rw [List.getElem?_eq_none (by rw [length_block_patch, hchange.length]; omega),
      List.getElem?_eq_none (by omega)]

end Word

end Store

end PackedRecord
