import PackedRecord.Store.Basic

/-!
Patches.

A write lays a run of bytes over the cells of one block. Two patches side by
side are one patch with their data joined, and a patch within an earlier one is
the earlier one with changed data, so a sequence of writes into one field is a
single patch. Nothing but the patched cells changes, and a view of exactly
those cells shows the data.
-/

namespace PackedRecord

/-- The run of cells from `start` on, as the view that shows them. -/
def cut (cells : Bytes) (start size : Nat) : Bytes :=
  (cells.drop start).take size

theorem getElem?_cut (cells : Bytes) (start size i : Nat) :
    (cut cells start size)[i]? = if i < size then cells[start + i]? else none := by
  rw [cut, List.getElem?_take, List.getElem?_drop]

theorem cut_zero (cells : Bytes) (start : Nat) : cut cells start 0 = [] :=
  List.take_zero

theorem length_cut {cells : Bytes} {start size : Nat} (h : start + size ≤ cells.length) :
    (cut cells start size).length = size := by
  simp only [cut, List.length_take, List.length_drop]
  omega

/-- The cells of a cut that lie in front of an end. -/
theorem cut_take (cells : Bytes) (stop start size : Nat) :
    cut (cells.take stop) start size = cut cells start (min (start + size) stop - start) := by
  apply List.ext_getElem?
  intro k
  rw [getElem?_cut, getElem?_cut, List.getElem?_take]
  split
  · split
    · rw [if_pos (by omega)]
    · rw [if_neg (by omega)]
  · rw [if_neg (by omega)]

theorem cut_cut {cells : Bytes} {start size first length : Nat} (h : first + length ≤ size) :
    cut (cut cells start size) first length = cut cells (start + first) length := by
  apply List.ext_getElem?
  intro i
  simp only [getElem?_cut]
  split
  · rw [if_pos (by omega), Nat.add_assoc]
  · rfl

theorem overwrite_nil (cells : Bytes) (start : Nat) : overwrite cells start [] = cells := by
  simp [overwrite]

/-- Two runs laid side by side are one run. -/
theorem overwrite_append (cells : Bytes) (start : Nat) (d e : Bytes) :
    overwrite (overwrite cells start d) (start + d.length) e =
      overwrite cells start (d ++ e) := by
  apply List.ext_getElem?
  intro i
  by_cases hi : i < cells.length
  · rw [getElem?_overwrite _ _ _ _ (by rwa [length_overwrite]), getElem?_overwrite _ _ _ _ hi,
      getElem?_overwrite _ _ _ _ hi, List.length_append]
    by_cases hd : start ≤ i ∧ i < start + d.length
    · rw [if_neg (by omega), if_pos hd, if_pos (by omega), List.getElem?_append_left (by omega)]
    · rw [if_neg hd]
      by_cases he : start + d.length ≤ i ∧ i < start + d.length + e.length
      · rw [if_pos he, if_pos (by omega), List.getElem?_append_right (by omega)]
        congr 1
        omega
      · rw [if_neg he, if_neg (by omega)]
  · rw [List.getElem?_eq_none (by simp only [length_overwrite]; omega),
      List.getElem?_eq_none (by simp only [length_overwrite]; omega)]

/-- A run laid within an earlier one changes the data of that one. -/
theorem overwrite_within (cells : Bytes) (start : Nat) (d e : Bytes) {first : Nat}
    (h : first + e.length ≤ d.length) :
    overwrite (overwrite cells start d) (start + first) e =
      overwrite cells start (overwrite d first e) := by
  apply List.ext_getElem?
  intro i
  by_cases hi : i < cells.length
  · rw [getElem?_overwrite _ _ _ _ (by rwa [length_overwrite]), getElem?_overwrite _ _ _ _ hi,
      getElem?_overwrite _ _ _ _ hi, length_overwrite]
    by_cases hd : start ≤ i ∧ i < start + d.length
    · rw [if_pos hd, if_pos hd, getElem?_overwrite _ _ _ _ (by omega)]
      by_cases he : start + first ≤ i ∧ i < start + first + e.length
      · rw [if_pos he, if_pos (by omega)]
        congr 1
        omega
      · rw [if_neg he, if_neg (by omega)]
    · rw [if_neg hd, if_neg hd, if_neg (by omega)]
  · rw [List.getElem?_eq_none (by simp only [length_overwrite]; omega),
      List.getElem?_eq_none (by simp only [length_overwrite]; omega)]

theorem overwrite_zero {cells data : Bytes} (h : data.length ≤ cells.length) :
    overwrite cells 0 data = data ++ cells.drop data.length := by
  simp only [overwrite, List.take_zero, List.nil_append, Nat.sub_zero, Nat.zero_add]
  rw [List.take_of_length_le h]

theorem overwrite_succ (b : UInt8) (cells data : Bytes) (start : Nat) :
    overwrite (b :: cells) (start + 1) data = b :: overwrite cells start data := by
  simp only [overwrite, List.take_succ_cons, List.length_cons, List.cons_append]
  rw [Nat.add_right_comm, List.drop_succ_cons, Nat.add_sub_add_right]

namespace View

theorem slice_of_lt {v : View} {start stop : Nat} (h : start < stop) (hstop : stop ≤ v.size) :
    v.slice start stop = ⟨v.block, v.offset + start, stop - start⟩ := by
  have hfirst : min start v.size = start := by omega
  simp only [slice, hfirst, Nat.min_eq_left hstop]
  rw [if_neg (by omega)]

theorem slice_of_le {v : View} {start stop : Nat} (h : stop ≤ start) :
    v.slice start stop = empty := by
  simp only [slice]
  rw [if_pos (by omega)]

/-- A cut of a cut is a cut. -/
theorem slice_slice (v : View) (start stop first last : Nat) :
    (v.slice start stop).slice first last =
      v.slice (min start v.size + first) (min (min start v.size + last) stop) := by
  by_cases h : min stop v.size ≤ min start v.size
  · have houter : v.slice start stop = empty := if_pos h
    rw [houter]
    simp only [slice, empty, Nat.min_zero, Nat.le_refl, if_true]
    rw [if_pos (by omega)]
  · have houter : v.slice start stop =
        ⟨v.block, v.offset + min start v.size, min stop v.size - min start v.size⟩ := if_neg h
    have hfirst : min start v.size = start := by omega
    rw [houter, hfirst]
    simp only [slice, Nat.min_assoc]
    by_cases hcut : min last (min stop v.size - start) ≤ min first (min stop v.size - start)
    · rw [if_pos hcut, if_pos (by omega)]
    · rw [if_neg hcut, if_neg (by omega)]
      simp only [mk.injEq, true_and]
      omega

/-- A cut behind the beginning of a cut. -/
theorem drop_slice {v : View} {start stop n : Nat} (h : start + n ≤ stop)
    (hstop : stop ≤ v.size) : (v.slice start stop).drop n = v.slice (start + n) stop := by
  rw [drop, size_slice, slice_slice]
  congr 1 <;> omega

theorem size_drop (v : View) (n : Nat) : (v.drop n).size = v.size - n := by
  rw [drop, size_slice]
  omega

theorem drop_drop (v : View) (m n : Nat) : (v.drop m).drop n = v.drop (m + n) := by
  by_cases h : m ≤ v.size
  · rw [drop, size_drop, drop, slice_slice, drop]
    congr 1 <;> omega
  · have hempty : v.drop m = empty := if_pos (by omega)
    rw [hempty]
    exact (if_pos (by omega)).symm

end View

namespace Store

/-- Lays bytes over the cells of a block from `start` on. -/
def patch (s : Store) (b start : Nat) (data : Bytes) : Store :=
  ⟨s.blocks.modify b fun cells => overwrite cells start data⟩

theorem bytes_eq_cut (s : Store) (v : View) :
    s.bytes v = cut (s.block v.block) v.offset v.size := rfl

theorem length_bytes {s : Store} {v : View} (h : s.Valid v) : (s.bytes v).length = v.size :=
  length_cut h

theorem block_patch (s : Store) (b start : Nat) (data : Bytes) (c : Nat) :
    (s.patch b start data).block c =
      if c = b then overwrite (s.block c) start data else s.block c := by
  simp only [patch, block, List.getD_eq_getElem?_getD, List.getElem?_modify]
  by_cases h : b = c
  · subst h
    simp only [if_true]
    cases s.blocks[b]? with
    | none => simp [overwrite]
    | some cells => rfl
  · simp [h, Ne.symm h]

theorem length_block_patch (s : Store) (b start : Nat) (data : Bytes) (c : Nat) :
    ((s.patch b start data).block c).length = (s.block c).length := by
  rw [block_patch]
  split
  · exact length_overwrite _ _ _
  · rfl

theorem valid_patch {s : Store} {b start : Nat} {data : Bytes} {v : View} :
    (s.patch b start data).Valid v ↔ s.Valid v := by
  simp only [Valid]
  rw [length_block_patch]

theorem valid_write {s : Store} {v u : View} {data : Bytes} :
    (s.write v data).Valid u ↔ s.Valid u :=
  valid_patch

theorem patch_nil (s : Store) (b start : Nat) : s.patch b start [] = s := by
  have hid : (fun cells : Bytes => overwrite cells start []) = id := by
    funext cells
    exact overwrite_nil cells start
  simp only [patch, hid, List.modify_id]

theorem patch_patch_append (s : Store) (b start : Nat) (d e : Bytes) :
    (s.patch b start d).patch b (start + d.length) e = s.patch b start (d ++ e) := by
  simp only [patch, List.modify_modify_eq]
  congr 2
  funext cells
  exact overwrite_append cells start d e

theorem patch_patch_within (s : Store) (b start : Nat) (d e : Bytes) {first : Nat}
    (h : first + e.length ≤ d.length) :
    (s.patch b start d).patch b (start + first) e = s.patch b start (overwrite d first e) := by
  simp only [patch, List.modify_modify_eq]
  congr 2
  funext cells
  exact overwrite_within cells start d e h

/-- A patch over the beginning of an earlier one. -/
theorem patch_patch_over (s : Store) (b start : Nat) {d e : Bytes} (h : e.length ≤ d.length) :
    (s.patch b start d).patch b start e = s.patch b start (e ++ d.drop e.length) := by
  have hwithin := patch_patch_within s b start d e (show 0 + e.length ≤ d.length by omega)
  rwa [Nat.add_zero, overwrite_zero h] at hwithin

/-- Data that fits into a field of a view is written as a patch. -/
theorem write_slice (s : Store) {v : View} {start stop : Nat} {data : Bytes}
    (h : start + data.length ≤ stop) (hstop : stop ≤ v.size) :
    s.write (v.slice start stop) data = s.patch v.block (v.offset + start) data := by
  cases data with
  | nil =>
      rw [patch_nil]
      simp only [write, List.take_nil]
      exact patch_nil s _ _
  | cons b bs =>
      have hlen : (b :: bs).length = bs.length + 1 := rfl
      rw [View.slice_of_lt (by omega) hstop, write,
        List.take_of_length_le (show (b :: bs).length ≤ stop - start by omega)]
      rfl

/-- What a cut of a view shows. -/
theorem bytes_slice (s : Store) (v : View) (start stop : Nat) :
    s.bytes (v.slice start stop) = cut (s.bytes v) start (stop - start) := by
  apply List.ext_getElem?
  intro i
  simp only [bytes_eq_cut, getElem?_cut, View.slice]
  by_cases h : min stop v.size ≤ min start v.size
  · rw [if_pos h, if_neg (show ¬i < View.empty.size by simp [View.empty])]
    split
    · rw [if_neg (by omega)]
    · rfl
  · rw [if_neg h]
    by_cases hi : i < min stop v.size - min start v.size
    · have hfirst : min start v.size = start := by omega
      rw [if_pos hi, if_pos (by omega), if_pos (by omega)]
      simp only [hfirst, Nat.add_assoc]
    · rw [if_neg hi]
      split
      · rw [if_neg (by omega)]
      · rfl

theorem length_bytes_le (s : Store) (v : View) : (s.bytes v).length ≤ v.size := by
  simp only [bytes, List.length_take]
  omega

/-- A view that meets no patched cell shows what it showed before. -/
theorem bytes_patch_of_apart {s : Store} {b start : Nat} {data : Bytes} {v : View}
    (h : ∀ i, v.Covers b i → ¬(start ≤ i ∧ i < start + data.length)) :
    (s.patch b start data).bytes v = s.bytes v := by
  apply List.ext_getElem?
  intro k
  simp only [bytes_eq_cut, getElem?_cut, block_patch]
  split
  · rename_i hk
    split
    · rename_i hb
      by_cases hi : v.offset + k < (s.block v.block).length
      · rw [getElem?_overwrite _ _ _ _ hi, if_neg]
        exact h (v.offset + k) ⟨hb.symm, by omega, by omega⟩
      · rw [List.getElem?_eq_none (by rw [length_overwrite]; omega),
          List.getElem?_eq_none (by omega)]
    · rfl
  · rfl

/-- A cell outside a patch stays as it was. -/
theorem getElem?_block_patch (s : Store) (b start : Nat) (data : Bytes) (c i : Nat)
    (h : ¬(c = b ∧ start ≤ i ∧ i < start + data.length)) :
    ((s.patch b start data).block c)[i]? = (s.block c)[i]? := by
  rw [block_patch]
  split
  · rename_i hc
    by_cases hi : i < (s.block c).length
    · rw [getElem?_overwrite _ _ _ _ hi, if_neg (fun hin => h ⟨hc, hin⟩)]
    · rw [List.getElem?_eq_none (by rw [length_overwrite]; omega),
        List.getElem?_eq_none (by omega)]
  · rfl

/-- A view that was patched from its first cell on. -/
theorem bytes_patch_self {s : Store} {v : View} {data : Bytes} (hv : s.Valid v)
    (h : data.length ≤ v.size) :
    (s.patch v.block v.offset data).bytes v = data ++ (s.bytes v).drop data.length := by
  rw [Valid] at hv
  apply List.ext_getElem?
  intro i
  rw [bytes_eq_cut, getElem?_cut, block_patch, if_pos rfl]
  by_cases hi : i < v.size
  · rw [if_pos hi, getElem?_overwrite _ _ _ _ (by omega)]
    by_cases hd : i < data.length
    · rw [if_pos (by omega), List.getElem?_append_left hd, Nat.add_sub_cancel_left]
    · rw [if_neg (by omega), List.getElem?_append_right (by omega), List.getElem?_drop,
        bytes_eq_cut, getElem?_cut, if_pos (by omega)]
      congr 2
      omega
  · rw [if_neg hi, List.getElem?_append_right (by omega), List.getElem?_drop,
      bytes_eq_cut, getElem?_cut, if_neg (by omega)]

theorem bytes_slice_add (s : Store) (v : View) (start size : Nat) :
    s.bytes (v.slice start (start + size)) = cut (s.bytes v) start size := by
  rw [bytes_slice, Nat.add_sub_cancel_left]

theorem bytes_drop (s : Store) (v : View) (n : Nat) :
    s.bytes (v.drop n) = (s.bytes v).drop n := by
  rw [View.drop, bytes_slice, cut, List.take_of_length_le]
  have hle := s.length_bytes_le v
  rw [List.length_drop]
  omega

/-- What lies behind a patch of a view. -/
theorem drop_bytes_patch (s : Store) (v : View) (offset : Nat) (data : Bytes) :
    ((s.patch v.block (v.offset + offset) data).bytes v).drop (offset + data.length) =
      (s.bytes v).drop (offset + data.length) := by
  rw [← bytes_drop, ← bytes_drop]
  apply bytes_patch_of_apart
  intro i hcovers hin
  have hsize := v.size_drop (offset + data.length)
  obtain ⟨-, hge, hlt⟩ := hcovers
  have hpos : offset + data.length < v.size := by omega
  rw [View.drop, View.slice_of_lt hpos (Nat.le_refl _)] at hge
  simp only at hge
  omega

/-- The cells of a view that were patched. -/
theorem bytes_patch_slice {s : Store} {v : View} {offset : Nat} {data : Bytes} (hv : s.Valid v)
    (h : offset + data.length ≤ v.size) :
    (s.patch v.block (v.offset + offset) data).bytes (v.slice offset (offset + data.length)) =
      data := by
  cases data with
  | nil =>
      have hempty : v.slice offset (offset + ([] : Bytes).length) = View.empty :=
        View.slice_of_le (Nat.le_refl offset)
      rw [hempty]
      exact List.take_zero
  | cons b bs =>
      have hlength : (b :: bs).length = bs.length + 1 := rfl
      let field : View := ⟨v.block, v.offset + offset, (b :: bs).length⟩
      have hfield : v.slice offset (offset + (b :: bs).length) = field := by
        rw [View.slice_of_lt (by omega) h, Nat.add_sub_cancel_left]
      have hvalid : s.Valid field := by
        rw [Valid] at hv ⊢
        simp only [field]
        omega
      have hself := bytes_patch_self hvalid (Nat.le_refl field.size)
      rw [List.drop_eq_nil_of_le (Nat.le_of_eq (length_bytes hvalid)), List.append_nil] at hself
      rw [hfield]
      exact hself

theorem bytes_write_field {s : Store} {v : View} {offset : Nat} {word : Bytes} {width : Nat}
    (hvalid : s.Valid v) (h : offset + width ≤ v.size) (hlength : word.length = width) :
    (s.write (v.slice offset (offset + width)) word).bytes (v.slice offset (offset + width)) =
      word := by
  subst hlength
  rw [write_slice s (Nat.le_refl _) h]
  exact bytes_patch_slice hvalid h

/-- Two stores that differ at most in the cells of a view. -/
def AgreesOutside (s t : Store) (v : View) : Prop :=
  ∀ b i, ¬v.Covers b i → (t.block b)[i]? = (s.block b)[i]?

/-- A patch changes no cell but those at the beginning of the view. -/
theorem agreesOutside_patch (s : Store) {v : View} {data : Bytes} (h : data.length ≤ v.size) :
    s.AgreesOutside (s.patch v.block v.offset data) (v.slice 0 data.length) := by
  intro b i houtside
  apply getElem?_block_patch
  rintro ⟨rfl, hge, hlt⟩
  apply houtside
  rw [View.slice_of_lt (by omega) h]
  exact ⟨rfl, by simp only; omega, by simp only; omega⟩

end Store

end PackedRecord
