import PackedRecord.Proofs.Store.Insert
import PackedRecord.Store.Word

/-!
Confined changes.

A change is confined to a view if it leaves the blocks as long as they were and
all cells but those of the view as they were. Changes one after the other are
confined to what each of them is confined to. A view sees such a change exactly
where it names a changed cell, and no change or new block takes a cell away
from a view that has it.
-/

namespace PackedRecord

namespace View

/-- All cells of a view are cells of another. -/
def Within (v w : View) : Prop :=
  ∀ b i, v.Covers b i → w.Covers b i

theorem within_slice (v : View) (start stop : Nat) : (v.slice start stop).Within v :=
  fun _ _ h => h.of_slice

theorem within_drop (v : View) (n : Nat) : (v.drop n).Within v :=
  v.within_slice n v.size

theorem within_field {v field : View} {offset width : Nat}
    (h : v.field? offset width = some field) : field.Within v := by
  rw [(eq_slice_of_field h).1]
  exact v.within_slice _ _

theorem apart_slice (v : View) (start middle stop : Nat) :
    (v.slice start middle).Apart (v.slice middle stop) := by
  rintro b i hfirst hsecond
  simp only [slice] at hfirst hsecond
  split at hfirst <;> split at hsecond <;> simp only [Covers, empty] at hfirst hsecond <;> omega

/-- The cell that an index of a view denotes: its block, and its place there. -/
def cell (v : View) (k : Nat) : Nat × Nat :=
  (v.block, v.offset + k)

theorem covers_iff (v : View) (b i : Nat) :
    v.Covers b i ↔ ∃ k, k < v.size ∧ v.cell k = (b, i) := by
  constructor
  · rintro ⟨rfl, hge, hlt⟩
    refine ⟨i - v.offset, by omega, ?_⟩
    rw [cell, Nat.add_sub_cancel' hge]
  · rintro ⟨k, hk, hcell⟩
    obtain ⟨rfl, rfl⟩ := Prod.mk.inj hcell
    exact ⟨rfl, Nat.le_add_right _ _, by omega⟩

end View

namespace Store

/-- The second store comes from the first by a change of cells of a view. -/
structure Confined (s t : Store) (v : View) : Prop where
  count : t.blocks.length = s.blocks.length
  length : ∀ b, (t.block b).length = (s.block b).length
  outside : s.AgreesOutside t v

namespace Confined

variable {s t u : Store} {v w : View}

theorem refl (s : Store) (v : View) : s.Confined s v :=
  ⟨rfl, fun _ => rfl, fun _ _ _ => rfl⟩

theorem trans (h : s.Confined t v) (hnext : t.Confined u v) : s.Confined u v := by
  refine ⟨hnext.count.trans h.count, fun b => (hnext.length b).trans (h.length b), ?_⟩
  intro b i houtside
  exact (hnext.outside b i houtside).trans (h.outside b i houtside)

theorem mono (h : s.Confined t v) (hwithin : v.Within w) : s.Confined t w :=
  ⟨h.count, h.length, fun b i houtside => h.outside b i (mt (hwithin b i) houtside)⟩

end Confined

section Writes

variable (s : Store) (v : View)

theorem confined_write (data : Bytes) : s.Confined (s.write v data) v := by
  refine ⟨List.length_modify .., fun b => length_block_patch .., ?_⟩
  intro b i houtside
  refine getElem?_block_patch s _ _ _ b i ?_
  rintro ⟨rfl, hge, hlt⟩
  rw [List.length_take] at hlt
  exact houtside ⟨rfl, hge, by omega⟩

/-- A patch of a view changes the cells that it lies over. -/
theorem confined_patch {offset : Nat} {data : Bytes} (h : offset + data.length ≤ v.size) :
    s.Confined (s.patch v.block (v.offset + offset) data)
      (v.slice offset (offset + data.length)) := by
  rw [← write_slice s (Nat.le_refl _) h]
  exact s.confined_write _ data

theorem confined_fill (value : UInt8) : s.Confined (s.fill v value) v :=
  s.confined_write v _

theorem confined_copy (source : View) (targetStart sourceStart sourceStop : Nat) :
    s.Confined (s.copy source v targetStart sourceStart sourceStop).1 v :=
  (s.confined_write _ _).mono (v.within_drop targetStart)

theorem confined_writeWord {order : ByteOrder} {offset width n : Nat} {t : Store}
    (h : s.writeWord v order offset width n = .ok t) : s.Confined t v := by
  rw [writeWord] at h
  split at h
  case h_1 field hfield =>
    obtain rfl := Except.ok.inj h
    exact (s.confined_write field _).mono (View.within_field hfield)
  case h_2 => contradiction

end Writes

theorem insert_cons (s : Store) (c : UInt8) (cs : Bytes) :
    s.insert (c :: cs) =
      (⟨s.blocks ++ [c :: cs]⟩, ⟨s.blocks.length, 0, (c :: cs).length⟩) :=
  if_neg (List.cons_ne_nil c cs)

theorem block_insert_of_ne (s : Store) (data : Bytes) {b : Nat} (h : b ≠ s.blocks.length) :
    (s.insert data).1.block b = s.block b := by
  cases data with
  | nil => rfl
  | cons c cs =>
      rcases Nat.lt_or_gt_of_ne h with hlt | hgt
      · exact block_append (c :: cs) hlt
      · have hold : s.blocks[b]? = none := List.getElem?_eq_none (Nat.le_of_lt hgt)
        have hnew : (s.blocks ++ [c :: cs])[b]? = none :=
          List.getElem?_eq_none (by rw [List.length_append]; exact hgt)
        rw [insert_cons, block, block, List.getD_eq_getElem?_getD, List.getD_eq_getElem?_getD, hold,
          hnew]

/-- A new block is a change of no cell that there was. -/
theorem agreesOutside_insert (s : Store) (data : Bytes) :
    s.AgreesOutside (s.insert data).1 (s.insert data).2 := by
  intro b i houtside
  by_cases hb : b = s.blocks.length
  -- where the new block is there was none, and all its cells are the new view's
  · cases data with
    | nil => rfl
    | cons c cs =>
        rw [insert_cons] at houtside ⊢
        have hold : s.block b = [] := by
          rw [hb, block, List.getD_eq_getElem?_getD, List.getElem?_eq_none (Nat.le_refl _)]
          rfl
        have hnew : (Store.mk (s.blocks ++ [c :: cs])).block b = c :: cs := by
          simp [block, hb]
        have hend : (c :: cs).length ≤ i := by
          by_contra hlt
          exact houtside ⟨hb, Nat.zero_le i, by simp only; omega⟩
        rw [hold, hnew, List.getElem?_eq_none hend, List.getElem?_nil]
  · rw [s.block_insert_of_ne data hb]

section Visible

variable {s t : Store} {v : View}

theorem getElem?_bytes (s : Store) {v : View} {k : Nat} (h : k < v.size) :
    (s.bytes v)[k]? = (s.block (v.cell k).1)[(v.cell k).2]? := by
  rw [bytes_eq_cut, getElem?_cut, if_pos h]
  rfl

/-- A view apart from all changes shows what it showed before. -/
theorem Confined.bytes_eq (h : s.Confined t v) {u : View} (hapart : u.Apart v) :
    t.bytes u = s.bytes u := by
  apply List.ext_getElem?
  intro k
  by_cases hk : k < u.size
  · have hcovers := (u.covers_iff (u.cell k).1 (u.cell k).2).mpr ⟨k, hk, rfl⟩
    rw [getElem?_bytes t hk, getElem?_bytes s hk, h.outside _ _ (hapart _ _ hcovers)]
  · rw [bytes_eq_cut, bytes_eq_cut, getElem?_cut, getElem?_cut, if_neg hk, if_neg hk]

/-- A view sees a change where, and only where, it denotes a cell that changes. -/
theorem AgreesOutside.changes_iff (h : s.AgreesOutside t v) (u : View) {k : Nat}
    (hk : k < u.size) :
    (t.bytes u)[k]? ≠ (s.bytes u)[k]? ↔
      ∃ j, j < v.size ∧ v.cell j = u.cell k ∧ (t.bytes v)[j]? ≠ (s.bytes v)[j]? := by
  constructor
  · intro hchange
    have hcovers : v.Covers (u.cell k).1 (u.cell k).2 := by
      by_contra houtside
      rw [getElem?_bytes t hk, getElem?_bytes s hk, h _ _ houtside] at hchange
      exact hchange rfl
    obtain ⟨j, hj, hcell⟩ := (v.covers_iff _ _).mp hcovers
    refine ⟨j, hj, hcell, ?_⟩
    rw [getElem?_bytes t hj, getElem?_bytes s hj, show v.cell j = u.cell k from hcell]
    rwa [getElem?_bytes t hk, getElem?_bytes s hk] at hchange
  · rintro ⟨j, hj, hcell, hchange⟩
    rwa [getElem?_bytes t hj, getElem?_bytes s hj, hcell, ← getElem?_bytes t hk,
      ← getElem?_bytes s hk] at hchange

end Visible

/-- A view has cells, all of them within its block, and ends below the size limit. -/
structure Stored (s : Store) (v : View) : Prop where
  nonempty : 0 < v.size
  block : v.block < s.blocks.length
  inside : v.offset + v.size ≤ (s.block v.block).length
  limit : v.offset + v.size < sizeLimit

/-- A view has no storage and no size, or all that it shows is stored. -/
inductive Holds (s : Store) : View → Prop where
  | nowhere : Holds s .empty
  | stored {v : View} (h : s.Stored v) : Holds s v

/-- What holds in a store holds in another as well. -/
def Keeps (s t : Store) : Prop :=
  ∀ v, s.Holds v → t.Holds v

section Holds

variable {s t : Store} {v : View}

theorem Holds.valid (h : s.Holds v) : s.Valid v := by
  cases h with
  | nowhere => exact Nat.zero_le _
  | stored h => exact h.inside

theorem Holds.slice (h : s.Holds v) (start stop : Nat) : s.Holds (v.slice start stop) := by
  by_cases hle : min stop v.size ≤ min start v.size
  · rw [View.slice, if_pos hle]
    exact .nowhere
  · rw [View.slice, if_neg hle]
    cases h with
    | nowhere => exact absurd (Nat.le_of_eq (by simp [View.empty])) hle
    | stored h =>
        have hinside := h.inside
        have hlimit := h.limit
        refine .stored ⟨?_, h.block, ?_, ?_⟩ <;> simp only <;> omega

theorem Holds.drop (h : s.Holds v) (n : Nat) : s.Holds (v.drop n) :=
  h.slice n v.size

theorem Holds.field (h : s.Holds v) {field : View} {offset width : Nat}
    (hfield : v.field? offset width = some field) : s.Holds field := by
  rw [(View.eq_slice_of_field hfield).1]
  exact h.slice _ _

theorem Confined.keeps {target : View} (h : s.Confined t target) : s.Keeps t := by
  intro v hv
  cases hv with
  | nowhere => exact .nowhere
  | stored hv =>
      refine .stored ⟨hv.nonempty, ?_, ?_, hv.limit⟩
      · rw [h.count]
        exact hv.block
      · rw [h.length]
        exact hv.inside

theorem keeps_insert (s : Store) (data : Bytes) : s.Keeps (s.insert data).1 := by
  intro v hv
  cases hv with
  | nowhere => exact .nowhere
  | stored hv =>
      refine .stored ⟨hv.nonempty, ?_, valid_insert_of_valid data hv.inside, hv.limit⟩
      cases data with
      | nil => exact hv.block
      | cons c cs =>
          rw [insert_cons, List.length_append]
          exact Nat.lt_add_right _ hv.block

theorem holds_insert (s : Store) {data : Bytes} (h : data.length < sizeLimit) :
    (s.insert data).1.Holds (s.insert data).2 := by
  have hvalid := s.valid_insert data
  cases data with
  | nil => exact .nowhere
  | cons c cs =>
      rw [insert_cons] at hvalid ⊢
      refine .stored ⟨Nat.zero_lt_succ _, ?_, hvalid, ?_⟩
      · rw [List.length_append]
        exact Nat.lt_succ_self _
      · rw [Nat.zero_add]
        exact h

end Holds

end Store

end PackedRecord
