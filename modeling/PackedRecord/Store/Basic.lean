import PackedRecord.Store.View

/-!
The store.

A store holds blocks of cells of fixed length; a block is made once and never
resized. `bytes` is what a view shows, and `write` is the only operation that
changes cells: it touches the cells of the one view it is given, and every
view that shares those cells sees the change.
-/

namespace PackedRecord

/-- The cells from `start` on replaced by `data`; what would fall past the end
is dropped, so the length stays. -/
def overwrite (cells : Bytes) (start : Nat) (data : Bytes) : Bytes :=
  cells.take start ++ data.take (cells.length - start) ++ cells.drop (start + data.length)

structure Store where
  blocks : List Bytes
  deriving DecidableEq, Repr

namespace Store

def empty : Store := ⟨[]⟩

/-- The cells of a block; there are none where there is no block. -/
def block (s : Store) (b : Nat) : Bytes :=
  s.blocks.getD b []

/-- What a view shows. -/
def bytes (s : Store) (v : View) : Bytes :=
  ((s.block v.block).drop v.offset).take v.size

/-- The view's cells all exist. -/
def Valid (s : Store) (v : View) : Prop :=
  v.offset + v.size ≤ (s.block v.block).length

instance (s : Store) (v : View) : Decidable (s.Valid v) := by
  unfold Valid
  infer_instance

/-- A new block with the given contents, and the view of all of it. -/
def insert (s : Store) (data : Bytes) : Store × View :=
  if data = [] then (s, .empty)
  else (⟨s.blocks ++ [data]⟩, ⟨s.blocks.length, 0, data.length⟩)

def alloc (s : Store) (size : Nat) : Store × View :=
  s.insert (List.replicate size 0)

/-- Puts bytes at the start of a view; what does not fit is dropped. -/
def write (s : Store) (v : View) (data : Bytes) : Store :=
  ⟨s.blocks.modify v.block fun cells => overwrite cells v.offset (data.take v.size)⟩

def fill (s : Store) (v : View) (value : UInt8) : Store :=
  s.write v (List.replicate v.size value)

/-- Copies a cut of the source into the target from `targetStart` on, as much
as both have room for. The source is read before the target is written, so
the two may overlap. Also gives the number of bytes copied. -/
def copy (s : Store) (source target : View) (targetStart sourceStart sourceStop : Nat) :
    Store × Nat :=
  let source := source.slice sourceStart sourceStop
  let target := target.drop targetStart
  (s.write target (s.bytes source), min source.size target.size)

end Store

theorem length_overwrite (cells : Bytes) (start : Nat) (data : Bytes) :
    (overwrite cells start data).length = cells.length := by
  simp only [overwrite, List.length_append, List.length_take, List.length_drop]
  omega

/-- A cell is changed only where the data lies over it. -/
theorem getElem?_overwrite (cells : Bytes) (start : Nat) (data : Bytes) (i : Nat)
    (hi : i < cells.length) :
    (overwrite cells start data)[i]? =
      if start ≤ i ∧ i < start + data.length then data[i - start]? else cells[i]? := by
  unfold overwrite
  by_cases h : start ≤ i ∧ i < start + data.length
  · rw [if_pos h, List.append_assoc,
      List.getElem?_append_right (by simp only [List.length_take]; omega)]
    rw [List.getElem?_append_left (by simp only [List.length_take]; omega)]
    simp only [List.length_take, List.getElem?_take]
    rw [if_pos (by omega)]
    congr 1
    omega
  · rw [if_neg h]
    by_cases hlt : i < start
    · rw [List.append_assoc, List.getElem?_append_left (by simp only [List.length_take]; omega),
        List.getElem?_take, if_pos hlt]
    · rw [List.getElem?_append_right
        (by simp only [List.length_append, List.length_take]; omega)]
      simp only [List.length_append, List.length_take, List.getElem?_drop]
      congr 1
      omega

end PackedRecord
