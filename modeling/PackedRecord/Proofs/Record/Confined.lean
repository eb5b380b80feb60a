import PackedRecord.Proofs.Field.Confined
import PackedRecord.Record.Pack
import PackedRecord.Record.Windows

/-!
Records keep to their views.

Packing by any format, known or not, changes no cell outside its target, and
unpacking makes no view but cuts of its source. The same is true of a cursor,
whatever its windows are: it may have been told a stride that does not agree with
its format.
-/

namespace PackedRecord

section Pack

variable (s : Store) (target : View) (values : List Value)

theorem confined_packItems (order : ByteOrder) (items : List Item) (p : Progress) :
    s.Confined (packItems order target values items s p).store target := by
  induction items generalizing s p with
  | nil => exact .refl s target
  | cons item items ih =>
      have hitem := item.confined_pack order target s (values.drop p.consumed) p.offset
      rw [packItems]
      split
      · exact hitem
      · exact hitem.trans (ih _ _)

theorem Format.confined_packInto (format : Format) :
    s.Confined (format.packInto s target values).store target := by
  have hrun := confined_packItems s target values format.order format.items ⟨0, 0⟩
  rw [Format.packInto]
  split
  · exact .refl s target
  · cases hfailure : (packItems format.order target values format.items s ⟨0, 0⟩).failure with
    | some failure => simpa only [hfailure] using hrun
    | none => simpa only [hfailure] using hrun

theorem confined_packInto (text : Bytes) :
    s.Confined (packInto text s target values).store target := by
  rw [packInto]
  split
  · exact .refl s target
  · exact Format.confined_packInto s target values _

end Pack

section Unpack

variable {s : Store} {source : View} (h : s.Holds source)
include h

theorem holds_unpackItems (order : ByteOrder) (items : List Item) (offset : Nat) :
    ∀ value ∈ (unpackItems order s source items offset).1, value.Holds s := by
  induction items generalizing offset with
  | nil => exact List.forall_mem_nil _
  | cons item items ih =>
      have hitem := item.holds_unpack order h offset
      rw [unpackItems]
      split
      · exact hitem
      · exact List.forall_mem_append.mpr ⟨hitem, ih _⟩

theorem Format.holds_unpack (format : Format) :
    ∀ value ∈ (format.unpack s source).values, value.Holds s := by
  rw [Format.unpack]
  split
  · exact List.forall_mem_nil _
  · exact holds_unpackItems h format.order format.items 0

theorem holds_unpack (text : Bytes) : ∀ value ∈ (unpack text s source).values, value.Holds s := by
  rw [unpack]
  split
  · exact List.forall_mem_nil _
  · exact Format.holds_unpack h _

end Unpack

/-- The window of a cursor holds, and so do its values. -/
structure Cursor.Holds (s : Store) (c : Cursor) : Prop where
  rest : s.Holds c.rest
  values : ∀ value ∈ c.values, value.Holds s

namespace Windows

variable (w : Windows) {s : Store}

theorem holds_done {rest : View} (h : s.Holds rest) (fault : Option Fault) :
    Cursor.Holds s ⟨rest, [], fault, true⟩ :=
  ⟨h, List.forall_mem_nil _⟩

theorem holds_load {rest : View} (h : s.Holds rest) : (w.load s rest).1.Holds s := by
  rw [load]
  split
  · exact holds_done h _
  · rename_i format _
    have hread := holds_unpackItems h format.order format.items 0
    rw [← Format.readFrom] at hread
    split
    · exact holds_done h _
    · rename_i values hvalues
      rw [hvalues] at hread
      exact ⟨h, hread⟩

theorem holds_start (h : s.Holds w.buffer) : (w.start s).1.Holds s := by
  rw [start]
  split
  · exact holds_done h _
  · exact w.holds_load h

theorem holds_next {c : Cursor} (h : c.Holds s) : (w.next s c).1.Holds s := by
  rw [next]
  split
  · exact h
  · have hrest := h.rest.drop w.stride
    simp only
    split
    · exact holds_done hrest _
    · exact w.holds_load hrest

end Windows

end PackedRecord
