import PackedRecord.Field.Unpack
import PackedRecord.Proofs.Field.Reach

/-!
Items keep to their views.

Packing an item changes no cell outside its target, wherever in the target it
is asked to begin and whatever the values are. Unpacking an item makes no view
but cuts of its source.
-/

namespace PackedRecord

namespace Item

theorem confined_pack (order : ByteOrder) (target : View) (s : Store) (item : Item)
    (values : List Value) (offset : Nat) :
    s.Confined (item.pack order target values s offset).store target := by
  obtain ⟨_, hreached⟩ := item.pack_reached order s target values ⟨offset, 0⟩
  exact hreached.confined.mono (target.within_slice _ _)

end Item

/-- The bytes that a value shows are those of a view that holds. -/
def Value.Holds (s : Store) : Value → Prop
  | bytes v => s.Holds v
  | _ => True

section Unpack

variable (order : ByteOrder) {s : Store}

theorem Scalar.holds_decode (scalar : Scalar) {field : View} (h : s.Holds field) :
    (scalar.decode order s field).Holds s := by
  cases scalar with
  | character => exact h
  | integer signed size => cases signed <;> trivial
  | boolean | half | single | double => trivial

namespace Item

theorem holds_countedText {field : View} (h : s.Holds field) :
    s.Holds (countedText s field) := by
  rw [countedText]
  split
  · exact .nowhere
  · exact h.slice _ _

theorem holds_unpackScalars (scalar : Scalar) {source : View} (h : s.Holds source)
    (count offset : Nat) :
    ∀ value ∈ (unpackScalars scalar order s source count offset).values, value.Holds s := by
  induction count generalizing offset with
  | zero => exact List.forall_mem_nil _
  | succ count ih =>
      rw [unpackScalars]
      cases hfield : source.field? offset scalar.width with
      | none => exact List.forall_mem_nil _
      | some field =>
          exact List.forall_mem_cons.mpr ⟨scalar.holds_decode order (h.field hfield), ih _⟩

theorem holds_unpackField {source : View} (h : s.Holds source) (count offset : Nat)
    {read : View → List Value}
    (hread : ∀ field, s.Holds field → ∀ value ∈ read field, value.Holds s) :
    ∀ value ∈ (unpackField source count offset read).values, value.Holds s := by
  rw [unpackField]
  cases hfield : source.field? offset count with
  | none => exact List.forall_mem_nil _
  | some field => exact hread field (h.field hfield)

theorem holds_unpack (item : Item) {source : View} (h : s.Holds source) (offset : Nat) :
    ∀ value ∈ (item.unpack order s source offset).values, value.Holds s := by
  rw [unpack]
  cases item.kind? with
  | none => exact List.forall_mem_nil _
  | some code =>
      cases code with
      | scalar scalar => exact holds_unpackScalars order scalar h item.count offset
      | pad =>
          apply holds_unpackField h item.count offset
          exact fun _ _ => List.forall_mem_nil _
      | string =>
          apply holds_unpackField h item.count offset
          exact fun _ hfield => List.forall_mem_singleton.mpr hfield
      | counted =>
          apply holds_unpackField h item.count offset
          exact fun _ hfield => List.forall_mem_singleton.mpr (holds_countedText hfield)

end Item

end Unpack

end PackedRecord
