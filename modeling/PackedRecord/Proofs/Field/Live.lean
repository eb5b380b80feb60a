import PackedRecord.Proofs.Field.Read

/-!
Values that are kept.

A number that was read is a copy and shows the same for ever. A text is a view:
it shows what its field holds at the time, and the only thing that was fixed
when it was read is the length of a counted one. `laterSlots` is what the values
of slots show by the bytes at the time of reading and the bytes now.
-/

namespace PackedRecord

/-- What the values of a slot show now, by the bytes it held when it was read. -/
def Shape.shownLater (shape : Shape) (order : ByteOrder) (read now : Bytes) : List Shown :=
  match shape with
  | .pad _ | .unknown => []
  | .element .character | .string _ => [.bytes now]
  | .element scalar => [scalar.shownBy order read]
  | .counted _ => [.bytes ((now.drop 1).take read.counted.length)]

/-- What the values of slots show now that were read from the first byte on. -/
def laterSlots (order : ByteOrder) : List Slot → (read now : Bytes) → List Shown
  | [], _, _ => []
  | slot :: slots, read, now =>
      slot.shape.shownLater order (read.take slot.shape.width) (now.take slot.shape.width) ++
        laterSlots order slots (read.drop slot.shape.width) (now.drop slot.shape.width)

section Later

variable (order : ByteOrder) {s t : Store}

theorem Item.bytes_countedText_later {field : View} (h : s.Valid field) :
    t.bytes (countedText s field) =
      ((t.bytes field).drop 1).take (s.bytes field).counted.length := by
  have hlength := Store.length_bytes h
  rw [countedText]
  split
  case h_1 hsize =>
    have hnil : s.bytes field = [] := List.length_eq_zero_iff.mp (hlength.trans hsize)
    rw [hnil]
    exact List.take_zero
  case h_2 room hsize =>
    have htext : (s.bytes field).counted.length = min ((s.bytes field).headD 0).toNat room := by
      rw [Bytes.length_counted, hlength, hsize]
      rfl
    rw [Store.bytes_slice_add, htext]
    rfl

theorem Shape.shown_read_later (shape : Shape) {field : View} (h : s.Valid field) :
    (shape.read order s field).map (·.shown t) =
      shape.shownLater order (s.bytes field) (t.bytes field) := by
  cases shape with
  | pad _ | unknown | string _ => rfl
  | element scalar =>
      cases scalar with
      | character | boolean | half | single | double => rfl
      | integer signed size => cases signed <;> rfl
  | counted _ =>
      exact congrArg (fun text => [Shown.bytes text]) (Item.bytes_countedText_later h)

/-- What values show in a store that they were not read from. -/
theorem shown_readSlots_later {source : View} (h : s.Valid source) (slots : List Slot)
    (offset : Nat) :
    (readSlots order s source slots offset).map (·.shown t) =
      laterSlots order slots ((s.bytes source).drop offset) ((t.bytes source).drop offset) := by
  induction slots generalizing offset with
  | nil => rfl
  | cons slot slots ih =>
      rw [readSlots, List.map_append, Shape.shown_read_later order _ (Store.valid_slice h _ _), ih,
        Store.bytes_slice_add, Store.bytes_slice_add, laterSlots, List.drop_drop,
        List.drop_drop]
      rfl

end Later

end PackedRecord
