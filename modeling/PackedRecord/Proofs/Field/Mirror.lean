import PackedRecord.Proofs.Field.Read

/-!
Records of the other byte order.

The byte order has a part only in the words of elements. Turning the bytes of
each element around takes what a run leaves in the little order to what it
leaves in the big one, wherever the run ends, and what slots show in the little
order to what they show in the big one.
-/

namespace PackedRecord

theorem ByteOrder.encode_big (width n : Nat) :
    big.encode width n = (little.encode width n).reverse := rfl

theorem ByteOrder.decode_big_reverse (word : Bytes) :
    big.decode word.reverse = little.decode word := by
  simp only [decode, List.reverse_reverse]

/-- An element with its bytes turned around, if it has more than one. -/
def Scalar.mirror (scalar : Scalar) (data : Bytes) : Bytes :=
  if scalar.width = 1 then data else data.reverse

def Shape.mirror (shape : Shape) (data : Bytes) : Bytes :=
  match shape with
  | .element scalar => scalar.mirror data
  | .pad _ | .string _ | .counted _ | .unknown => data

/-- The bytes of slots that lie side by side, each element turned around in its place. -/
def mirrorSlots : List Slot → Bytes → Bytes
  | [], data => data
  | slot :: slots, data =>
      slot.shape.mirror (data.take slot.shape.width) ++
        mirrorSlots slots (data.drop slot.shape.width)

namespace Scalar

theorem mirror_of_width {scalar : Scalar} {data : Bytes} (h : data.length = scalar.width) :
    scalar.mirror data = data.reverse := by
  rw [mirror]
  split
  · rename_i hone
    obtain ⟨b, rfl⟩ := List.length_eq_one_iff.mp (h.trans hone)
    rfl
  · rfl

/-- The big word of a value is its little word turned around. -/
theorem encode?_big (scalar : Scalar) (s : Store) (value : Value) :
    scalar.encode? .big s value = (scalar.encode? .little s value).map scalar.mirror := by
  have hword (n : Nat) : ByteOrder.big.encode scalar.width n =
      scalar.mirror (ByteOrder.little.encode scalar.width n) := by
    rw [mirror_of_width (ByteOrder.length_encode _ _ _), ByteOrder.encode_big]
  cases scalar with
  | character =>
      simp only [encode?, Option.map_map]
      rfl
  | boolean => rfl
  | integer _ _ | half | single | double =>
      simp only [encode?, Option.map_map]
      exact congrArg (Option.map · _) (funext fun n => hword _)

theorem shownBy_mirror {scalar : Scalar} {data : Bytes} (h : data.length = scalar.width) :
    scalar.shownBy .big (scalar.mirror data) = scalar.shownBy .little data := by
  have hword : ByteOrder.big.decode (scalar.mirror data) = ByteOrder.little.decode data := by
    rw [mirror_of_width h, ByteOrder.decode_big_reverse]
  cases scalar with
  | character => rfl
  | integer signed size => cases signed <;> simp only [shownBy, hword]
  | boolean | half | single | double => simp only [shownBy, hword]

end Scalar

namespace Shape

theorem mirror_nil (shape : Shape) : shape.mirror [] = [] := by
  cases shape with
  | element scalar => exact ite_self _
  | pad _ | string _ | counted _ | unknown => rfl

theorem length_mirror (shape : Shape) (data : Bytes) :
    (shape.mirror data).length = data.length := by
  cases shape with
  | element scalar =>
      rw [mirror, Scalar.mirror]
      split
      · rfl
      · exact List.length_reverse
  | pad _ | string _ | counted _ | unknown => rfl

theorem encode?_big (shape : Shape) (s : Store) (next : Option Value) :
    shape.encode? .big s next = (shape.encode? .little s next).map shape.mirror := by
  cases next with
  | none => cases shape <;> rfl
  | some value =>
      cases shape with
      | element scalar => exact scalar.encode?_big s value
      | string _ | counted _ =>
          simp only [encode?, Option.map_map]
          rfl
      | pad _ | unknown => rfl

theorem shownBy_mirror {shape : Shape} {data : Bytes} (h : data.length = shape.width) :
    shape.shownBy .big (shape.mirror data) = shape.shownBy .little data := by
  cases shape with
  | element scalar => exact congrArg (fun shown => [shown]) (Scalar.shownBy_mirror h)
  | pad _ | string _ | counted _ | unknown => rfl

end Shape

theorem mirrorSlots_nil (slots : List Slot) : mirrorSlots slots [] = [] := by
  induction slots with
  | nil => rfl
  | cons slot slots ih => rw [mirrorSlots, List.take_nil, List.drop_nil, ih, Shape.mirror_nil]; rfl

theorem length_mirrorSlots (slots : List Slot) (data : Bytes) :
    (mirrorSlots slots data).length = data.length := by
  induction slots generalizing data with
  | nil => rfl
  | cons slot slots ih =>
      rw [mirrorSlots, List.length_append, Shape.length_mirror, ih, ← List.length_append,
        List.take_append_drop]

/-- A run leaves the mirrored bytes in the other order, up to the same slot. -/
theorem slotBytes_big (s : Store) (values : List Value) (slots : List Slot) (n : Nat) :
    slotBytes .big s values slots n =
      mirrorSlots slots (slotBytes .little s values slots n) := by
  induction slots generalizing n with
  | nil => rfl
  | cons slot slots ih =>
      have hbig := slot.shape.encode?_big s values[n]?
      cases hlittle : slot.shape.encode? .little s values[n]? with
      | none =>
          rw [hlittle] at hbig
          simp only [slotBytes, hbig, hlittle, Option.map_none, mirrorSlots_nil]
      | some data =>
          rw [hlittle] at hbig
          have hlength := Shape.length_encode? hlittle
          simp only [slotBytes, hbig, hlittle, Option.map_some, mirrorSlots,
            List.take_left' hlength, List.drop_left' hlength, ih]

/-- Mirrored bytes show the same in the other order. -/
theorem shownSlots_big {slots : List Slot} {data : Bytes} (h : slotsWidth slots ≤ data.length) :
    shownSlots .big slots (mirrorSlots slots data) = shownSlots .little slots data := by
  induction slots generalizing data with
  | nil => rfl
  | cons slot slots ih =>
      simp only [slotsWidth, List.map_cons, List.sum_cons] at h ih
      have hfield : (data.take slot.shape.width).length = slot.shape.width := by
        rw [List.length_take]
        omega
      have hmirror :
          (slot.shape.mirror (data.take slot.shape.width)).length = slot.shape.width := by
        rw [Shape.length_mirror, hfield]
      rw [mirrorSlots, shownSlots, List.take_left' hmirror, List.drop_left' hmirror,
        Shape.shownBy_mirror hfield, ih (by rw [List.length_drop]; omega), shownSlots]

end PackedRecord
