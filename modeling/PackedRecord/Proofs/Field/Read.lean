import PackedRecord.Field.Unpack
import PackedRecord.Proofs.Field.Pack

/-!
Reading slots.

A slot of a known code yields one value, or none if it is padding, whatever
bytes it holds; the value stands for nothing but those bytes. Unpacking an item
that lies within the source reads its slots, each behind the one before it.
-/

namespace PackedRecord

/-- The values that a slot yields from its field. -/
def Shape.read (shape : Shape) (order : ByteOrder) (s : Store) (field : View) : List Value :=
  match shape with
  | .pad _ | .unknown => []
  | .element scalar => [scalar.decode order s field]
  | .string _ => [.bytes field]
  | .counted _ => [.bytes (Item.countedText s field)]

def readSlots (order : ByteOrder) (s : Store) (source : View) :
    List Slot → (offset : Nat) → List Value
  | [], _ => []
  | slot :: slots, offset =>
      slot.shape.read order s (source.slice offset (offset + slot.shape.width)) ++
        readSlots order s source slots (offset + slot.shape.width)

/-- The text that a field of bytes holds behind its length. -/
def Bytes.counted (data : Bytes) : Bytes :=
  (data.drop 1).take (min (data.headD 0).toNat (data.length - 1))

theorem Bytes.length_counted (data : Bytes) :
    data.counted.length = min (data.headD 0).toNat (data.length - 1) := by
  rw [counted, List.length_take, List.length_drop]
  omega

/-- What an element shows, by its bytes alone. -/
def Scalar.shownBy (scalar : Scalar) (order : ByteOrder) (data : Bytes) : Shown :=
  let word := order.decode data
  match scalar with
  | character => .bytes data
  | boolean => .bool (word != 0)
  | integer true size => .int (Int64.ofInt ((word : Int).bmod (ByteOrder.wordCount size.width)))
  | integer false _ => .uint (UInt64.ofNat word)
  | half => .real (Binary16.toBinary64 ⟨UInt16.ofNat word⟩)
  | single => .real (Binary32.toBinary64 ⟨UInt32.ofNat word⟩)
  | double => .real (.ofNatBits word)

def Shape.shownBy (shape : Shape) (order : ByteOrder) (data : Bytes) : List Shown :=
  match shape with
  | .pad _ | .unknown => []
  | .element scalar => [scalar.shownBy order data]
  | .string _ => [.bytes data]
  | .counted _ => [.bytes data.counted]

/-- What slots show when they lie side by side from the first byte on. -/
def shownSlots (order : ByteOrder) : List Slot → Bytes → List Shown
  | [], _ => []
  | slot :: slots, data =>
      slot.shape.shownBy order (data.take slot.shape.width) ++
        shownSlots order slots (data.drop slot.shape.width)

section Shown

variable (order : ByteOrder) {s : Store}

theorem Scalar.shown_decode (scalar : Scalar) (s : Store) (field : View) :
    (scalar.decode order s field).shown s = scalar.shownBy order (s.bytes field) := by
  cases scalar with
  | integer signed size => cases signed <;> rfl
  | character | boolean | half | single | double => rfl

theorem Item.bytes_countedText {field : View} (h : s.Valid field) :
    s.bytes (countedText s field) = (s.bytes field).counted := by
  have hlength := Store.length_bytes h
  rw [countedText]
  split
  case h_1 hsize =>
    have hnil : s.bytes field = [] := List.length_eq_zero_iff.mp (hlength.trans hsize)
    rw [hnil]
    exact List.take_zero
  case h_2 room hsize =>
    rw [Store.bytes_slice_add, Bytes.counted, hlength, hsize]
    rfl

theorem Shape.shown_read (shape : Shape) {field : View} (h : s.Valid field) :
    (shape.read order s field).map (·.shown s) = shape.shownBy order (s.bytes field) := by
  cases shape with
  | pad _ | unknown | string _ => rfl
  | element scalar => exact congrArg (fun shown => [shown]) (scalar.shown_decode order s field)
  | counted _ => exact congrArg (fun text => [Shown.bytes text]) (Item.bytes_countedText h)

theorem Shape.length_read (shape : Shape) (s : Store) (field : View) :
    (shape.read order s field).length = shape.taken := by
  cases shape <;> rfl

theorem Store.valid_slice {v : View} (h : s.Valid v) (start stop : Nat) :
    s.Valid (v.slice start stop) := by
  simp only [View.slice]
  split
  · exact Nat.zero_le _
  · rw [Store.Valid] at h ⊢
    simp only
    omega

/-- What slots show is what their bytes say. -/
theorem shown_readSlots {source : View} (h : s.Valid source) (slots : List Slot) (offset : Nat) :
    (readSlots order s source slots offset).map (·.shown s) =
      shownSlots order slots ((s.bytes source).drop offset) := by
  induction slots generalizing offset with
  | nil => rfl
  | cons slot slots ih =>
      rw [readSlots, List.map_append, Shape.shown_read order _ (Store.valid_slice h _ _), ih,
        Store.bytes_slice_add, shownSlots, List.drop_drop]
      rfl

theorem Shape.valid_read (shape : Shape) {field : View} (h : s.Valid field) :
    ∀ value ∈ shape.read order s field, value.Valid s := by
  intro value hvalue
  cases shape with
  | pad _ | unknown => contradiction
  | element scalar =>
      obtain rfl := List.mem_singleton.mp hvalue
      cases scalar with
      | integer signed size => cases signed <;> trivial
      | character => exact h
      | boolean | half | single | double => trivial
  | string _ =>
      obtain rfl := List.mem_singleton.mp hvalue
      exact h
  | counted _ =>
      obtain rfl := List.mem_singleton.mp hvalue
      simp only [Item.countedText]
      split
      · exact Nat.zero_le _
      · exact Store.valid_slice h _ _

theorem valid_readSlots {source : View} (h : s.Valid source) (slots : List Slot) (offset : Nat) :
    ∀ value ∈ readSlots order s source slots offset, value.Valid s := by
  induction slots generalizing offset with
  | nil =>
      intro value hvalue
      contradiction
  | cons slot slots ih =>
      intro value hvalue
      rcases List.mem_append.mp hvalue with hfirst | hrest
      · exact Shape.valid_read order _ (Store.valid_slice h _ _) value hfirst
      · exact ih _ value hrest

end Shown

theorem shownSlots_append (order : ByteOrder) (xs ys : List Slot) (data : Bytes) :
    shownSlots order (xs ++ ys) data =
      shownSlots order xs data ++ shownSlots order ys (data.drop (slotsWidth xs)) := by
  induction xs generalizing data with
  | nil => rfl
  | cons slot xs ih =>
      rw [List.cons_append, shownSlots, ih, shownSlots, List.append_assoc, List.drop_drop]
      rfl

/-- Bytes behind slots have no influence on what the slots show. -/
theorem shownSlots_take (order : ByteOrder) {slots : List Slot} {n : Nat} (data : Bytes)
    (h : slotsWidth slots ≤ n) : shownSlots order slots (data.take n) =
      shownSlots order slots data := by
  induction slots generalizing n data with
  | nil => rfl
  | cons slot slots ih =>
      simp only [slotsWidth, List.map_cons, List.sum_cons] at h ih
      rw [shownSlots, shownSlots, List.take_take, Nat.min_eq_left (by omega), List.drop_take,
        ih _ (by omega)]

theorem readSlots_append (order : ByteOrder) (s : Store) (source : View) (xs ys : List Slot)
    (offset : Nat) :
    readSlots order s source (xs ++ ys) offset =
      readSlots order s source xs offset ++
        readSlots order s source ys (offset + slotsWidth xs) := by
  induction xs generalizing offset with
  | nil => rfl
  | cons slot xs ih =>
      simp only [List.cons_append, readSlots, ih, List.append_assoc, slotsWidth, List.map_cons,
        List.sum_cons, Nat.add_assoc]

/-- Reading a slot depends on nothing but the bytes in its field. -/
theorem Shape.read_congr (shape : Shape) (order : ByteOrder) {s t : Store} {field : View}
    (h : t.bytes field = s.bytes field) : shape.read order t field = shape.read order s field := by
  cases shape with
  | pad _ | unknown | string _ => rfl
  | element scalar => simp only [Shape.read, Scalar.decode, h]
  | counted _ => simp only [Shape.read, Item.countedText, h]

theorem readSlots_congr (order : ByteOrder) {s t : Store} {source : View} (slots : List Slot)
    {offset : Nat} (h : cut (t.bytes source) offset (slotsWidth slots) =
      cut (s.bytes source) offset (slotsWidth slots)) :
    readSlots order t source slots offset = readSlots order s source slots offset := by
  induction slots generalizing offset with
  | nil => rfl
  | cons slot slots ih =>
      simp only [slotsWidth, List.map_cons, List.sum_cons] at h ih
      have hfield := congrArg (fun data => cut data 0 slot.shape.width) h
      have hrest := congrArg
        (fun data => cut data slot.shape.width (slots.map (·.shape.width)).sum) h
      simp only at hfield hrest
      rw [cut_cut (by omega), cut_cut (by omega)] at hfield hrest
      have hread : t.bytes (source.slice offset (offset + slot.shape.width)) =
          s.bytes (source.slice offset (offset + slot.shape.width)) := by
        rw [Store.bytes_slice_add, Store.bytes_slice_add]
        exact hfield
      rw [readSlots, readSlots, slot.shape.read_congr order hread, ih hrest]

/-- A patch in front of slots makes no difference to them. -/
theorem readSlots_patch (order : ByteOrder) (s : Store) (source : View) (slots : List Slot)
    (offset : Nat) (data : Bytes) :
    readSlots order (s.patch source.block (source.offset + offset) data) source slots
        (offset + data.length) =
      readSlots order s source slots (offset + data.length) := by
  apply readSlots_congr
  rw [cut, cut, Store.drop_bytes_patch]

/-- Slots that lie in a cut can be read from the whole. -/
theorem readSlots_slice (order : ByteOrder) (s : Store) {source : View} {start stop : Nat}
    (slots : List Slot) (offset : Nat) (h : start + offset + slotsWidth slots ≤ stop)
    (hstop : stop ≤ source.size) :
    readSlots order s (source.slice start stop) slots offset =
      readSlots order s source slots (start + offset) := by
  induction slots generalizing offset with
  | nil => rfl
  | cons slot slots ih =>
      simp only [slotsWidth, List.map_cons, List.sum_cons] at h ih
      have hrest := ih (offset + slot.shape.width) (by omega)
      have hfield : (source.slice start stop).slice offset (offset + slot.shape.width) =
          source.slice (start + offset) (start + offset + slot.shape.width) := by
        rw [View.slice_slice]
        congr 1 <;> omega
      rw [readSlots, readSlots, hfield, hrest, Nat.add_assoc start]

namespace Item

variable (order : ByteOrder) (s : Store) (source : View)

theorem unpackScalars_read (item : Item) (scalar : Scalar) (count offset : Nat)
    (hfit : offset + count * scalar.width ≤ source.size) :
    unpackScalars scalar order s source count offset =
      ⟨readSlots order s source (List.replicate count ⟨item, .element scalar⟩) offset,
        offset + count * scalar.width, none⟩ := by
  induction count generalizing offset with
  | zero => simp only [unpackScalars, List.replicate_zero, readSlots, Nat.zero_mul, Nat.add_zero]
  | succ count ih =>
      rw [Nat.succ_mul] at hfit ⊢
      have hroom : offset + scalar.width ≤ source.size := by omega
      simp only [unpackScalars, View.field?_eq_some hroom, ih (offset + scalar.width) (by omega),
        List.replicate_succ, readSlots, Shape.width, Shape.read, List.singleton_append]
      congr 1
      omega

theorem unpack_read {item : Item} {offset : Nat} (hknown : item.kind?.isSome)
    (hfit : offset + item.size ≤ source.size) :
    item.unpack order s source offset =
      ⟨readSlots order s source item.slots offset, offset + item.size, none⟩ := by
  obtain ⟨code, hkind⟩ := Option.isSome_iff_exists.mp hknown
  rw [size_of_kind hkind] at hfit ⊢
  cases code with
  | scalar scalar =>
      simp only [unpack, slots, hkind]
      exact unpackScalars_read order s source item scalar item.count offset hfit
  | pad | string | counted =>
      rw [Code.width, Nat.mul_one] at hfit ⊢
      simp only [unpack, slots, hkind, unpackField, View.field?_eq_some hfit, readSlots,
        Shape.read, Shape.width, List.append_nil]

end Item

end PackedRecord
