import PackedRecord.Proofs.Field.Fault
import PackedRecord.Proofs.Field.RoundTrip
import PackedRecord.Proofs.Floating.Words

/-!
Bytes written back.

Any bytes in a slot can be read, and writing the values again restores them up
to what the values do not show: padding, which byte stood for true, the part of
a counted field behind its text, and the patterns that are not a number. The
canonical bytes have nothing left to lose.
-/

namespace PackedRecord

/-- The bytes that an element has after it was read and written again. -/
def Scalar.canonical (scalar : Scalar) (order : ByteOrder) (data : Bytes) : Bytes :=
  match scalar with
  | boolean => data.map fun b => if b = 0 then 0 else 1
  | half =>
      match FloatLayout.binary16.classify (order.decode data) with
      | .nan negative _ => order.encode 2 (if negative then 0xFE00 else 0x7E00)
      | _ => data
  | single =>
      match FloatLayout.binary32.classify (order.decode data) with
      | .nan _ _ => order.encode 4 (order.decode data ||| 0x00400000)
      | _ => data
  | character | integer _ _ | double => data

def Shape.canonical (shape : Shape) (order : ByteOrder) (data : Bytes) : Bytes :=
  match shape with
  | pad width => List.replicate width 0
  | element scalar => scalar.canonical order data
  | string _ | unknown => data
  | counted 0 => []
  | counted (room + 1) =>
      let kept := min (data.headD 0).toNat room
      UInt8.ofNat kept :: ((data.drop 1).take kept ++ List.replicate (room - kept) 0)

/-- The canonical bytes of slots that lie side by side from the first byte on. -/
def canonicalSlots (order : ByteOrder) : List Slot → Bytes → Bytes
  | [], _ => []
  | slot :: slots, data =>
      slot.shape.canonical order (data.take slot.shape.width) ++
        canonicalSlots order slots (data.drop slot.shape.width)

namespace Scalar

variable (order : ByteOrder) {s : Store} {field : View}

/-- The word that an element has after it was read and written again. -/
def canonicalWord : Scalar → Nat → Nat
  | boolean, word => if word = 0 then 0 else 1
  | half, word => Binary16.canonical word
  | single, word => Binary32.canonical word
  | character, word | integer _ _, word | double, word => word

theorem canonicalWord_lt {scalar : Scalar} {word : Nat}
    (h : word < ByteOrder.wordCount scalar.width) :
    scalar.canonicalWord word < ByteOrder.wordCount scalar.width := by
  cases scalar with
  | character | integer _ _ | double => exact h
  | boolean =>
      rw [canonicalWord]
      split <;> decide
  | half => exact Binary16.canonical_lt h
  | single => exact Binary32.canonical_lt h

theorem canonicalWord_canonicalWord {scalar : Scalar} {word : Nat}
    (h : word < ByteOrder.wordCount scalar.width) :
    scalar.canonicalWord (scalar.canonicalWord word) = scalar.canonicalWord word := by
  cases scalar with
  | character | integer _ _ | double => rfl
  | boolean => by_cases hzero : word = 0 <;> simp [canonicalWord, hzero]
  | half => exact Binary16.canonical_canonical word
  | single => exact Binary32.canonical_canonical h

theorem decode_singleton (b : UInt8) : order.decode [b] = b.toNat := by
  cases order <;> exact Nat.add_zero _

/-- What happens to the bytes of an element happens to the word that they make up. -/
theorem canonical_eq_encode {scalar : Scalar} {data : Bytes} (h : data.length = scalar.width) :
    scalar.canonical order data =
      order.encode scalar.width (scalar.canonicalWord (order.decode data)) := by
  have hdata := order.encode_decode data
  rw [h] at hdata
  cases scalar with
  | character | integer _ _ | double => exact hdata.symm
  | boolean =>
      obtain ⟨b, rfl⟩ := List.length_eq_one_iff.mp h
      rw [decode_singleton]
      by_cases hzero : b = 0
      · rw [hzero]
        cases order <;> rfl
      · have hword : b.toNat ≠ 0 := fun h => hzero (UInt8.toNat_inj.mp h)
        simp only [canonical, canonicalWord, List.map_cons, List.map_nil, if_neg hzero,
          if_neg hword]
        cases order <;> rfl
  | half | single =>
      simp only [canonical, canonicalWord, Binary16.canonical, Binary32.canonical]
      generalize FloatLayout.classify _ (order.decode data) = datum
      cases datum with
      | nan negative payload => rfl
      | finite _ _ | infinite _ => exact hdata.symm

/-- An integer is written back as the word it was read from. -/
theorem encode_residue (size : IntSize) {n : Int} {data : Bytes}
    (hlength : data.length = size.width)
    (h : n % 2 ^ (8 * size.width) = order.decode data % 2 ^ (8 * size.width)) :
    order.encode size.width (n % (ByteOrder.wordCount size.width : Nat)).toNat = data := by
  have hlt := order.decode_lt data
  have hword : n % ((ByteOrder.wordCount size.width : Nat) : Int) = order.decode data := by
    rw [ByteOrder.wordCount_eq]
    push_cast
    rw [h, Int.emod_eq_of_lt (by omega)]
    rw [hlength, ByteOrder.wordCount_eq] at hlt
    exact_mod_cast hlt
  have hdata := order.encode_decode data
  rw [hword, Int.toNat_natCast, ← hlength, hdata]

theorem encode?_decode {scalar : Scalar} (hlength : (s.bytes field).length = scalar.width) :
    scalar.encode? order s (scalar.decode order s field) =
      some (scalar.canonical order (s.bytes field)) := by
  have hlt := order.decode_lt (s.bytes field)
  have hdata := order.encode_decode (s.bytes field)
  rw [hlength] at hlt hdata
  cases scalar with
  | character =>
      obtain ⟨b, hb⟩ := List.length_eq_one_iff.mp hlength
      simp only [encode?, decode, canonical, Value.view?, Option.map_some, hb, List.headD_cons]
  | boolean =>
      obtain ⟨b, hb⟩ := List.length_eq_one_iff.mp hlength
      simp only [encode?, decode, canonical, Value.truthy, hb, decode_singleton, List.map_cons,
        List.map_nil]
      by_cases hzero : b = 0
      · rw [hzero]
        rfl
      · have hnat : b.toNat ≠ 0 := fun h => hzero (UInt8.toNat_inj.mp h)
        rw [if_pos (bne_iff_ne.mpr hnat), if_neg hzero]
  | integer signed size =>
      cases signed with
      | true =>
          simp only [decode, canonical]
          obtain ⟨hmod, -, -⟩ := toInt_ofInt_bmod size (order.decode (s.bytes field))
          generalize Int64.ofInt _ = m at hmod ⊢
          have hcounts : (Value.int m).CountsIn size m.toInt := by cases size <;> rfl
          have hhigh := m.toInt_lt
          rw [encode?_integer hcounts (fun _ => ⟨m.le_toInt, by omega⟩),
            encode_residue order size hlength hmod]
      | false =>
          simp only [decode, canonical]
          have hword : (UInt64.ofNat (order.decode (s.bytes field))).toNat =
              order.decode (s.bytes field) := by
            apply UInt64.toNat_ofNat_of_lt'
            exact Nat.lt_of_lt_of_le hlt (by cases size <;> decide)
          generalize UInt64.ofNat _ = m at hword ⊢
          have hcounts : (Value.uint m).CountsIn size m.toNat := by cases size <;> rfl
          have hhigh := m.toNat_lt
          rw [encode?_integer hcounts (fun _ => by omega), encode_residue order size hlength]
          rw [hword]
  | half =>
      have hbits : (UInt16.ofNat (order.decode (s.bytes field))).toNat =
          order.decode (s.bytes field) := UInt16.toNat_ofNat_of_lt' hlt
      simp only [encode?, decode, Value.real?, Option.map_some, Binary16.toBinary16_toBinary64,
        hbits, canonical_eq_encode order hlength, canonicalWord, width]
  | single =>
      have hbits : (UInt32.ofNat (order.decode (s.bytes field))).toNat =
          order.decode (s.bytes field) := UInt32.toNat_ofNat_of_lt' hlt
      simp only [encode?, decode, Value.real?, Option.map_some, Binary32.toBinary32_toBinary64,
        hbits, canonical_eq_encode order hlength, canonicalWord, width]
  | double =>
      have hbits : (UInt64.ofNat (order.decode (s.bytes field))).toNat =
          order.decode (s.bytes field) := UInt64.toNat_ofNat_of_lt' hlt
      simp only [encode?, decode, Value.real?, Option.map_some, Binary64.ofNatBits, hbits,
        canonical]
      exact congrArg some hdata

theorem length_canonical {scalar : Scalar} {data : Bytes} (h : data.length = scalar.width) :
    (scalar.canonical order data).length = scalar.width := by
  rw [canonical_eq_encode order h, ByteOrder.length_encode]

theorem canonical_canonical {scalar : Scalar} {data : Bytes} (h : data.length = scalar.width) :
    scalar.canonical order (scalar.canonical order data) = scalar.canonical order data := by
  have hword := order.decode_lt data
  rw [h] at hword
  rw [canonical_eq_encode order (length_canonical order h), canonical_eq_encode order h,
    ByteOrder.decode_encode, Nat.mod_eq_of_lt (canonicalWord_lt hword),
    canonicalWord_canonicalWord hword]

end Scalar

namespace Bytes

/-- A counted text is written back with zeros behind it. -/
theorem fitCounted_counted (order : ByteOrder) {width : Nat} {data : Bytes}
    (h : data.length = width) :
    fitCounted width data.counted = (Shape.counted width).canonical order data := by
  cases width with
  | zero => rfl
  | succ room =>
      have hlength : data.counted.length = min (data.headD 0).toNat room := by
        rw [length_counted, h, Nat.add_sub_cancel]
      simp only [fitCounted, fit, Shape.canonical, hlength]
      rw [List.take_of_length_le (show data.counted.length ≤ room by omega), Nat.min_assoc,
        Nat.min_self, counted, h, Nat.add_sub_cancel]

end Bytes

namespace Shape

variable (order : ByteOrder) {s : Store} {field : View}

/-- Filling a slot with the value it yields. The values behind that one do not
matter. -/
theorem encode?_read {shape : Shape} (hbounded : shape.Bounded) (hvalid : s.Valid field)
    (hsize : field.size = shape.width) (rest : List Value) :
    shape.encode? order s (shape.read order s field ++ rest)[0]? =
      some (shape.canonical order (s.bytes field)) := by
  have hlength := (Store.length_bytes hvalid).trans hsize
  cases shape with
  | unknown => contradiction
  | pad width => cases rest <;> rfl
  | element scalar => exact Scalar.encode?_decode order hlength
  | string width =>
      have hfit : (s.bytes field).fit width = s.bytes field := by
        rw [Bytes.fit, hlength]
        simp only [Shape.width, Nat.sub_self, List.replicate_zero, List.append_nil]
        exact List.take_of_length_le (Nat.le_of_eq hlength)
      exact congrArg some hfit
  | counted width =>
      have htext := Item.bytes_countedText hvalid
      have hfit := Bytes.fitCounted_counted order hlength
      simp only [read, encode?, List.singleton_append, List.getElem?_cons_zero, Value.content?,
        Value.view?, Option.map_some, htext]
      exact congrArg some hfit

variable {shape : Shape} {data : Bytes} (h : data.length = shape.width)
include h

theorem length_canonical : (shape.canonical order data).length = shape.width := by
  cases shape with
  | pad width => exact List.length_replicate
  | element scalar => exact Scalar.length_canonical order h
  | string width | unknown => exact h
  | counted width =>
      have hdata : data.length = width := h
      rw [← Bytes.fitCounted_counted order hdata]
      exact Bytes.length_fitCounted width _

theorem canonical_canonical :
    shape.canonical order (shape.canonical order data) = shape.canonical order data := by
  cases shape with
  | pad width | string width | unknown => rfl
  | element scalar => exact Scalar.canonical_canonical order h
  | counted width =>
      cases width with
      | zero => rfl
      | succ room =>
          have hbyte := (data.headD 0).toNat_lt
          have hcontent : (data.drop 1).length = room := by
            rw [List.length_drop, h]
            rfl
          have hkept : (UInt8.ofNat (min (data.headD 0).toNat room)).toNat =
              min (data.headD 0).toNat room :=
            UInt8.toNat_ofNat_of_lt' (Nat.lt_of_le_of_lt (Nat.min_le_left _ _) hbyte)
          simp only [canonical, List.headD_cons, hkept, Nat.min_assoc, Nat.min_self, List.drop_one,
            List.tail_cons]
          rw [List.take_append_of_le_length
            (by rw [List.length_take, ← List.drop_one, hcontent]; omega), List.take_take,
            Nat.min_self]

end Shape

section Slots

variable (order : ByteOrder) {s : Store}

/-- Canonical bytes are their own canonical bytes. -/
theorem canonicalSlots_canonicalSlots (slots : List Slot) {data : Bytes}
    (h : slotsWidth slots ≤ data.length) :
    canonicalSlots order slots (canonicalSlots order slots data) =
      canonicalSlots order slots data := by
  induction slots generalizing data with
  | nil => rfl
  | cons slot slots ih =>
      simp only [slotsWidth, List.map_cons, List.sum_cons] at h ih
      have hdata : (data.take slot.shape.width).length = slot.shape.width := by
        rw [List.length_take]
        omega
      have hfirst := Shape.length_canonical order hdata
      simp only [canonicalSlots]
      rw [List.take_left' hfirst, List.drop_left' hfirst, Shape.canonical_canonical order hdata,
        ih (by rw [List.length_drop]; omega)]

/-- Slots whose values show all of their bytes. -/
def Shape.Exact : Shape → Prop
  | .element .character | .element (.integer _ _) | .element .double | .string _ => True
  | .element .boolean | .element .half | .element .single | .pad _ | .counted _ | .unknown => False

theorem Shape.canonical_of_exact {shape : Shape} (h : shape.Exact) (data : Bytes) :
    shape.canonical order data = data := by
  cases shape with
  | element scalar => cases scalar <;> first | contradiction | rfl
  | string width => rfl
  | pad _ | counted _ | unknown => contradiction

theorem canonicalSlots_of_exact (slots : List Slot) (h : ∀ slot ∈ slots, slot.shape.Exact)
    (data : Bytes) : canonicalSlots order slots data = data.take (slotsWidth slots) := by
  induction slots generalizing data with
  | nil => exact List.take_zero.symm
  | cons slot slots ih =>
      rw [canonicalSlots, Shape.canonical_of_exact order (h slot List.mem_cons_self),
        ih fun other hother => h other (List.mem_cons_of_mem _ hother)]
      exact List.take_add.symm

/-- The codes of exact slots. -/
def exactCodes : Bytes :=
  Bytes.ofChars ['c', 'b', 'B', 'h', 'H', 'i', 'I', 'l', 'L', 'q', 'Q', 'd', 's']

theorem Item.exact_of_code {item : Item} (h : item.code ∈ exactCodes) :
    ∀ slot ∈ item.slots, slot.shape.Exact := by
  have hkind : item.kind? = some .string ∨
      ∃ scalar, item.kind? = some (.scalar scalar) ∧ (Shape.element scalar).Exact := by
    obtain ⟨count, code⟩ := item
    simp only [exactCodes, Bytes.ofChars, List.map_cons, List.map_nil, List.mem_cons,
      List.not_mem_nil, or_false] at h
    rcases h with rfl | rfl | rfl | rfl | rfl | rfl | rfl | rfl | rfl | rfl | rfl | rfl | rfl
    case inr.inr.inr.inr.inr.inr.inr.inr.inr.inr.inr.inr => exact .inl rfl
    all_goals exact .inr ⟨_, rfl, trivial⟩
  intro slot hslot
  rcases hkind with hkind | ⟨scalar, hkind, hexact⟩
  · simp only [slots, hkind, List.mem_singleton] at hslot
    rw [hslot]
    trivial
  · simp only [slots, hkind] at hslot
    rw [List.eq_of_mem_replicate hslot]
    exact hexact

variable {source : View} (hvalid : s.Valid source)
include hvalid

/-- A slot of a source can be filled with what it yields. -/
theorem encode?_read_slice {slot : Slot} (hbounded : slot.shape.Bounded) {offset : Nat}
    (hfit : offset + slot.shape.width ≤ source.size) (rest : List Value) :
    slot.shape.encode? order s
        (slot.shape.read order s (source.slice offset (offset + slot.shape.width)) ++ rest)[0]? =
      some (slot.shape.canonical order
        (((s.bytes source).drop offset).take slot.shape.width)) := by
  have hsize : (source.slice offset (offset + slot.shape.width)).size = slot.shape.width := by
    rw [View.size_slice]
    omega
  rw [Shape.encode?_read order hbounded (Store.valid_slice hvalid _ _) hsize, Store.bytes_slice_add]
  rfl

/-- Slots can be filled with the values they yield. -/
theorem slotFault?_readSlots (slots : List Slot) (hbounded : ∀ slot ∈ slots, slot.shape.Bounded)
    {offset : Nat} (hfit : offset + slotsWidth slots ≤ source.size) (i : Nat) :
    slotFault? slots (readSlots order s source slots offset) i = none := by
  induction slots generalizing offset i with
  | nil => rfl
  | cons slot slots ih =>
      simp only [slotsWidth, List.map_cons, List.sum_cons] at hfit ih
      cases i with
      | zero =>
          rw [slotFault?_zero, readSlots, Shape.fault?_eq_none_iff _ order s,
            encode?_read_slice order hvalid (hbounded slot List.mem_cons_self) (by omega)]
          rfl
      | succ i =>
          rw [slotFault?_succ, readSlots, List.drop_left' (Shape.length_read order _ s _)]
          exact ih (fun other h => hbounded other (List.mem_cons_of_mem _ h)) (by omega) i

theorem slotBytes_readSlots (slots : List Slot) (hbounded : ∀ slot ∈ slots, slot.shape.Bounded)
    {offset : Nat} (hfit : offset + slotsWidth slots ≤ source.size) :
    slotBytes order s (readSlots order s source slots offset) slots 0 =
      canonicalSlots order slots ((s.bytes source).drop offset) := by
  induction slots generalizing offset with
  | nil => rfl
  | cons slot slots ih =>
      simp only [slotsWidth, List.map_cons, List.sum_cons] at hfit ih
      have hencode := encode?_read_slice order hvalid (hbounded slot List.mem_cons_self)
        (show offset + slot.shape.width ≤ source.size by omega)
        (readSlots order s source slots (offset + slot.shape.width))
      have hrest := ih (fun other h => hbounded other (List.mem_cons_of_mem _ h))
        (show offset + slot.shape.width + (slots.map (·.shape.width)).sum ≤ source.size by omega)
      rw [readSlots, slotBytes, hencode, canonicalSlots, slotBytes_drop, Nat.zero_add,
        List.drop_left' (Shape.length_read order _ s _), hrest, List.drop_drop]

end Slots

end PackedRecord
