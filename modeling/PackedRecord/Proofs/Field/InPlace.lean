import PackedRecord.Proofs.Field.Canonical
import PackedRecord.Proofs.Field.Live
import PackedRecord.Proofs.Field.Stepwise

/-!
Slots filled with what they yield, in place.

A text that was read from a slot is a view of the slot's own cells, and these
are zeros by the time the text is copied. So a string comes back as zeros, and a
counted text as zeros behind its length, which was taken from the view. All
other slots come back canonical, as from values that share nothing.
-/

namespace PackedRecord

/-- The bytes of a slot that was filled in place with the value it yields. -/
def Shape.refilled (shape : Shape) (order : ByteOrder) (data : Bytes) : Bytes :=
  match shape with
  | pad width | string width => List.replicate width 0
  | element scalar => scalar.canonical order data
  | counted 0 => []
  | counted (room + 1) =>
      UInt8.ofNat (min (data.headD 0).toNat room) :: List.replicate room 0
  | unknown => data

def refilledSlots (order : ByteOrder) : List Slot → Bytes → Bytes
  | [], _ => []
  | slot :: slots, data =>
      slot.shape.refilled order (data.take slot.shape.width) ++
        refilledSlots order slots (data.drop slot.shape.width)

/-- A slot whose text, if it has one, is all zeros. -/
def Shape.Blank (shape : Shape) (data : Bytes) : Prop :=
  match shape with
  | string _ => ∀ b ∈ data, b = 0
  | counted _ => ∀ b ∈ data.counted, b = 0
  | pad _ | element _ | unknown => True

def BlankSlots : List Slot → Bytes → Prop
  | [], _ => True
  | slot :: slots, data =>
      slot.shape.Blank (data.take slot.shape.width) ∧
        BlankSlots slots (data.drop slot.shape.width)

theorem Bytes.fit_zeros (n width : Nat) :
    fit width (List.replicate n 0) = List.replicate width 0 := by
  rw [fit, List.take_replicate, List.length_replicate, List.replicate_append_replicate]
  congr 1
  omega

/-- A counted text that reads as zeros keeps its length. -/
theorem Bytes.fitCounted_zeros (order : ByteOrder) {width : Nat} {data : Bytes}
    (h : data.length = width) :
    fitCounted width (List.replicate (min data.counted.length (width - 1)) 0) =
      (Shape.counted width).refilled order data := by
  cases width with
  | zero => rfl
  | succ room =>
      simp only [fitCounted, fit_zeros, Shape.refilled, List.length_replicate, length_counted, h,
        Nat.add_sub_cancel, Nat.min_assoc, Nat.min_self]

namespace Shape

variable (order : ByteOrder) {shape : Shape} {data : Bytes} (h : data.length = shape.width)
include h

theorem length_refilled : (shape.refilled order data).length = shape.width := by
  cases shape with
  | pad width | string width => exact List.length_replicate
  | element scalar => exact Scalar.length_canonical order h
  | unknown => exact h
  | counted width =>
      cases width with
      | zero => rfl
      | succ room => simp only [refilled, List.length_cons, List.length_replicate, width]

/-- What a slot loses in place is its text. -/
theorem refilled_eq_canonical_iff :
    shape.refilled order data = shape.canonical order data ↔ shape.Blank data := by
  cases shape with
  | pad width | element scalar | unknown => exact iff_of_true rfl trivial
  | string width =>
      have hdata : data.length = width := h
      simp only [refilled, canonical, Blank]
      rw [eq_comm, List.eq_replicate_iff]
      exact and_iff_right hdata
  | counted width =>
      cases width with
      | zero =>
          have hdata : data = [] := List.length_eq_zero_iff.mp h
          rw [hdata]
          exact iff_of_true rfl fun b hb => absurd hb List.not_mem_nil
      | succ room =>
          have hdata : data.length = room + 1 := h
          have hcounted := Bytes.length_counted data
          simp only [refilled, canonical, Blank, List.cons.injEq, true_and]
          rw [hdata, Nat.add_sub_cancel] at hcounted
          have htext : (data.drop 1).take (min (data.headD 0).toNat room) = data.counted := by
            rw [Bytes.counted, hdata, Nat.add_sub_cancel]
          rw [htext, ← hcounted, eq_comm]
          constructor
          · intro heq b hb
            have hmem : b ∈ List.replicate room 0 := heq ▸ List.mem_append_left _ hb
            exact List.eq_of_mem_replicate hmem
          · intro hblank
            have hzeros := List.eq_replicate_of_mem hblank
            rw [hzeros, List.length_replicate, List.replicate_append_replicate]
            congr 1
            omega

end Shape

section Slots

variable (order : ByteOrder)

theorem length_refilledSlots (slots : List Slot) {data : Bytes}
    (h : slotsWidth slots ≤ data.length) :
    (refilledSlots order slots data).length = slotsWidth slots := by
  induction slots generalizing data with
  | nil => rfl
  | cons slot slots ih =>
      simp only [slotsWidth, List.map_cons, List.sum_cons] at h ih ⊢
      have hfield : (data.take slot.shape.width).length = slot.shape.width := by
        rw [List.length_take]
        omega
      rw [refilledSlots, List.length_append, Shape.length_refilled order hfield,
        ih (by rw [List.length_drop]; omega)]

theorem refilledSlots_eq_canonicalSlots_iff (slots : List Slot) {data : Bytes}
    (h : slotsWidth slots ≤ data.length) :
    refilledSlots order slots data = canonicalSlots order slots data ↔ BlankSlots slots data := by
  induction slots generalizing data with
  | nil => exact iff_of_true rfl trivial
  | cons slot slots ih =>
      simp only [slotsWidth, List.map_cons, List.sum_cons] at h ih
      have hfield : (data.take slot.shape.width).length = slot.shape.width := by
        rw [List.length_take]
        omega
      have hlength : (slot.shape.refilled order (data.take slot.shape.width)).length =
          (slot.shape.canonical order (data.take slot.shape.width)).length := by
        rw [Shape.length_refilled order hfield, Shape.length_canonical order hfield]
      have hfirst := Shape.refilled_eq_canonical_iff order hfield
      have hbehind : (slots.map (·.shape.width)).sum ≤ (data.drop slot.shape.width).length := by
        rw [List.length_drop]
        omega
      have hrest := ih hbehind
      rw [refilledSlots, canonicalSlots, BlankSlots, ← hfirst, ← hrest]
      constructor
      · intro heq
        exact List.append_inj heq hlength
      · intro heq
        rw [heq.1, heq.2]

end Slots

section Place

variable (order : ByteOrder) {s : Store} {target : View} (hvalid : s.Valid target)
include hvalid

/-- Filling a slot in place with the value it yields. -/
theorem Shape.place?_read {shape : Shape} (hbounded : shape.Bounded) {offset : Nat}
    (hfit : offset + shape.width ≤ target.size) (rest : List Value) :
    let field := target.slice offset (offset + shape.width)
    shape.place? order s field (shape.read order s field ++ rest)[0]? =
      some (s.patch target.block (target.offset + offset)
        (shape.refilled order (s.bytes field))) := by
  intro field
  have hfield : s.Valid field := Store.valid_slice hvalid _ _
  have hsize : field.size = shape.width := by
    rw [View.size_slice]
    omega
  have hlength := (Store.length_bytes hfield).trans hsize
  have hzeros : (s.fill field 0).bytes field = List.replicate shape.width 0 :=
    Store.bytes_fill_slice hvalid hfit
  cases shape with
  | unknown => contradiction
  | pad width => exact congrArg some (Store.fill_slice s hfit)
  | element scalar =>
      have hword := Scalar.encode?_decode order hlength
      have hwidth := Scalar.length_canonical order hlength
      simp only [read, place?, List.singleton_append, List.getElem?_cons_zero, hword,
        Option.map_some, refilled]
      rw [Store.write_slice s (by rw [hwidth]; exact Nat.le_refl _) hfit]
  | string width =>
      have hplace : Item.placeString width s field field =
          s.patch target.block (target.offset + offset)
            (((s.fill field 0).bytes field).fit width) :=
        Item.placeString_patch field hfit
      rw [hzeros, Bytes.fit_zeros] at hplace
      exact congrArg some hplace
  | counted width =>
      have htext : s.Valid (Item.countedText s field) :=
        valid_read order (counted width) hfield _ List.mem_cons_self
      obtain ⟨data, -, hplace, hdata⟩ :=
        Item.placeCounted_patch (s := s) (Item.countedText s field) hfit
      have hlater := Item.bytes_countedText_later (t := s.fill field 0) hfield
      rw [hzeros, List.drop_replicate, List.take_replicate] at hlater
      rw [hdata htext, hlater, Bytes.fitCounted_zeros order hlength] at hplace
      exact congrArg some hplace

/-- Filling slots in place with the values they yield. No slot reaches beyond its own
field, so each still yields what it did at the beginning when its turn comes. -/
theorem placeSlots_readSlots (slots : List Slot) (hbounded : ∀ slot ∈ slots, slot.shape.Bounded)
    {values : List Value} {p : Progress} (hfit : p.offset + slotsWidth slots ≤ target.size)
    (hvalues : values.drop p.consumed = readSlots order s target slots p.offset) :
    placeSlots order target values slots s p =
      s.patch target.block (target.offset + p.offset)
        (refilledSlots order slots ((s.bytes target).drop p.offset)) := by
  induction slots generalizing s p with
  | nil => exact (Store.patch_nil s _ _).symm
  | cons slot slots ih =>
      simp only [slotsWidth, List.map_cons, List.sum_cons] at hfit ih
      have hroom : p.offset + slot.shape.width ≤ target.size := by omega
      let field := target.slice p.offset (p.offset + slot.shape.width)
      let data := slot.shape.refilled order (s.bytes field)
      let t := s.patch target.block (target.offset + p.offset) data
      have hnext : values[p.consumed]? = (slot.shape.read order s field ++
          readSlots order s target slots (p.offset + slot.shape.width))[0]? := by
        have hhead := congrArg (fun left => left[0]?) hvalues
        rwa [List.getElem?_drop, Nat.add_zero, readSlots] at hhead
      have hplace : slot.shape.place? order s
          (target.slice p.offset (p.offset + slot.shape.width)) values[p.consumed]? = some t := by
        rw [hnext]
        exact Shape.place?_read order hvalid (hbounded slot List.mem_cons_self) hroom _
      have hlength : data.length = slot.shape.width := by
        apply Shape.length_refilled order
        rw [Store.length_bytes (Store.valid_slice hvalid _ _), View.size_slice]
        omega
      have htail : (t.bytes target).drop (p.offset + slot.shape.width) =
          (s.bytes target).drop (p.offset + slot.shape.width) := by
        rw [← hlength]
        exact Store.drop_bytes_patch _ _ _ _
      have hrest : values.drop (p.consumed + slot.shape.taken) =
          readSlots order t target slots (p.offset + slot.shape.width) := by
        rw [← List.drop_drop, hvalues, readSlots, List.drop_left' (Shape.length_read order _ s _),
          ← hlength]
        exact (readSlots_patch order s target slots p.offset data).symm
      have hfield : s.bytes field = ((s.bytes target).drop p.offset).take slot.shape.width := by
        rw [Store.bytes_slice_add]
        rfl
      have hrun := ih (s := t)
        (p := ⟨p.offset + slot.shape.width, p.consumed + slot.shape.taken⟩)
        (Store.valid_patch.mpr hvalid) (fun other h => hbounded other (List.mem_cons_of_mem _ h))
        (by simp only; omega) hrest
      simp only [htail] at hrun
      simp only [placeSlots, hplace, hrun, refilledSlots, ← hfield, List.drop_drop]
      rw [← Nat.add_assoc, ← hlength]
      exact Store.patch_patch_append _ _ _ _ _

end Place

end PackedRecord
