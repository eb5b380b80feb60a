import PackedRecord.Proofs.Record.RoundTrip

/-!
What unpacking yields.

Every item is decoded by itself, at the sum of the sizes of the items before it,
up to the first unknown code. The check of the size at the beginning makes up
for all later ones, and no byte behind the record has any influence.
-/

namespace PackedRecord

/-- The values that an item at an offset of a source stands for. -/
def Item.decoded (item : Item) (order : ByteOrder) (s : Store) (source : View) (offset : Nat) :
    List Value :=
  match item.kind? with
  | none | some .pad => []
  | some (.scalar scalar) =>
      (List.range item.count).map fun i =>
        let start := offset + i * scalar.width
        scalar.decode order s (source.slice start (start + scalar.width))
  | some .string => [.bytes (source.slice offset (offset + item.count))]
  | some .counted => [.bytes (countedText s (source.slice offset (offset + item.count)))]

theorem Item.length_decoded (item : Item) (order : ByteOrder) (s : Store) (source : View)
    (offset : Nat) : (item.decoded order s source offset).length = item.valueCount := by
  rw [decoded, valueCount]
  cases item.kind? with
  | none => rfl
  | some code =>
      cases code with
      | scalar scalar => rw [List.length_map, List.length_range]
      | pad | string | counted => rfl

section

variable (order : ByteOrder) (s : Store) (source : View)

theorem readSlots_replicate (item : Item) (scalar : Scalar) (count offset : Nat) :
    readSlots order s source (List.replicate count ⟨item, .element scalar⟩) offset =
      (List.range count).map fun i =>
        let start := offset + i * scalar.width
        scalar.decode order s (source.slice start (start + scalar.width)) := by
  induction count generalizing offset with
  | zero => rfl
  | succ count ih =>
      rw [List.replicate_succ, readSlots, ih, List.range_succ_eq_map, List.map_cons, List.map_map]
      simp only [Shape.read, Shape.width, List.singleton_append, Nat.zero_mul, Nat.add_zero,
        List.cons.injEq, true_and]
      apply List.map_congr_left
      intro i _
      simp only [Function.comp_apply, Nat.succ_mul, Nat.add_assoc, Nat.add_comm scalar.width]

theorem Item.readSlots_slots (item : Item) (offset : Nat) :
    readSlots order s source item.slots offset = item.decoded order s source offset := by
  rw [slots, decoded]
  cases item.kind? with
  | none => rfl
  | some code =>
      cases code with
      | scalar scalar => exact readSlots_replicate order s source item scalar item.count offset
      | pad | string | counted => rfl

/-- Each item is read at the sum of the sizes of those before it. -/
theorem readSlots_slotsOf (items : List Item) (offset : Nat) :
    readSlots order s source (slotsOf items) offset =
      items.zipIdx.flatMap fun p =>
        p.1.decoded order s source (offset + totalSize (items.take p.2)) := by
  induction items generalizing offset with
  | nil => rfl
  | cons item items ih =>
      rw [slotsOf_cons, readSlots_append, item.readSlots_slots, item.slotsWidth_slots, ih,
        List.zipIdx_cons, List.zipIdx_succ, List.flatMap_cons, List.flatMap_map]
      simp only [List.take_zero, totalSize_nil, Nat.add_zero, List.take_succ_cons, totalSize_cons,
        Nat.add_assoc]

end

/-- The items before the first unknown code. -/
def knownItems (items : List Item) : List Item :=
  items.takeWhile (·.kind?.isSome)

theorem isPrefix_knownItems (items : List Item) : knownItems items <+: items :=
  List.takeWhile_prefix _

theorem totalSize_knownItems_le (items : List Item) :
    totalSize (knownItems items) ≤ totalSize items := by
  obtain ⟨rest, hrest⟩ := isPrefix_knownItems items
  have happend := totalSize_append (knownItems items) rest
  rw [hrest] at happend
  omega

theorem knownItems_eq_self {items : List Item} (h : ∀ item ∈ items, item.kind?.isSome) :
    knownItems items = items :=
  List.takeWhile_eq_self_iff.mpr h

namespace Format

variable {format : Format} {s : Store} {source : View}
  (hfits : (checkCapacity format.items source.size).2 = none)
include hfits

theorem failure_unpack :
    (format.unpack s source).failure =
      (format.items.find? (·.kind?.isNone)).map .unknownCode := by
  rw [unpack_of_fits hfits]

/-- The values are those of the items one after the other, each at its offset. -/
theorem values_unpack :
    (format.unpack s source).values = (knownItems format.items).zipIdx.flatMap fun p =>
      p.1.decoded format.order s source (totalSize (format.items.take p.2)) := by
  rw [unpack_of_fits hfits]
  refine (readSlots_slotsOf format.order s source (knownItems format.items) 0).trans ?_
  apply List.flatMap_congr
  intro p hp
  -- the known items begin the list, so their offsets are those in the whole of it
  have hlt : p.2 < (knownItems format.items).length := by
    have hmem := List.mem_zipIdx hp
    omega
  rw [Nat.zero_add, List.prefix_iff_eq_take.mp (isPrefix_knownItems format.items), List.take_take,
    Nat.min_eq_left (Nat.le_of_lt hlt)]

/-- What the values show is decided by the bytes of the record. -/
theorem shown_unpack (hvalid : s.Valid source) :
    (format.unpack s source).values.map (·.shown s) =
      shownSlots format.order (slotsOf (knownItems format.items))
        ((s.bytes source).take (totalSize format.items)) := by
  have hwidth : slotsWidth (slotsOf (knownItems format.items)) ≤ totalSize format.items := by
    rw [slotsWidth_slotsOf]
    exact totalSize_knownItems_le format.items
  rw [unpack_of_fits hfits, shownSlots_take format.order _ hwidth]
  exact shown_readSlots format.order hvalid _ 0

/-- Sources that begin with the same record are unpacked alike, in any two stores. -/
theorem unpack_alike {t : Store} {other : View}
    (hother : (checkCapacity format.items other.size).2 = none) (hs : s.Valid source)
    (ht : t.Valid other) (hbytes : (t.bytes other).take (totalSize format.items) =
      (s.bytes source).take (totalSize format.items)) :
    (format.unpack t other).failure = (format.unpack s source).failure ∧
      (format.unpack t other).values.map (·.shown t) =
        (format.unpack s source).values.map (·.shown s) := by
  refine ⟨?_, ?_⟩
  · rw [failure_unpack hfits, failure_unpack hother]
  · rw [shown_unpack hfits hs, shown_unpack hother ht, hbytes]

theorem failure_unpack_eq_none_iff :
    (format.unpack s source).failure = none ↔ ∀ item ∈ format.items, item.kind?.isSome := by
  rw [failure_unpack hfits]
  simp [Option.isSome_iff_ne_none]

theorem fault_unpack {failure : Failure} (h : (format.unpack s source).failure = some failure) :
    failure.fault = .pack .unknownFormat := by
  rw [failure_unpack hfits] at h
  obtain ⟨item, -, rfl⟩ := Option.map_eq_some_iff.mp h
  rfl

/-- What unpacking yields from a source: the values of the items before the first unknown
code, each item decoded at the sum of the sizes in front of it, and no failure
but that code. -/
structure Decoded (format : Format) (s : Store) (source : View) (unpacked : Unpacked) : Prop where
  success : unpacked.failure = none ↔ ∀ item ∈ format.items, item.kind?.isSome
  failure : unpacked.failure = (format.items.find? (·.kind?.isNone)).map .unknownCode
  fault : ∀ failure, unpacked.failure = some failure →
    failure.fault = .pack .unknownFormat ∧ failure.fault ≠ .core .outOfRange
  values : unpacked.values = (knownItems format.items).zipIdx.flatMap fun p =>
    p.1.decoded format.order s source (totalSize (format.items.take p.2))
  count : unpacked.values.length = ((knownItems format.items).map Item.valueCount).sum

theorem decoded_unpack : format.Decoded s source (format.unpack s source) := by
  refine ⟨failure_unpack_eq_none_iff hfits, failure_unpack hfits, ?_, values_unpack hfits, ?_⟩
  · intro failure h
    rw [fault_unpack hfits h]
    exact ⟨rfl, fun hcore => by contradiction⟩
  · have hitems := List.zipIdx_map_fst 0 (knownItems format.items)
    rw [values_unpack hfits, List.length_flatMap]
    simp only [Item.length_decoded]
    rw [← congrArg (List.map Item.valueCount) hitems, List.map_map]
    rfl

end Format

section Success

variable {format : Format} {s : Store} {source : View}
  (h : (format.unpack s source).failure = none)
include h

theorem Format.fits_of_unpack : (checkCapacity format.items source.size).2 = none := by
  cases hcheck : checkCapacity format.items source.size with
  | mk extent refused =>
      rw [unpack, hcheck] at h
      cases refused with
      | none => rfl
      | some failure => contradiction

/-- Success means that every item was decoded at its place. -/
theorem Format.values_of_success :
    (format.unpack s source).values = format.items.zipIdx.flatMap fun p =>
      p.1.decoded format.order s source (totalSize (format.items.take p.2)) := by
  have hfits := fits_of_unpack h
  have hvalues := values_unpack (s := s) hfits
  rw [knownItems_eq_self ((failure_unpack_eq_none_iff hfits).mp h)] at hvalues
  exact hvalues

end Success

/-- Unpacking a buffer that is large enough decodes its items, and cannot tell buffers that
begin with the same record apart. -/
theorem Format.unpack_local {format : Format} {s : Store} {source : View} {required : Nat}
    (hsize : packedSize format.items = .ok required) (hroom : required ≤ source.size)
    (hvalid : s.Valid source) :
    let unpacked := format.unpack s source
    format.Decoded s source unpacked ∧
      (∀ text, Format.parse text = .ok format → PackedRecord.unpack text s source = unpacked) ∧
      (∀ t other, t.Valid other → required ≤ other.size →
        (t.bytes other).take required = (s.bytes source).take required →
        let again := format.unpack t other
        again.failure = unpacked.failure ∧
          again.values.map (·.shown t) = unpacked.values.map (·.shown s)) ∧
      ∀ other, s.Valid other → required ≤ other.size →
        (s.bytes other).take required = (s.bytes source).take required →
        List.Forall₂ (fun v w => v.equal s w = true) unpacked.values
          (format.unpack s other).values := by
  obtain ⟨rfl, hlimit⟩ := (packedSize_eq_ok_iff format.items required).mp hsize
  have hfits : (checkCapacity format.items source.size).2 = none := by
    rw [checkCapacity_of_le hroom hlimit]
  have hagain (t : Store) (other : View) (hother : t.Valid other)
      (hspace : totalSize format.items ≤ other.size) :=
    unpack_alike hfits (by rw [checkCapacity_of_le hspace hlimit]) hvalid hother
  refine ⟨decoded_unpack hfits, ?_, hagain, ?_⟩
  · intro text hparse
    simp only [PackedRecord.unpack, Format.ofText, hparse]
  · intro other hother hspace hbytes
    have hshown := (hagain s other hother hspace hbytes).2
    rw [← List.forall₂_eq_eq_eq, List.forall₂_map_left_iff, List.forall₂_map_right_iff] at hshown
    simp only [Value.equal_iff_shown]
    exact hshown.flip.imp fun _ _ h => h.symm

/-- A count of zero, a counted text whose length is more than its field holds, and an
unknown code in front of the last item, in buffers of different sizes. -/
theorem Format.unpack_local_unknown_code :
    let s : Store := ⟨[[9, 65, 66, 1, 2, 3, 4], [9, 65, 66, 1, 2, 3]]⟩
    let format : Format := ⟨.big, [⟨0, 'h'.toUInt8⟩, ⟨3, 'p'.toUInt8⟩, ⟨1, 'H'.toUInt8⟩,
      ⟨2, 'z'.toUInt8⟩, ⟨1, 'b'.toUInt8⟩]⟩
    let source : View := ⟨0, 0, 7⟩
    let other : View := ⟨1, 0, 6⟩
    (format.unpack s source).failure = some (.unknownCode ⟨2, 'z'.toUInt8⟩) ∧
      (format.unpack s source).values = [.bytes ⟨0, 1, 2⟩, .uint 258] ∧
      List.Forall₂ (fun v w => v.equal s w = true) (format.unpack s source).values
        (format.unpack s other).values := by
  intro s format source other
  have hsize : packedSize format.items = .ok 6 := by decide
  have hvalid : s.Valid source := by decide
  obtain ⟨hdecoded, -, -, hequal⟩ := unpack_local hsize (by decide) hvalid
  refine ⟨hdecoded.failure.trans (by decide), hdecoded.values.trans (by decide +kernel), ?_⟩
  exact hequal other (by decide) (by decide) (by decide)

end PackedRecord
