import PackedRecord.Proofs.Field.Mirror
import PackedRecord.Proofs.Format.Parsed
import PackedRecord.Proofs.Record.InPlace

/-!
The same record in either byte order.

Two format texts that differ in the mark alone describe the same items. By
either of them packing takes the same values, fails alike and gets equally far,
and the bytes it leaves are the same with every element turned around. What the
elements hold is the same when each of them is read in its own order.
-/

namespace PackedRecord

/-- Bytes with the elements that lie among the first `n` turned around. -/
def mirrorItems (items : List Item) (n : Nat) (data : Bytes) : Bytes :=
  mirrorSlots (slotsOf items) (data.take n) ++ data.drop n

theorem length_mirrorItems (items : List Item) (n : Nat) (data : Bytes) :
    (mirrorItems items n data).length = data.length := by
  rw [mirrorItems, List.length_append, length_mirrorSlots, ← List.length_append,
    List.take_append_drop]

/-- A mirrored record shows the same in the other order. -/
theorem shownSlots_mirrorItems {items : List Item} {data : Bytes}
    (h : totalSize items ≤ data.length) :
    shownSlots .big (slotsOf items) (mirrorItems items (totalSize items) data) =
      shownSlots .little (slotsOf items) data := by
  have hwidth := slotsWidth_slotsOf items
  have hrecord : (data.take (totalSize items)).length = totalSize items := by
    rw [List.length_take]
    omega
  rw [mirrorItems, ← shownSlots_take .big _ (Nat.le_of_eq hwidth),
    List.take_left' (by rw [length_mirrorSlots, hrecord]), shownSlots_big (by omega),
    shownSlots_take .little _ (Nat.le_of_eq hwidth)]

/-- A packing in the big order beside one in the little order: the same error, sizes and
place reached, and the same bytes but for the order within each element. -/
structure Packed.Mirrored (items : List Item) (little big : Packed) : Prop where
  fault : big.failure.map Failure.fault = little.failure.map Failure.fault
  extent : big.extent = little.extent
  written : big.written = little.written
  buffer : big.buffer = little.buffer
  bytes : big.store.bytes big.buffer =
    mirrorItems items little.written (little.store.bytes little.buffer)

theorem Packed.Mirrored.refused {items : List Item} {s : Store} {extent : Extent}
    {first second : Failure} (h : second.fault = first.fault) :
    Mirrored items (.refused s extent first) (.refused s extent second) := by
  refine ⟨congrArg some h, rfl, rfl, rfl, ?_⟩
  have hempty : s.bytes .empty = [] := List.take_zero
  simp only [Packed.refused, hempty, mirrorItems, List.take_nil, mirrorSlots_nil]
  rfl

theorem Format.packInto_mirrored (items : List Item) {s : Store} {target : View}
    {values : List Value} (hvalid : s.Valid target) (hforeign : s.Foreign target values) :
    Packed.Mirrored items (packInto ⟨.little, items⟩ s target values)
      (packInto ⟨.big, items⟩ s target values) := by
  cases hcheck : (checkCapacity items target.size).2 with
  | some failure =>
      have hrefused (order : ByteOrder) : packInto ⟨order, items⟩ s target values =
          .refused s (checkCapacity items target.size).1 failure := packInto_of_refused hcheck
      rw [hrefused, hrefused]
      exact .refused rfl
  | none =>
      obtain ⟨-, hroom, -⟩ := checkCapacity_of_fits hcheck
      have hran (order : ByteOrder) : Ran ⟨order, items⟩ s target values
          (packInto ⟨order, items⟩ s target values) := packInto_ran hcheck s values
      have hlittle := hran .little
      have hbig := hran .big
      obtain ⟨data, hstore, hlength, hdata⟩ := hlittle.patched
      obtain ⟨other, hother, hsame, hturned⟩ := hbig.patched
      have hle : _ ≤ totalSize items := hlittle.written_le
      have hwritten := hbig.written.trans hlittle.written.symm
      have hmirror : other = mirrorSlots (slotsOf items) data := by
        rw [hturned hforeign, hdata hforeign]
        exact slotBytes_big s values (slotsOf items) 0
      refine ⟨?_, hbig.extent.trans hlittle.extent.symm, hwritten,
        hbig.buffer.trans hlittle.buffer.symm, ?_⟩
      · rw [hlittle.failure, hbig.failure, Option.map_map, Option.map_map]
        simp only [Function.comp_def, fault_packFailure]
        rfl
      · rw [hbig.buffer, hlittle.buffer, hother, hstore,
          Store.bytes_patch_self hvalid (by omega), Store.bytes_patch_self hvalid (by omega),
          mirrorItems, ← hlength, List.take_left, List.drop_left, hmirror, length_mirrorSlots]

section Texts

variable {body : Bytes} {format : Format}
  (hparse : Format.parse ('<'.toUInt8 :: body) = .ok format)
include hparse

/-- The two marks make no difference to the items behind them. -/
theorem parse_big : format.order = .little ∧
    Format.parse ('>'.toUInt8 :: body) = .ok ⟨.big, format.items⟩ := by
  have hlittle : Format.splitMark ('<'.toUInt8 :: body) = (.little, body) := rfl
  have hbig : Format.splitMark ('>'.toUInt8 :: body) = (.big, body) := rfl
  rw [Format.parse_eq_ok_iff_readItems, hlittle] at hparse
  rw [Format.parse_eq_ok_iff_readItems, hbig]
  exact ⟨hparse.2.2, hparse.1, hparse.2.1, rfl⟩

theorem packInto_mirrored {s : Store} {target : View} {values : List Value}
    (hvalid : s.Valid target) (hforeign : s.Foreign target values) :
    Packed.Mirrored format.items (packInto ('<'.toUInt8 :: body) s target values)
      (packInto ('>'.toUInt8 :: body) s target values) := by
  obtain ⟨horder, hbig⟩ := parse_big hparse
  have hformat : format = ⟨.little, format.items⟩ := by rw [← horder]
  rw [packInto_of_parse hbig, packInto_of_parse hparse, hformat]
  exact Format.packInto_mirrored format.items hvalid hforeign

theorem pack_mirrored {s : Store} {values : List Value} (hvalid : ∀ value ∈ values, value.Valid s) :
    Packed.Mirrored format.items (pack ('<'.toUInt8 :: body) s values)
      (pack ('>'.toUInt8 :: body) s values) := by
  obtain ⟨horder, hbig⟩ := parse_big hparse
  have hformat : format = ⟨.little, format.items⟩ := by rw [← horder]
  simp only [pack, Format.ofText, hparse, hbig]
  cases packedSize format.items with
  | error e => exact .refused rfl
  | ok required =>
      by_cases hmax : maxBufferSize < required
      · simp only [if_pos hmax]
        exact .refused rfl
      · simp only [if_neg hmax]
        rw [hformat]
        exact Format.packInto_mirrored format.items (s.valid_insert _)
          (Store.foreign_insert _ hvalid)

theorem unpack_mirrored {s : Store} {source other : View} {n : Nat} (hsource : s.Valid source)
    (hother : s.Valid other) (hsize : packedSizeOfText ('<'.toUInt8 :: body) = .ok n)
    (hroom : n ≤ source.size)
    (hbytes : s.bytes other = mirrorItems format.items n (s.bytes source)) :
    (unpack ('<'.toUInt8 :: body) s source).failure = none ∧
      (unpack ('>'.toUInt8 :: body) s other).failure = none ∧
      List.Forall₂ (fun v w => v.equal s w = true) (unpack ('<'.toUInt8 :: body) s source).values
        (unpack ('>'.toUInt8 :: body) s other).values := by
  obtain ⟨horder, hbig⟩ := parse_big hparse
  rw [packedSizeOfText, hparse] at hsize
  obtain ⟨rfl, hlimit⟩ := (packedSize_eq_ok_iff _ _).mp hsize
  have hlength : other.size = source.size := by
    rw [← Store.length_bytes hother, hbytes, length_mirrorItems, Store.length_bytes hsource]
  obtain ⟨hnone, hshown⟩ := shown_unpack_of_parse hparse hsource hroom hlimit
  obtain ⟨hsame, hturned⟩ :=
    shown_unpack_of_parse hbig hother (by rw [hlength]; exact hroom) hlimit
  refine ⟨hnone, hsame, (Value.forall_equal_iff_shown s _ _).mpr ?_⟩
  rw [hshown, hturned, horder, hbytes,
    shownSlots_mirrorItems (by rw [Store.length_bytes hsource]; exact hroom)]

end Texts

/-- The same items behind either mark. Packing by the two texts ends alike, with the same
sizes, at the same place and with bytes that are mirrored up to there, whether
it succeeds or stops midway; and a buffer is unpacked by the one to what its
mirror is unpacked to by the other. -/
theorem orders_mirrored {body : Bytes} {format : Format}
    (hparse : Format.parse ('<'.toUInt8 :: body) = .ok format) :
    let little := '<'.toUInt8 :: body
    let big := '>'.toUInt8 :: body
    Format.parse big = .ok ⟨.big, format.items⟩ ∧
    (∀ (s : Store) (values : List Value), (∀ value ∈ values, value.Valid s) →
      Packed.Mirrored format.items (pack little s values) (pack big s values)) ∧
    (∀ (s : Store) (target : View) (values : List Value),
      s.Valid target → s.Foreign target values →
      Packed.Mirrored format.items (packInto little s target values)
        (packInto big s target values)) ∧
    ∀ (s : Store) (source other : View) (n : Nat), s.Valid source → s.Valid other →
      packedSizeOfText little = .ok n → n ≤ source.size →
      s.bytes other = mirrorItems format.items n (s.bytes source) →
      (unpack little s source).failure = none ∧ (unpack big s other).failure = none ∧
        List.Forall₂ (fun v w => v.equal s w = true) (unpack little s source).values
          (unpack big s other).values := by
  refine ⟨(parse_big hparse).2, ?_, ?_, ?_⟩
  · intro s values hvalid
    exact pack_mirrored hparse hvalid
  · intro s target values hvalid hforeign
    exact packInto_mirrored hparse hvalid hforeign
  · intro s source other n hsource hother hsize hroom hbytes
    exact unpack_mirrored hparse hsource hother hsize hroom hbytes

/-- Packing that stops behind a text and two elements for want of a value, and buffers
with a byte of padding and one behind the record. -/
theorem orders_mirrored_stopped_midway :
    let body := Bytes.ofChars ['h', 'x', '2', 's', 'I', 'B']
    let s : Store := ⟨[[65, 66], [2, 1, 9, 65, 66, 1, 0, 0, 0, 7, 8],
      [1, 2, 9, 65, 66, 0, 0, 0, 1, 7, 8]]⟩
    let packed := pack ('>'.toUInt8 :: body) s [.int 258, .bytes ⟨0, 0, 2⟩, .uint 1]
    packed.failure.map Failure.fault = some (.pack .notEnoughValues) ∧
      packed.extent = ⟨10, 10⟩ ∧ packed.written = 9 ∧
      packed.store.bytes packed.buffer = [1, 2, 0, 65, 66, 0, 0, 0, 1, 0] ∧
      List.Forall₂ (fun v w => v.equal s w = true)
        (unpack ('<'.toUInt8 :: body) s ⟨1, 0, 11⟩).values
        (unpack ('>'.toUInt8 :: body) s ⟨2, 0, 11⟩).values := by
  intro body s packed
  have hparse : Format.parse ('<'.toUInt8 :: body) = .ok ⟨.little, [⟨1, 'h'.toUInt8⟩,
      ⟨1, 'x'.toUInt8⟩, ⟨2, 's'.toUInt8⟩, ⟨1, 'I'.toUInt8⟩, ⟨1, 'B'.toUInt8⟩]⟩ := rfl
  obtain ⟨-, hpack, -, hunpack⟩ := orders_mirrored hparse
  have hvalid : ∀ value ∈ [Value.int 258, .bytes ⟨0, 0, 2⟩, .uint 1], value.Valid s := by decide
  have hmirrored := hpack s _ hvalid
  obtain ⟨-, -, hvalues⟩ := hunpack s ⟨1, 0, 11⟩ ⟨2, 0, 11⟩ 10 (by decide) (by decide) (by decide)
    (by decide) (by decide)
  refine ⟨hmirrored.fault.trans ?_, hmirrored.extent.trans ?_, hmirrored.written.trans ?_,
    hmirrored.bytes.trans ?_, hvalues⟩
  all_goals
    decide +kernel

end PackedRecord
