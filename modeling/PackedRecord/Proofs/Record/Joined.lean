import PackedRecord.Proofs.Field.Joined
import PackedRecord.Proofs.Format.Joined
import PackedRecord.Proofs.Record.Fresh
import PackedRecord.Proofs.Record.Read

/-!
Records one behind the other.

The record of a joined format is the record of its first part and behind it
that of the second. This holds for its text, for its size, for packing, if the
first part leaves no value over, and for unpacking.
-/

namespace PackedRecord

/-- The number of values that packing into a new buffer takes. -/
def Format.consumed (format : Format) (s : Store) (values : List Value) : Nat :=
  let (t, target) := s.alloc (totalSize format.items)
  (packItems format.order target values format.items t ⟨0, 0⟩).progress.consumed

theorem Format.consumed_eq (format : Format) (s : Store) (values : List Value) :
    format.consumed s values = (format.plan values).progress.consumed := by
  have hsize : (s.alloc (totalSize format.items)).2.size = totalSize format.items := by
    rw [Store.alloc, Store.size_insert, List.length_replicate]
  have hrun := packItems_eq format.order values format.items
    (s.alloc (totalSize format.items)).1 ⟨0, 0⟩
    (show 0 + totalSize format.items ≤ (s.alloc (totalSize format.items)).2.size by omega)
  simp only [consumed, hrun, plan]

section Packing

variable {text : Bytes} {format : Format} {s : Store} {values : List Value}
  (hparse : Format.parse text = .ok format)
include hparse

theorem totalSize_le_of_pack (h : (pack text s values).failure = none) :
    totalSize format.items ≤ maxBufferSize := by
  obtain ⟨other, hother, hsize⟩ := exists_format_of_pack h
  obtain rfl := Except.ok.inj (hparse.symm.trans hother)
  exact hsize

/-- Packing into a new buffer succeeds when the plan has nothing to stop it. -/
theorem failure_pack_iff_plan (hsize : totalSize format.items ≤ maxBufferSize) :
    (pack text s values).failure = none ↔ (format.plan values).stopped = none := by
  rw [failure_pack_iff hparse hsize, Format.plan, stopped_fillSlots_eq_none_iff]
  rfl

end Packing

section Joined

variable {left right joined : Bytes} {first second : Format}
  (hleft : Format.parse left = .ok first) (hright : Format.parse right = .ok second)
  (hjoined : Format.parse joined = .ok ⟨first.order, first.items ++ second.items⟩)
  (horder : first.order = second.order)
include hleft hright hjoined

theorem packedSizeOfText_joined :
    packedSizeOfText joined =
      match packedSizeOfText left, packedSizeOfText right with
      | .ok a, .ok b => if a + b < 2 ^ 64 then .ok (a + b) else .error .lengthOverflow
      | _, _ => .error .lengthOverflow := by
  simp only [packedSizeOfText, hleft, hright, hjoined]
  exact packedSize_append first.items second.items

include horder

/-- A joined record is packed from the values of both parts. -/
theorem pack_joined {s : Store} {front back : List Value}
    (hvalid : ∀ value ∈ front ++ back, value.Valid s)
    (hfront : (pack left s front).failure = none) (hall : first.consumed s front = front.length)
    (hback : (pack right s back).failure = none)
    (hsize : totalSize first.items + totalSize second.items ≤ maxBufferSize) :
    let packed := pack joined s (front ++ back)
    packed.failure = none ∧
      packed.store.bytes packed.buffer =
        (pack left s front).store.bytes (pack left s front).buffer ++
          (pack right s back).store.bytes (pack right s back).buffer := by
  have hfirst := totalSize_le_of_pack hleft hfront
  have hsecond := totalSize_le_of_pack hright hback
  have hboth : totalSize (first.items ++ second.items) ≤ maxBufferSize := by
    rwa [totalSize_append]
  have hxs := (failure_pack_iff_plan hleft hfirst).mp hfront
  have hys := (failure_pack_iff_plan hright hsecond).mp hback
  rw [Format.consumed_eq] at hall
  have hnone : (pack joined s (front ++ back)).failure = none := by
    rw [failure_pack_iff_plan hjoined hboth, Format.plan, slotsOf_append]
    exact stopped_fillSlots_joined hxs hall hys
  have hbytes {text : Bytes} {format : Format} {values : List Value}
      (hparse : Format.parse text = .ok format) (hroom : totalSize format.items ≤ maxBufferSize)
      (hvalues : ∀ value ∈ values, value.Valid s) (h : (pack text s values).failure = none) :
      (pack text s values).store.bytes (pack text s values).buffer =
        slotBytes format.order s values (slotsOf format.items) 0 :=
    (pack_bytes hparse hroom s values hvalues
      ((failure_pack_iff hparse hroom s values).mp h)).2.2.1
  refine ⟨hnone, ?_⟩
  rw [hbytes hjoined hboth hvalid hnone,
    hbytes hleft hfirst (fun value h => hvalid value (List.mem_append_left _ h)) hfront,
    hbytes hright hsecond (fun value h => hvalid value (List.mem_append_right _ h)) hback,
    slotsOf_append, slotBytes_joined hxs hall, horder]

/-- A joined record yields the values of both parts. -/
theorem unpack_joined {s : Store} {front back buffer : View} {room : Nat}
    (hfront : s.Valid front) (hback : s.Valid back) (hbuffer : s.Valid buffer)
    (hfirst : packedSizeOfText left = .ok front.size)
    (hsecond : packedSizeOfText right = .ok room) (hroom : room ≤ back.size)
    (hbytes : s.bytes buffer = s.bytes front ++ s.bytes back) (hlimit : buffer.size < sizeLimit) :
    let unpacked := unpack joined s buffer
    (unpack left s front).failure = none ∧ (unpack right s back).failure = none ∧
      unpacked.failure = none ∧
      List.Forall₂ (fun v w => v.equal s w = true) unpacked.values
        ((unpack left s front).values ++ (unpack right s back).values) := by
  rw [packedSizeOfText, hleft] at hfirst
  rw [packedSizeOfText, hright] at hsecond
  obtain ⟨hwidth, hfirstLimit⟩ := (packedSize_eq_ok_iff _ _).mp hfirst
  obtain ⟨rfl, hsecondLimit⟩ := (packedSize_eq_ok_iff _ _).mp hsecond
  have hlengths := congrArg List.length hbytes
  rw [List.length_append, Store.length_bytes hfront, Store.length_bytes hback,
    Store.length_bytes hbuffer] at hlengths
  have htotal := totalSize_append first.items second.items
  obtain ⟨hfrontNone, hfrontShown⟩ :=
    shown_unpack_of_parse hleft hfront (Nat.le_of_eq hwidth) (by omega)
  obtain ⟨hbackNone, hbackShown⟩ := shown_unpack_of_parse hright hback hroom hsecondLimit
  obtain ⟨hnone, hshown⟩ := shown_unpack_of_parse hjoined hbuffer
    (show totalSize (first.items ++ second.items) ≤ buffer.size by omega)
    (show totalSize (first.items ++ second.items) < sizeLimit by omega)
  refine ⟨hfrontNone, hbackNone, hnone, (Value.forall_equal_iff_shown s _ _).mpr ?_⟩
  have hcut : slotsWidth (slotsOf first.items) = (s.bytes front).length := by
    rw [slotsWidth_slotsOf, hwidth, Store.length_bytes hfront]
  have hfirstShown := shownSlots_take first.order (s.bytes front ++ s.bytes back)
    (Nat.le_of_eq hcut)
  rw [List.take_left] at hfirstShown
  rw [hshown, List.map_append, hfrontShown, hbackShown, slotsOf_append, shownSlots_append, hbytes,
    hcut, List.drop_left, ← hfirstShown, horder]

end Joined

/-- Formats under one mark, joined behind it. The joined text stands for the items of
both, its size is the sum, and its records are those of the two formats side by
side: packed from the values of both if the first takes all of its own, and
unpacked to the values of both. -/
theorem formats_joined {mark : Option UInt8} {f g : Bytes} {first second : Format}
    (hmark : ∀ b ∈ mark, b ∈ orderMarks) (hf : f.IsBody) (hg : g.IsBody)
    (hfirst : Format.parse (mark.toList ++ f) = .ok first)
    (hsecond : Format.parse (mark.toList ++ g) = .ok second) :
    let left := mark.toList ++ f
    let right := mark.toList ++ g
    let joined := mark.toList ++ (f ++ g)
    Format.parse joined = .ok ⟨first.order, first.items ++ second.items⟩ ∧
    first.order = second.order ∧
    (packedSizeOfText joined =
      match packedSizeOfText left, packedSizeOfText right with
      | .ok a, .ok b => if a + b < 2 ^ 64 then .ok (a + b) else .error .lengthOverflow
      | _, _ => .error .lengthOverflow) ∧
    (∀ (s : Store) (values others : List Value),
      (∀ value ∈ values ++ others, value.Valid s) →
      (pack left s values).failure = none → first.consumed s values = values.length →
      (pack right s others).failure = none →
      totalSize first.items + totalSize second.items ≤ maxBufferSize →
      let packed := pack joined s (values ++ others)
      packed.failure = none ∧
        packed.store.bytes packed.buffer =
          (pack left s values).store.bytes (pack left s values).buffer ++
            (pack right s others).store.bytes (pack right s others).buffer) ∧
    ∀ (s : Store) (front back buffer : View) (room : Nat),
      s.Valid front → s.Valid back → s.Valid buffer →
      packedSizeOfText left = .ok front.size → packedSizeOfText right = .ok room →
      room ≤ back.size → s.bytes buffer = s.bytes front ++ s.bytes back →
      buffer.size < 2 ^ 64 →
      let unpacked := unpack joined s buffer
      (unpack left s front).failure = none ∧ (unpack right s back).failure = none ∧
        unpacked.failure = none ∧
        List.Forall₂ (fun v w => v.equal s w = true) unpacked.values
          ((unpack left s front).values ++ (unpack right s back).values) := by
  obtain ⟨hjoined, horder⟩ := Format.parse_append hmark hf hg hfirst hsecond
  refine ⟨hjoined, horder, packedSizeOfText_joined hfirst hsecond hjoined, ?_, ?_⟩
  · intro s values others hvalid hleft hall hright hsize
    exact pack_joined hfirst hsecond hjoined horder hvalid hleft hall hright hsize
  · intro s front back buffer room hfront hback hbuffer hleft hright hroom hbytes hlimit
    exact unpack_joined hfirst hsecond hjoined horder hfront hback hbuffer hleft hright hroom
      hbytes hlimit

/-- A big-endian half-word and a text, and behind them two bytes whose count begins the
second body. -/
theorem formats_joined_count_at_seam :
    let s : Store := ⟨[[0, 1, 65, 66], [7, 9, 8], [0, 1, 65, 66, 7, 9, 8]]⟩
    let joined := Bytes.ofChars ['>', 'h', '2', 's', '2', 'B']
    let packed := pack joined s [.int 1, .bytes ⟨0, 2, 2⟩, .uint 7, .uint 9]
    Format.parse joined = .ok ⟨.big, [⟨1, 'h'.toUInt8⟩, ⟨2, 's'.toUInt8⟩, ⟨2, 'B'.toUInt8⟩]⟩ ∧
      packedSizeOfText joined = .ok 6 ∧ packed.failure = none ∧
      packed.store.bytes packed.buffer = [0, 1, 65, 66, 7, 9] ∧
      List.Forall₂ (fun v w => v.equal s w = true) (unpack joined s ⟨2, 0, 7⟩).values
        [.int 1, .bytes ⟨0, 2, 2⟩, .uint 7, .uint 9] := by
  intro s joined packed
  have hmark : ∀ b ∈ some '>'.toUInt8, b ∈ orderMarks := by
    intro b hb
    obtain rfl := Option.some.inj hb
    decide
  have hf : (Bytes.ofChars ['h', '2', 's']).IsBody := by decide
  have hg : (Bytes.ofChars ['2', 'B']).IsBody := by decide
  have hfirst : Format.parse (Bytes.ofChars ['>', 'h', '2', 's']) =
      .ok ⟨.big, [⟨1, 'h'.toUInt8⟩, ⟨2, 's'.toUInt8⟩]⟩ := rfl
  have hsecond : Format.parse (Bytes.ofChars ['>', '2', 'B']) = .ok ⟨.big, [⟨2, 'B'.toUInt8⟩]⟩ :=
    rfl
  obtain ⟨hparse, -, hsize, hpack, hunpack⟩ := formats_joined hmark hf hg hfirst hsecond
  have hvalid : ∀ value ∈ [Value.int 1, .bytes ⟨0, 2, 2⟩] ++ [.uint 7, .uint 9],
      value.Valid s := by decide
  obtain ⟨hnone, hbytes⟩ := hpack s [.int 1, .bytes ⟨0, 2, 2⟩] [.uint 7, .uint 9] hvalid
    (by decide +kernel) (by decide +kernel) (by decide +kernel) (by decide)
  obtain ⟨-, -, -, hvalues⟩ := hunpack s ⟨0, 0, 4⟩ ⟨1, 0, 3⟩ ⟨2, 0, 7⟩ 2 (by decide) (by decide)
    (by decide) (by decide) (by decide) (by decide) (by decide) (by decide)
  have hparts : (unpack (Bytes.ofChars ['>', 'h', '2', 's']) s ⟨0, 0, 4⟩).values ++
      (unpack (Bytes.ofChars ['>', '2', 'B']) s ⟨1, 0, 3⟩).values =
        [.int 1, .bytes ⟨0, 2, 2⟩, .uint 7, .uint 9] := by decide +kernel
  refine ⟨hparse, hsize, hnone, hbytes.trans (by decide +kernel), ?_⟩
  exact (congrArg (List.Forall₂ _ _) hparts).mp hvalues

end PackedRecord
