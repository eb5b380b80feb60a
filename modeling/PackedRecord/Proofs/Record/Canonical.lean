import PackedRecord.Proofs.Field.Canonical
import PackedRecord.Proofs.Record.Fresh
import PackedRecord.Proofs.Record.Read

/-!
Unpacking and packing again.

Whatever bytes a buffer holds, they can be unpacked, and the values packed into
a new buffer. The bytes come back in their canonical form, slot by slot, and
what is canonical already stays as it is.
-/

namespace PackedRecord

/-- The slots of a buffer come back canonical. -/
theorem pack_unpack_bytes {text : Bytes} {format : Format} {s : Store} {buffer : View}
    (hparse : Format.parse text = .ok format) (hsize : totalSize format.items ≤ maxBufferSize)
    (hroom : totalSize format.items ≤ buffer.size) (hvalid : s.Valid buffer) :
    let unpacked := unpack text s buffer
    let packed := pack text s unpacked.values
    unpacked.failure = none ∧ packed.failure = none ∧
      packed.store.Valid packed.buffer ∧ packed.buffer.size = totalSize format.items ∧
      packed.store.bytes packed.buffer =
        canonicalSlots format.order (slotsOf format.items) (s.bytes buffer) := by
  have hlimit := maxBufferSize_lt
  have hbounded := Format.bounded_of_parse hparse
  have hfits : (checkCapacity format.items buffer.size).2 = none := by
    rw [checkCapacity_of_le hroom (by omega)]
  have hwidth : 0 + slotsWidth (slotsOf format.items) ≤ buffer.size := by
    rw [slotsWidth_slotsOf, Nat.zero_add]
    exact hroom
  have hfaults := slotFault?_readSlots format.order hvalid _ hbounded hwidth
  have hvalues := valid_readSlots format.order hvalid (slotsOf format.items) 0
  have hbytes := slotBytes_readSlots format.order hvalid _ hbounded hwidth
  dsimp only
  rw [unpack_of_parse hparse hfits]
  obtain ⟨hbuffer, hlength, hpacked, -⟩ := pack_bytes hparse hsize s _ hvalues hfaults
  refine ⟨rfl, (failure_pack_iff hparse hsize s _).mpr hfaults, hbuffer, hlength, ?_⟩
  rw [hpacked, hbytes, List.drop_zero]

/-- Packing what was unpacked gives the canonical bytes of the buffer, which are
the very bytes if all codes are exact. Doing it again changes nothing more. -/
theorem pack_unpack {text : Bytes} {format : Format} {s : Store} {buffer : View} {required : Nat}
    (hparse : Format.parse text = .ok format) (hsize : packedSize format.items = .ok required)
    (hlimit : required ≤ maxBufferSize) (hroom : required ≤ buffer.size)
    (hvalid : s.Valid buffer) :
    let unpacked := unpack text s buffer
    let packed := pack text s unpacked.values
    let again := pack text packed.store (unpack text packed.store packed.buffer).values
    unpacked.failure = none ∧ packed.failure = none ∧ packed.buffer.size = required ∧
      packed.store.bytes packed.buffer =
        canonicalSlots format.order (slotsOf format.items) (s.bytes buffer) ∧
      ((∀ item ∈ format.items, item.code ∈ exactCodes) →
        packed.store.bytes packed.buffer = (s.bytes buffer).take required) ∧
      (unpack text packed.store packed.buffer).failure = none ∧ again.failure = none ∧
      again.store.bytes again.buffer = packed.store.bytes packed.buffer := by
  obtain ⟨rfl, -⟩ := (packedSize_eq_ok_iff format.items required).mp hsize
  obtain ⟨hunpacked, hpacked, hbuffer, hlength, hbytes⟩ :=
    pack_unpack_bytes hparse hlimit hroom hvalid
  obtain ⟨hunpacked', hpacked', -, -, hbytes'⟩ :=
    pack_unpack_bytes hparse hlimit (Nat.le_of_eq hlength.symm) hbuffer
  have hwidth : slotsWidth (slotsOf format.items) ≤ (s.bytes buffer).length := by
    rw [slotsWidth_slotsOf, Store.length_bytes hvalid]
    exact hroom
  refine ⟨hunpacked, hpacked, hlength, hbytes, ?_, hunpacked', hpacked', ?_⟩
  · intro hexact
    rw [hbytes, canonicalSlots_of_exact, slotsWidth_slotsOf]
    intro slot hslot
    obtain ⟨item, hitem, hmem⟩ := List.mem_flatMap.mp hslot
    exact Item.exact_of_code (hexact item hitem) slot hmem
  · rw [hbytes', hbytes, canonicalSlots_canonicalSlots _ _ hwidth]

/-- Stray padding, an odd truth value, a length beyond its field, and a half-width
word that is not a number. -/
theorem pack_unpack_stray_bytes :
    let s : Store := ⟨[[7, 5, 9, 65, 66, 0x01, 0xFC]]⟩
    let text := Bytes.ofChars ['x', '?', '3', 'p', 'e']
    let packed := pack text s (unpack text s ⟨0, 0, 7⟩).values
    packed.failure = none ∧
      packed.store.bytes packed.buffer = [0, 1, 2, 65, 66, 0x00, 0xFE] := by
  intro s text packed
  have hparse : Format.parse text =
      .ok ⟨.little, [⟨1, 120⟩, ⟨1, 63⟩, ⟨3, 112⟩, ⟨1, 101⟩]⟩ := rfl
  have hsize : packedSize [⟨1, 120⟩, ⟨1, 63⟩, ⟨3, 112⟩, ⟨1, 101⟩] = .ok 7 := by decide
  have hvalid : s.Valid ⟨0, 0, 7⟩ := by decide
  obtain ⟨_, hpacked, _, hbytes, _⟩ :=
    pack_unpack hparse hsize (by decide) (by decide) hvalid
  refine ⟨hpacked, hbytes.trans ?_⟩
  decide +kernel

end PackedRecord
