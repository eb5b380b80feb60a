import PackedRecord.Proofs.Field.InPlace
import PackedRecord.Proofs.Record.Outcome
import PackedRecord.Proofs.Record.Read
import PackedRecord.Proofs.Store.Insert

/-!
Packing back what was unpacked.

The values of a buffer can be packed into it again, and all but the texts come
back as from copies of the values. A text is a view of the field it goes to and
is lost: the buffer ends up the same as from copies exactly if all texts were
zeros to begin with.
-/

namespace PackedRecord

theorem packInto_of_parse {text : Bytes} {format : Format} (hparse : Format.parse text = .ok format)
    (s : Store) (target : View) (values : List Value) :
    packInto text s target values = format.packInto s target values := by
  simp only [packInto, Format.ofText, hparse]

section

variable {format : Format} {s : Store} {buffer : View}
  (hbounded : ∀ slot ∈ slotsOf format.items, slot.shape.Bounded)
  (hfits : (checkCapacity format.items buffer.size).2 = none) (hvalid : s.Valid buffer)
include hfits

theorem slotsWidth_le_of_fits : 0 + slotsWidth (slotsOf format.items) ≤ buffer.size := by
  rw [slotsWidth_slotsOf, Nat.zero_add]
  exact (checkCapacity_of_fits hfits).2.1

include hbounded hvalid

/-- Packing values into the buffer that they were read from. -/
theorem Format.packInto_read :
    let packed := format.packInto s buffer
      (readSlots format.order s buffer (slotsOf format.items) 0)
    packed.failure = none ∧
      packed.store.bytes buffer =
        refilledSlots format.order (slotsOf format.items) (s.bytes buffer) ++
          (s.bytes buffer).drop (totalSize format.items) := by
  obtain ⟨-, hroom, -⟩ := checkCapacity_of_fits hfits
  have hwidth := slotsWidth_le_of_fits hfits
  have hlength : (refilledSlots format.order (slotsOf format.items) (s.bytes buffer)).length =
      totalSize format.items := by
    rw [length_refilledSlots, slotsWidth_slotsOf]
    rw [slotsWidth_slotsOf, Store.length_bytes hvalid]
    exact hroom
  have hplaced := placeSlots_readSlots format.order hvalid _ hbounded (p := ⟨0, 0⟩) hwidth rfl
  refine ⟨?_, ?_⟩
  · exact (format.failure_packInto_iff s buffer _ hfits).mpr
      (slotFault?_readSlots format.order hvalid _ hbounded hwidth)
  · rw [Format.store_packInto hfits, hplaced, Nat.add_zero, List.drop_zero,
      Store.bytes_patch_self hvalid (by rw [hlength]; exact hroom), hlength]

/-- Packing copies of values into the buffer that the values were read from. -/
theorem Format.packInto_detached :
    let copies := s.detachAll (readSlots format.order s buffer (slotsOf format.items) 0)
    let packed := format.packInto copies.1 buffer copies.2
    packed.failure = none ∧
      packed.store.bytes buffer =
        canonicalSlots format.order (slotsOf format.items) (s.bytes buffer) ++
          (s.bytes buffer).drop (totalSize format.items) := by
  obtain ⟨-, hroom, -⟩ := checkCapacity_of_fits hfits
  have hwidth := slotsWidth_le_of_fits hfits
  have hvalues := valid_readSlots format.order hvalid (slotsOf format.items) 0
  have hbytes := slotBytes_readSlots format.order hvalid _ hbounded hwidth
  have hfaults := slotFault?_readSlots format.order hvalid _ hbounded hwidth
  generalize readSlots format.order s buffer (slotsOf format.items) 0 = values at *
  have hextends := s.extends_detachAll values
  have halike := (Store.Extends.refl s).alike_detachAll hvalues
  have hforeign := Store.foreign_detachAll hvalid hvalues
  intro copies packed
  have hnone : packed.failure = none := by
    apply (format.failure_packInto_iff copies.1 buffer copies.2 hfits).mpr
    intro i
    rw [slotFault?_of_alike halike]
    exact hfaults i
  refine ⟨hnone, ?_⟩
  have hran := Format.packInto_ran hfits copies.1 copies.2
  obtain ⟨data, hstore, hlength, hdata⟩ := hran.patched
  have hwritten := hran.written_of_success hnone
  have hslots := slotBytes_of_alike format.order halike (slotsOf format.items) 0
  rw [show packed.store = _ from hstore,
    Store.bytes_patch_self (hextends.valid buffer hvalid) (by rw [hlength, hwritten]; exact hroom),
    hextends.bytes buffer hvalid, hlength, hwritten, hdata hforeign, hslots, hbytes, List.drop_zero]

end

/-- Packing values back into their buffer, and copies of the values. What lies behind the
record stays as it was, and the texts make all the difference. -/
theorem packInto_unpack {text : Bytes} {format : Format} {s : Store} {buffer : View}
    {required : Nat} (hparse : Format.parse text = .ok format)
    (hsize : packedSize format.items = .ok required) (hroom : required ≤ buffer.size)
    (hvalid : s.Valid buffer) :
    let values := (unpack text s buffer).values
    let copies := s.detachAll values
    let inPlace := packInto text s buffer values
    let copied := packInto text copies.1 buffer copies.2
    let behind := (s.bytes buffer).drop required
    inPlace.failure = none ∧ copied.failure = none ∧
      inPlace.store.bytes buffer =
        refilledSlots format.order (slotsOf format.items) (s.bytes buffer) ++ behind ∧
      copied.store.bytes buffer =
        canonicalSlots format.order (slotsOf format.items) (s.bytes buffer) ++ behind ∧
      (inPlace.store.bytes buffer = copied.store.bytes buffer ↔
        BlankSlots (slotsOf format.items) (s.bytes buffer)) := by
  obtain ⟨rfl, hlimit⟩ := (packedSize_eq_ok_iff format.items required).mp hsize
  have hbounded := Format.bounded_of_parse hparse
  have hfits : (checkCapacity format.items buffer.size).2 = none := by
    rw [checkCapacity_of_le hroom hlimit]
  have hwidth : slotsWidth (slotsOf format.items) ≤ (s.bytes buffer).length := by
    rw [slotsWidth_slotsOf, Store.length_bytes hvalid]
    exact hroom
  obtain ⟨hinPlace, hrefilled⟩ := Format.packInto_read hbounded hfits hvalid
  obtain ⟨hcopied, hcanonical⟩ := Format.packInto_detached hbounded hfits hvalid
  dsimp only
  rw [unpack_of_parse hparse hfits, packInto_of_parse hparse, packInto_of_parse hparse]
  refine ⟨hinPlace, hcopied, hrefilled, hcanonical, ?_⟩
  rw [hrefilled, hcanonical, List.append_left_inj]
  exact refilledSlots_eq_canonicalSlots_iff format.order _ hwidth

/-- Both kinds of text are lost in place, but for the length of the counted one. -/
theorem packInto_unpack_texts :
    let s : Store := ⟨[[2, 65, 66, 67, 68, 69]]⟩
    let buffer : View := ⟨0, 0, 6⟩
    let text := Bytes.ofChars ['3', 'p', '3', 's']
    let values := (unpack text s buffer).values
    let copies := s.detachAll values
    (packInto text s buffer values).store.bytes buffer = [2, 0, 0, 0, 0, 0] ∧
      (packInto text copies.1 buffer copies.2).store.bytes buffer = [2, 65, 66, 67, 68, 69] := by
  intro s buffer text values copies
  have hparse : Format.parse text = .ok ⟨.little, [⟨3, 'p'.toUInt8⟩, ⟨3, 's'.toUInt8⟩]⟩ := by decide
  have hsize : packedSize [⟨3, 'p'.toUInt8⟩, ⟨3, 's'.toUInt8⟩] = .ok 6 := by decide
  have hvalid : s.Valid buffer := by decide
  obtain ⟨-, -, hinPlace, hcopied, -⟩ := packInto_unpack hparse hsize (Nat.le_refl 6) hvalid
  refine ⟨hinPlace.trans ?_, hcopied.trans ?_⟩ <;> decide +kernel

end PackedRecord
