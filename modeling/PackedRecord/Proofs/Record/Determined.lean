import PackedRecord.Proofs.Record.Fresh
import PackedRecord.Proofs.Record.InPlace

/-!
A packed record depends on nothing but its format and its values.

Whether packing succeeds has nothing to do with the buffer it goes to, and if it
does, it leaves no byte of the record as it was. So buffers of different sizes
and contents begin with the same bytes afterwards, and they are those of a new
buffer, which holds nothing else.
-/

namespace PackedRecord

/-- A packing that left the bytes of a whole record at the start of a target. -/
structure Packed.Completed (packed : Packed) (target : View) (data : Bytes) : Prop where
  failure : packed.failure = none
  buffer : packed.buffer = target
  written : packed.written = data.length
  extent : packed.extent = ⟨data.length, target.size⟩
  bytes : (packed.store.bytes target).take data.length = data

/-- A record without a fault fills its target up to its size, whatever was there. -/
theorem Format.completed_packInto {format : Format} {s : Store} {target : View}
    {values : List Value} (hfits : (checkCapacity format.items target.size).2 = none)
    (hvalid : s.Valid target) (hforeign : s.Foreign target values)
    (hfaults : ∀ i, slotFault? (slotsOf format.items) values i = none) :
    let data := slotBytes format.order s values (slotsOf format.items) 0
    data.length = totalSize format.items ∧
      (format.packInto s target values).Completed target data := by
  obtain ⟨-, hroom, -⟩ := checkCapacity_of_fits hfits
  have hnone := (format.failure_packInto_iff s target values hfits).mpr hfaults
  have hran := Format.packInto_ran hfits s values
  obtain ⟨data, hstore, hwritten, hdata⟩ := hran.patched
  obtain rfl := hdata hforeign
  have hlength := hwritten.trans (hran.written_of_success hnone)
  refine ⟨hlength, hnone, hran.buffer, hwritten.symm, ?_, ?_⟩
  · rw [hlength]
    exact hran.extent
  · rw [hstore, Store.bytes_patch_self hvalid (by rw [hlength]; exact hroom)]
    exact List.take_left

/-- A new buffer has just the bytes of the record. -/
theorem completed_pack {text : Bytes} {format : Format} {s : Store} {values : List Value}
    (hparse : Format.parse text = .ok format) (hsize : totalSize format.items ≤ maxBufferSize)
    (hvalid : ∀ value ∈ values, value.Valid s)
    (hfaults : ∀ i, slotFault? (slotsOf format.items) values i = none) :
    let data := slotBytes format.order s values (slotsOf format.items) 0
    let packed := pack text s values
    packed.Completed packed.buffer data ∧ packed.store.bytes packed.buffer = data ∧
      packed.buffer.size = data.length := by
  have hfits := fits_alloc hsize s
  have hnew : (s.alloc (totalSize format.items)).1.Valid (s.alloc (totalSize format.items)).2 :=
    s.valid_insert _
  have hforeign : (s.alloc (totalSize format.items)).1.Foreign
      (s.alloc (totalSize format.items)).2 values := Store.foreign_insert _ hvalid
  have halike : List.Forall₂ (Value.Alike s (s.alloc (totalSize format.items)).1) values values :=
    (s.extends_insert _).forall_alike hvalid
  obtain ⟨hlength, hcompleted⟩ := Format.completed_packInto hfits hnew hforeign hfaults
  obtain ⟨-, hbuffer, hbytes, -⟩ := pack_bytes hparse hsize s values hvalid hfaults
  rw [slotBytes_of_alike _ halike] at hlength hcompleted
  rw [← pack_of_parse hparse hsize] at hcompleted
  intro data packed
  refine ⟨?_, hbytes, hbuffer.trans hlength.symm⟩
  rw [show packed.buffer = _ from hcompleted.buffer]
  exact hcompleted

/-- Two targets take the same record, or neither takes it. -/
theorem Format.completed_both {format : Format} {s t : Store} {x y : View}
    {values others : List Value} (halike : List.Forall₂ (Value.Alike s t) values others)
    (hxfits : (checkCapacity format.items x.size).2 = none)
    (hyfits : (checkCapacity format.items y.size).2 = none) (hx : s.Valid x) (hy : t.Valid y)
    (hvalues : s.Foreign x values) (hothers : t.Foreign y others) :
    let first := format.packInto s x values
    let second := format.packInto t y others
    (first.failure = none ↔ second.failure = none) ∧
      (first.failure = none →
        let data := slotBytes format.order s values (slotsOf format.items) 0
        data.length = totalSize format.items ∧
          first.Completed x data ∧ second.Completed y data) := by
  have hsame : ∀ i, slotFault? (slotsOf format.items) others i =
      slotFault? (slotsOf format.items) values i := slotFault?_of_alike halike
  have hfirst := format.failure_packInto_iff s x values hxfits
  have hsecond := format.failure_packInto_iff t y others hyfits
  simp only [hsame] at hsecond
  refine ⟨hfirst.trans hsecond.symm, ?_⟩
  intro hnone
  have hfaults := hfirst.mp hnone
  obtain ⟨hlength, hleft⟩ := completed_packInto hxfits hx hvalues hfaults
  obtain ⟨-, hright⟩ := completed_packInto hyfits hy hothers fun i => (hsame i).trans (hfaults i)
  -- the second run reads other views in another store, and finds the same in them
  rw [slotBytes_of_alike _ halike] at hright
  exact ⟨hlength, hleft, hright⟩

/-- No byte of a record is left over from what its target held. If packing succeeds on
one of two targets, with values that show the same, it does so on the other,
and both begin with the bytes that packing into a new buffer gives. -/
theorem packInto_determined {text : Bytes} {s t : Store} {x y : View} {values others : List Value}
    (halike : List.Forall₂ (Value.Alike s t) values others) (hx : s.Valid x) (hy : t.Valid y)
    (hvalues : s.Foreign x values) (hothers : t.Foreign y others)
    (hroom : ∀ required, packedSizeOfText text = .ok required →
      required ≤ x.size ∧ required ≤ y.size) :
    let first := packInto text s x values
    let second := packInto text t y others
    let made := pack text s values
    (first.failure = none ↔ second.failure = none) ∧
      (first.failure = none → ∃ data,
        packedSizeOfText text = .ok data.length ∧
        first.Completed x data ∧ second.Completed y data ∧
        (data.length ≤ maxBufferSize →
          made.Completed made.buffer data ∧ made.store.bytes made.buffer = data ∧
            made.buffer.size = data.length)) := by
  dsimp only
  cases hparse : Format.parse text with
  | error e =>
      have hrefused : Format.ofText text = .error (.badFormat text e) := by
        simp only [Format.ofText, hparse]
      simp [packInto, hrefused, Packed.refused]
  | ok format =>
      rw [packInto_of_parse hparse, packInto_of_parse hparse]
      rcases Nat.lt_or_ge (totalSize format.items) sizeLimit with hlt | hge
      · have hsize : packedSizeOfText text = .ok (totalSize format.items) := by
          simp only [packedSizeOfText, hparse]
          exact (packedSize_eq_ok_iff _ _).mpr ⟨rfl, hlt⟩
        obtain ⟨hxroom, hyroom⟩ := hroom _ hsize
        have hxfits : (checkCapacity format.items x.size).2 = none := by
          rw [checkCapacity_of_le hxroom hlt]
        have hyfits : (checkCapacity format.items y.size).2 = none := by
          rw [checkCapacity_of_le hyroom hlt]
        obtain ⟨hagree, hboth⟩ :=
          Format.completed_both halike hxfits hyfits hx hy hvalues hothers
        refine ⟨hagree, ?_⟩
        intro hnone
        have hfaults := (format.failure_packInto_iff s x values hxfits).mp hnone
        obtain ⟨hlength, hfirst, hsecond⟩ := hboth hnone
        refine ⟨_, ?_, hfirst, hsecond, ?_⟩
        · rw [hlength]
          exact hsize
        · intro hmax
          rw [hlength] at hmax
          exact completed_pack hparse hmax (fun value h => (hvalues value h).1) hfaults
      · simp [Format.packInto, checkCapacity_of_overflow hge, Packed.refused]

/-- A text shorter than its field, padding and an absent counted text, over the rests of
two buffers of different sizes. -/
theorem packInto_determined_stale_targets :
    let s : Store := ⟨[[65], [7, 7, 7, 7, 7, 7], [9, 8, 7, 6, 5, 4, 3, 2]]⟩
    let text := Bytes.ofChars ['3', 's', 'x', '2', 'p']
    let x : View := ⟨1, 0, 6⟩
    let y : View := ⟨2, 1, 7⟩
    let values : List Value := [.bytes ⟨0, 0, 1⟩, .absent]
    (packInto text s x values).failure = none ∧
      ((packInto text s x values).store.bytes x).take 6 = [65, 0, 0, 0, 0, 0] ∧
      ((packInto text s y values).store.bytes y).take 6 = [65, 0, 0, 0, 0, 0] := by
  intro s text x y values
  have hforeign (target : View) (hblock : target.block ≠ 0) : s.Foreign target values := by
    intro value hvalue
    simp only [values, List.mem_cons, List.not_mem_nil, or_false] at hvalue
    rcases hvalue with rfl | rfl
    · exact ⟨(by decide : s.Valid ⟨0, 0, 1⟩),
        fun b i h htarget => hblock (htarget.1.symm.trans h.1)⟩
    · exact ⟨trivial, trivial⟩
  have halike := (Store.Extends.refl s).forall_alike fun value h =>
    (hforeign x (by decide) value h).1
  have hsize : packedSizeOfText text = .ok 6 := by decide
  have hroom : ∀ required, packedSizeOfText text = .ok required →
      required ≤ x.size ∧ required ≤ y.size := by
    intro required h
    obtain rfl := Except.ok.inj (hsize.symm.trans h)
    decide
  have hpacked : (packInto text s x values).failure = none := by decide +kernel
  have hbytes : ((packInto text s x values).store.bytes x).take 6 = [65, 0, 0, 0, 0, 0] := by
    decide +kernel
  obtain ⟨-, hdetermined⟩ := packInto_determined halike (by decide : s.Valid x)
    (by decide : s.Valid y) (hforeign x (by decide)) (hforeign y (by decide)) hroom
  obtain ⟨data, hlength, hfirst, hsecond, -⟩ := hdetermined hpacked
  have hsix : data.length = 6 := Except.ok.inj (hlength.symm.trans hsize)
  have hsame := hsecond.bytes.trans hfirst.bytes.symm
  rw [hsix] at hsame
  exact ⟨hpacked, hbytes, hsame.trans hbytes⟩

end PackedRecord
