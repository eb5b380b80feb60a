import PackedRecord.Proofs.Field.Repeated
import PackedRecord.Proofs.Record.Read
import PackedRecord.Proofs.Record.Run

/-!
Counts as repetitions.

An item with a count means as many items that count one, unless its code is that
of a text. In exchange for each other they leave a format of the same size, which
packs to the same bytes, also where it stops in their middle or behind them, and
unpacks to the same values. A failure may name either item; all else in it is the
same.
-/

namespace PackedRecord

/-- A failure under another item, if it names one. -/
def Failure.withItem (item : Item) : Failure → Failure
  | notEnoughValues _ consumed => notEnoughValues item consumed
  | invalidValue _ index shown => invalidValue item index shown
  | unknownCode _ => unknownCode item
  | itemFailed _ fault => itemFailed item fault
  | failure => failure

theorem withItem_packFailure (item named : Item) (values : List Value) (s : Store) (consumed : Nat)
    (fault : Fault) :
    (packFailure named values s consumed fault).withItem item =
      packFailure item values s consumed fault := by
  cases fault with
  | core e => rfl
  | pack e => cases e <;> rfl

theorem fault_withItem (item : Item) (failure : Failure) :
    (failure.withItem item).fault = failure.fault := by
  cases failure <;> rfl

/-- Two packings that differ at most in the item that their failures name. -/
structure Packed.SameButItem (packed other : Packed) : Prop where
  store : other.store = packed.store
  buffer : other.buffer = packed.buffer
  extent : other.extent = packed.extent
  written : other.written = packed.written
  failure : ∀ item, other.failure.map (·.withItem item) = packed.failure.map (·.withItem item)
  log : packed.failure = none → other.log = packed.log

namespace Packed.SameButItem

theorem refl (packed : Packed) : SameButItem packed packed :=
  ⟨rfl, rfl, rfl, rfl, fun _ => rfl, fun _ => rfl⟩

/-- The error does not depend on the item. -/
theorem fault {packed other : Packed} (h : SameButItem packed other) :
    other.failure.map Failure.fault = packed.failure.map Failure.fault := by
  have hfault (failure : Option Failure) :
      (failure.map (·.withItem ⟨0, 0⟩)).map Failure.fault = failure.map Failure.fault := by
    simp only [Option.map_map, Function.comp_def, fault_withItem]
  rw [← hfault other.failure, ← hfault packed.failure, h.failure]

end Packed.SameButItem

section Interchanged

variable {items others : List Item} (h : Interchangeable (slotsOf items) (slotsOf others))
include h

theorem totalSize_interchanged : totalSize others = totalSize items := by
  rw [← slotsWidth_slotsOf, ← slotsWidth_slotsOf, h.width]

theorem packedSize_interchanged : packedSize others = packedSize items := by
  rw [packedSize_eq, packedSize_eq, totalSize_interchanged h]

theorem checkCapacity_interchanged (actual : Nat) :
    checkCapacity others actual = checkCapacity items actual := by
  rw [checkCapacity, checkCapacity, packedSize_interchanged h]

theorem store_interchanged (order : ByteOrder) {target : View}
    (hfits : (checkCapacity items target.size).2 = none) (s : Store) (values : List Value) :
    (Format.packInto ⟨order, others⟩ s target values).store =
      (Format.packInto ⟨order, items⟩ s target values).store := by
  have hother : (checkCapacity others target.size).2 = none :=
    checkCapacity_interchanged h target.size ▸ hfits
  have hplaced {list : List Item} (hlist : (checkCapacity list target.size).2 = none) :
      (Format.packInto ⟨order, list⟩ s target values).store =
        placeSlots order target values (slotsOf list) s ⟨0, 0⟩ :=
    Format.store_packInto hlist s values
  obtain ⟨-, hroom, -⟩ := checkCapacity_of_fits hfits
  rw [hplaced hother, hplaced hfits]
  refine h.place order target values s ⟨0, 0⟩ ?_
  rw [slotsWidth_slotsOf, Nat.zero_add]
  exact hroom

theorem packInto_interchanged (order : ByteOrder) (s : Store) (target : View)
    (values : List Value) :
    Packed.SameButItem (Format.packInto ⟨order, items⟩ s target values)
      (Format.packInto ⟨order, others⟩ s target values) := by
  have hcheck := checkCapacity_interchanged h target.size
  cases hfits : (checkCapacity items target.size).2 with
  | some failure =>
      have hrefused {list : List Item} (h : (checkCapacity list target.size).2 = some failure) :
          Format.packInto ⟨order, list⟩ s target values =
            .refused s (checkCapacity list target.size).1 failure := Format.packInto_of_refused h
      rw [hrefused hfits, hrefused (hcheck ▸ hfits), hcheck]
      exact .refl _
  | none =>
      have hother : (checkCapacity others target.size).2 = none := hcheck ▸ hfits
      have hran : Format.Ran ⟨order, items⟩ s target values _ :=
        Format.packInto_ran hfits s values
      have hotherRan : Format.Ran ⟨order, others⟩ s target values _ :=
        Format.packInto_ran hother s values
      have hprogress := h.progress values ⟨0, 0⟩
      have hstopped := h.stopped values ⟨0, 0⟩
      have hstore := store_interchanged h order hfits s values
      refine ⟨hstore, hotherRan.buffer.trans hran.buffer.symm, ?_, ?_, ?_, ?_⟩
      · rw [hotherRan.extent, hran.extent, totalSize_interchanged h]
      · rw [hotherRan.written, hran.written]
        exact congrArg Progress.offset hprogress
      · intro item
        rw [hotherRan.failure, hran.failure, hstore]
        simp only [Format.plan, hprogress, Option.map_map, Function.comp_def, withItem_packFailure]
        have hreasons := congrArg (Option.map fun e => packFailure item values
          (Format.packInto ⟨order, items⟩ s target values).store
          (fillSlots values (slotsOf items) ⟨0, 0⟩).progress.consumed (.pack e)) hstopped
        rwa [Option.map_map, Option.map_map] at hreasons
      · intro hnone
        have hplan := (h.stopped_eq_none_iff values ⟨0, 0⟩).mpr (hran.stopped_of_success hnone)
        have hsuccess : (Format.packInto ⟨order, others⟩ s target values).failure = none := by
          rw [hotherRan.failure, Format.plan, hplan]
          rfl
        rw [hotherRan.log hsuccess, hran.log hnone, Format.plan, Format.plan, hprogress]

end Interchanged

/-- Items of known codes do not end the items before the first unknown one. -/
theorem takeWhile_known {middle : List Item}
    (h : ∀ item ∈ middle, item.kind?.isSome = true) (front back : List Item) :
    (front ++ middle ++ back).takeWhile (·.kind?.isSome) =
      if (front.takeWhile (·.kind?.isSome)).length = front.length then
        front ++ middle ++ back.takeWhile (·.kind?.isSome)
      else front.takeWhile (·.kind?.isSome) := by
  rw [List.append_assoc, List.takeWhile_append, List.takeWhile_append_of_pos h, List.append_assoc]

section Copies

variable {item : Item} {code : Code} (hkind : item.kind? = some code)
include hkind

theorem isSome_kind?_of_mem_copies : ∀ copy ∈ item.copies, copy.kind?.isSome = true := by
  intro copy hcopy
  obtain rfl := List.eq_of_mem_replicate hcopy
  rw [Item.kind?, show Code.ofByte? item.code = some code from hkind]
  rfl

/-- Copies do not change the first item with an unknown code. -/
theorem find?_copies (front back : List Item) :
    (front ++ item.copies ++ back).find? (·.kind?.isNone) =
      (front ++ [item] ++ back).find? (·.kind?.isNone) := by
  have hcopies : item.copies.find? (·.kind?.isNone) = none := by
    apply List.find?_eq_none.mpr
    intro copy hcopy hnone
    have hsome := isSome_kind?_of_mem_copies hkind copy hcopy
    rw [Option.isNone_iff_eq_none.mp hnone] at hsome
    contradiction
  have hitem : [item].find? (·.kind?.isNone) = none := by
    rw [List.find?_singleton, hkind]
    rfl
  simp only [List.find?_append, hcopies, hitem]

variable (hstring : code ≠ .string) (hcounted : code ≠ .counted)
include hstring hcounted

theorem interchangeable_copies (front back : List Item) :
    Interchangeable (slotsOf (front ++ [item] ++ back))
      (slotsOf (front ++ item.copies ++ back)) := by
  have hslots : slotsOf [item] = item.slots := List.append_nil _
  simp only [slotsOf_append, hslots]
  exact ((Interchangeable.refl _).append (Item.slots_copies hkind hstring hcounted)).append
    (.refl _)

/-- The items before the first unknown code are interchangeable too. -/
theorem interchangeable_known (front back : List Item) :
    Interchangeable (slotsOf ((front ++ [item] ++ back).takeWhile (·.kind?.isSome)))
      (slotsOf ((front ++ item.copies ++ back).takeWhile (·.kind?.isSome))) := by
  have hitem : ∀ other ∈ [item], other.kind?.isSome = true := by
    intro other hother
    rw [List.mem_singleton.mp hother, hkind]
    rfl
  rw [takeWhile_known hitem, takeWhile_known (isSome_kind?_of_mem_copies hkind)]
  split
  · exact interchangeable_copies hkind hstring hcounted front _
  · exact .refl _

theorem unpack_copies (order : ByteOrder) (front back : List Item) (s : Store) (source : View) :
    Format.unpack ⟨order, front ++ item.copies ++ back⟩ s source =
      Format.unpack ⟨order, front ++ [item] ++ back⟩ s source := by
  have hsame := interchangeable_copies hkind hstring hcounted front back
  have hcheck := checkCapacity_interchanged hsame source.size
  cases hfits : (checkCapacity (front ++ [item] ++ back) source.size).2 with
  | some failure =>
      have hrefused : checkCapacity (front ++ [item] ++ back) source.size =
          ((checkCapacity (front ++ [item] ++ back) source.size).1, some failure) :=
        Prod.ext rfl hfits
      simp only [Format.unpack]
      rw [hcheck, hrefused]
  | none =>
      have hread := (interchangeable_known hkind hstring hcounted front back).read order s source 0
      have hwhole : Format.unpack ⟨order, front ++ [item] ++ back⟩ s source = _ :=
        Format.unpack_of_fits hfits s
      have hrepeated : Format.unpack ⟨order, front ++ item.copies ++ back⟩ s source = _ :=
        Format.unpack_of_fits (hcheck ▸ hfits) s
      rw [hwhole, hrepeated]
      simp only [hread, find?_copies hkind, totalSize_interchanged hsame]

/-- An item and its copies are interchangeable within any items. Both formats have the same
size, pack the same, but for the item that a failure names, and unpack the same. -/
theorem copies_interchangeable (front back : List Item) :
    let counted := front ++ [item] ++ back
    let repeated := front ++ item.copies ++ back
    packedSize repeated = packedSize counted ∧
      (∀ (order : ByteOrder) (s : Store) (target : View) (values : List Value),
        let packed := Format.packInto ⟨order, counted⟩ s target values
        let other := Format.packInto ⟨order, repeated⟩ s target values
        other.failure.map Failure.fault = packed.failure.map Failure.fault ∧
          packed.SameButItem other) ∧
      ∀ (order : ByteOrder) (s : Store) (source : View),
        Format.unpack ⟨order, repeated⟩ s source = Format.unpack ⟨order, counted⟩ s source := by
  have hsame := interchangeable_copies hkind hstring hcounted front back
  refine ⟨packedSize_interchanged hsame, ?_, ?_⟩
  · intro order s target values
    have hpacked := packInto_interchanged hsame order s target values
    exact ⟨hpacked.fault, hpacked⟩
  · intro order s source
    exact unpack_copies hkind hstring hcounted order front back s source

end Copies

/-- A value that the second of three elements refuses, with an unknown code behind them, and
padding in place of the elements. -/
theorem copies_interchangeable_stopped_midway :
    let s : Store := ⟨[List.replicate 6 9]⟩
    let front : List Item := [⟨1, 'h'.toUInt8⟩]
    let back : List Item := [⟨1, 0⟩]
    let packed := Format.packInto ⟨.little, front ++ Item.copies ⟨3, 'B'.toUInt8⟩ ++ back⟩ s
      ⟨0, 1, 5⟩ [.int 258, .uint 7, .bytes ⟨0, 0, 1⟩]
    packedSize (front ++ Item.copies ⟨3, 'B'.toUInt8⟩ ++ back) = .ok 5 ∧
      packed.failure.map Failure.fault = some (.pack .invalidArgument) ∧
      packed.store = ⟨[[9, 2, 1, 7, 9, 9]]⟩ ∧ packed.written = 3 ∧ packed.extent = ⟨5, 5⟩ ∧
      (Format.unpack ⟨.little, front ++ Item.copies ⟨3, 'x'.toUInt8⟩ ++ back⟩ s
        ⟨0, 1, 5⟩).values = [.int 2313] := by
  intro s front back packed
  obtain ⟨hsize, hpack, -⟩ := copies_interchangeable
    (show Item.kind? ⟨3, 'B'.toUInt8⟩ = some (.scalar (.integer false .byte)) from rfl)
    (by decide) (by decide) front back
  obtain ⟨-, -, hunpack⟩ := copies_interchangeable
    (show Item.kind? ⟨3, 'x'.toUInt8⟩ = some .pad from rfl) (by decide) (by decide) front back
  obtain ⟨hfault, hsame⟩ := hpack .little s ⟨0, 1, 5⟩ [.int 258, .uint 7, .bytes ⟨0, 0, 1⟩]
  refine ⟨hsize.trans (by decide), hfault.trans (by decide +kernel),
    hsame.store.trans (by decide +kernel), hsame.written.trans (by decide +kernel),
    hsame.extent.trans (by decide +kernel), ?_⟩
  exact (congrArg Unpacked.values (hunpack .little s ⟨0, 1, 5⟩)).trans (by decide +kernel)

end PackedRecord
