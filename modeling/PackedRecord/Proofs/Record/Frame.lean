import PackedRecord.Proofs.Record.Outcome
import PackedRecord.Proofs.Store.Insert

/-!
What packing changes.

A packing that is refused before its first item changes nothing. Any other
changes at most the cells of the target up to where it got, all of them on
success. A packing that is stopped leaves the bytes of the slots before the one
that stopped it, just as packing those slots alone would.
-/

namespace PackedRecord

section

variable {slots : List Slot} {values : List Value}

theorem slotsWidth_take_le (slots : List Slot) (i : Nat) :
    slotsWidth (slots.take i) ≤ slotsWidth slots := by
  have happend := slotsWidth_append (slots.take i) (slots.drop i)
  rw [List.take_append_drop] at happend
  omega

/-- Nothing is written for the first slot with a fault, nor behind it. -/
theorem slotBytes_take_of_first (order : ByteOrder) (s : Store) {n i : Nat} {e : PackError}
    (h : FirstFault slots (values.drop n) i e) :
    slotBytes order s values (slots.take i) n = slotBytes order s values slots n := by
  induction slots generalizing n i with
  | nil => rw [List.take_nil]
  | cons slot slots ih =>
      have hzero : slotFault? (slot :: slots) (values.drop n) 0 =
          slot.shape.fault? values[n]? := by
        rw [slotFault?_zero, List.getElem?_drop, Nat.add_zero]
      cases i with
      | zero =>
          have hfault := h.fault
          rw [hzero] at hfault
          rw [slotBytes_cons_of_fault order s hfault]
          rfl
      | succ i =>
          have hnone := h.before 0 (Nat.succ_pos i)
          rw [hzero] at hnone
          obtain ⟨data, -, -, hcons⟩ := exists_slotBytes_cons order s hnone
          rw [List.take_succ_cons, hcons, hcons]
          refine congrArg (data ++ ·) (ih ⟨?_, ?_⟩)
          · have hfault := h.fault
            rwa [slotFault?_succ, List.drop_drop] at hfault
          · intro j hj
            have hbefore := h.before (j + 1) (by omega)
            rwa [slotFault?_succ, List.drop_drop] at hbefore

/-- Slots have their faults whatever comes behind them. -/
theorem slotFault?_take {i j : Nat} (h : j < i) :
    slotFault? (slots.take i) values j = slotFault? slots values j := by
  simp only [slotFault?, valueIndex, List.getElem?_take, if_pos h, List.take_take,
    Nat.min_eq_left (Nat.le_of_lt h)]

theorem slotFault?_of_length_le {j : Nat} (h : slots.length ≤ j) :
    slotFault? slots values j = none := by
  simp only [slotFault?, List.getElem?_eq_none h, Option.bind_none]

end

/-- The item that has a given slot and no other. -/
def Slot.alone (slot : Slot) : Item :=
  match slot.shape with
  | .element _ => ⟨1, slot.item.code⟩
  | _ => slot.item

theorem Item.slots_alone {item : Item} {slot : Slot} (h : slot ∈ item.slots) :
    slot.alone.slots = [⟨slot.alone, slot.shape⟩] := by
  cases hkind : item.kind? with
  | none =>
      simp only [slots, hkind, List.mem_singleton] at h
      subst h
      simp only [Slot.alone, slots, hkind]
  | some code =>
      cases code with
      | scalar scalar =>
          simp only [slots, hkind] at h
          have hslot := List.eq_of_mem_replicate h
          subst hslot
          have hone : Item.kind? ⟨1, item.code⟩ = some (.scalar scalar) := hkind
          simp only [Slot.alone, slots, hone, List.replicate_one]
      | pad | string | counted =>
          simp only [slots, hkind, List.mem_singleton] at h
          subst h
          simp only [Slot.alone, slots, hkind]

/-- A slot under the item that has no other. -/
def Slot.regrouped (slot : Slot) : Slot :=
  ⟨slot.alone, slot.shape⟩

/-- The items that have just the first `i` slots of a list of items. -/
def leadingItems (items : List Item) (i : Nat) : List Item :=
  ((slotsOf items).take i).map Slot.alone

theorem slotsOf_leadingItems (items : List Item) (i : Nat) :
    slotsOf (leadingItems items i) = ((slotsOf items).take i).map Slot.regrouped := by
  have hslots : ∀ slot ∈ (slotsOf items).take i, ∃ item : Item, slot ∈ item.slots := by
    intro slot hslot
    obtain ⟨item, -, hitem⟩ := List.mem_flatMap.mp (List.mem_of_mem_take hslot)
    exact ⟨item, hitem⟩
  rw [leadingItems]
  generalize (slotsOf items).take i = slots at hslots ⊢
  induction slots with
  | nil => rfl
  | cons slot slots ih =>
      obtain ⟨item, hitem⟩ := hslots slot List.mem_cons_self
      rw [List.map_cons, slotsOf_cons, Item.slots_alone hitem,
        ih fun other hother => hslots other (List.mem_cons_of_mem _ hother)]
      rfl

section Regrouped

variable (slots : List Slot)

theorem slotsWidth_regrouped : slotsWidth (slots.map Slot.regrouped) = slotsWidth slots := by
  simp only [slotsWidth, List.map_map, Function.comp_def, Slot.regrouped]

theorem slotFault?_regrouped (values : List Value) (i : Nat) :
    slotFault? (slots.map Slot.regrouped) values i = slotFault? slots values i := by
  have hindex : valueIndex (slots.map Slot.regrouped) i = valueIndex slots i := by
    simp only [valueIndex, ← List.map_take, List.map_map, Function.comp_def, Slot.regrouped]
  simp only [slotFault?, List.getElem?_map, hindex]
  cases slots[i]? with
  | none => rfl
  | some slot => rfl

theorem slotBytes_regrouped (order : ByteOrder) (s : Store) (values : List Value) (n : Nat) :
    slotBytes order s values (slots.map Slot.regrouped) n =
      slotBytes order s values slots n := by
  induction slots generalizing n with
  | nil => rfl
  | cons slot slots ih => simp only [List.map_cons, slotBytes, Slot.regrouped, ih]

end Regrouped

theorem totalSize_leadingItems_le (items : List Item) (i : Nat) :
    totalSize (leadingItems items i) ≤ totalSize items := by
  rw [← slotsWidth_slotsOf, slotsOf_leadingItems, slotsWidth_regrouped, ← slotsWidth_slotsOf]
  exact slotsWidth_take_le _ i

/-- The slots before the first fault have none. -/
theorem slotFault?_leadingItems {items : List Item} {values : List Value} {i : Nat}
    {e : PackError} (h : FirstFault (slotsOf items) values i e) (j : Nat) :
    slotFault? (slotsOf (leadingItems items i)) values j = none := by
  rw [slotsOf_leadingItems, slotFault?_regrouped]
  by_cases hj : j < i
  · rw [slotFault?_take hj]
    exact h.before j hj
  · exact slotFault?_of_length_le (by rw [List.length_take]; omega)

namespace Format

variable (format : Format) (s : Store) (target : View) (values : List Value)

/-- The slots before the first fault can be packed alone, into a copy. -/
theorem packInto_leadingItems (hfits : (checkCapacity format.items target.size).2 = none)
    (hvalid : s.Valid target) (hforeign : s.Foreign target values) {i : Nat} {e : PackError}
    (hfirst : FirstFault (slotsOf format.items) values i e) :
    let copied := s.insert (s.bytes target)
    let alone := packInto ⟨format.order, leadingItems format.items i⟩ copied.1 copied.2 values
    alone.failure = none ∧
      alone.store.bytes copied.2 = (format.packInto s target values).store.bytes target := by
  let leading : Format := ⟨format.order, leadingItems format.items i⟩
  let copied := s.insert (s.bytes target)
  obtain ⟨-, hle, hlt⟩ := checkCapacity_of_fits hfits
  have hsize : copied.2.size = target.size := by
    rw [Store.size_insert, Store.length_bytes hvalid]
  have hleading := totalSize_leadingItems_le format.items i
  have hleadingFits : (checkCapacity leading.items copied.2.size).2 = none := by
    rw [checkCapacity_of_le (Nat.le_trans hleading (by omega)) (by omega)]
  have hvalues : ∀ value ∈ values, value.Valid s := fun value h => (hforeign value h).1
  have hdata : slotBytes format.order copied.1 values (slotsOf leading.items) 0 =
      slotBytes format.order s values (slotsOf format.items) 0 := by
    rw [slotsOf_leadingItems, slotBytes_regrouped, slotBytes_take_of_first _ _ hfirst]
    exact slotBytes_of_alike _ ((s.extends_insert _).forall_alike hvalues) _ _
  have hran := packInto_ran hfits s values
  have hran' := packInto_ran hleadingFits copied.1 values
  obtain ⟨data, hstore, hlength, heq⟩ := hran.patched
  obtain ⟨data', hstore', hlength', heq'⟩ := hran'.patched
  have hsame : data' = data := by
    rw [heq hforeign, heq' (Store.foreign_insert _ hvalues), hdata]
  refine ⟨?_, ?_⟩
  · exact (failure_packInto_iff leading copied.1 copied.2 values hleadingFits).mpr
      (slotFault?_leadingItems hfirst)
  · have hroom : data.length ≤ target.size := by
      rw [hlength]
      exact Nat.le_trans hran.written_le hle
    have hroom' : data.length ≤ copied.2.size := by
      rw [hsize]
      exact hroom
    rw [hstore, hstore', hsame, Store.bytes_patch_self (s.valid_insert _) hroom',
      Store.bytes_patch_self hvalid hroom, s.bytes_insert]

/-- What a packing of values into a target may change, and what it must leave
behind. -/
structure Framed (packed : Packed) : Prop where
  refused : ∀ e, packed.failure.map Failure.fault = some (.pack e) →
    e = .invalidFormat ∨ e = .lengthOverflow ∨ e = .bufferTooSmall →
    packed.store = s ∧ packed.written = 0
  stopped : ∀ e, packed.failure.map Failure.fault = some (.pack e) →
    e = .notEnoughValues ∨ e = .invalidArgument ∨ e = .unknownFormat →
    packed.written ≤ packed.extent.required ∧
    s.AgreesOutside packed.store (target.slice 0 packed.written) ∧
    (s.Valid target → s.Foreign target values →
      ∃ i, FirstFault (slotsOf format.items) values i e ∧
        (packed.store.bytes target).take packed.written =
          slotBytes format.order s values ((slotsOf format.items).take i) 0 ∧
        let copied := s.insert (s.bytes target)
        let alone := packInto ⟨format.order, leadingItems format.items i⟩ copied.1 copied.2 values
        alone.failure = none ∧ alone.store.bytes copied.2 = packed.store.bytes target)
  completed : packed.failure = none →
    packed.written = packed.extent.required ∧
    s.AgreesOutside packed.store (target.slice 0 packed.written)

theorem framed_of_refused {failure : Failure}
    (hrefused : (checkCapacity format.items target.size).2 = some failure) :
    format.Framed s target values (format.packInto s target values) := by
  have hfault := fault_checkCapacity hrefused
  rw [packInto_of_refused hrefused]
  refine ⟨?_, ?_, ?_⟩
  · intro e _ _
    exact ⟨rfl, rfl⟩
  · intro e he hslot
    have heq : failure.fault = .pack e := Option.some.inj he
    rw [heq] at hfault
    rcases hslot with rfl | rfl | rfl <;> cases hfault <;> contradiction
  · intro hnone
    contradiction

theorem framed_of_fits (hfits : (checkCapacity format.items target.size).2 = none) :
    format.Framed s target values (format.packInto s target values) := by
  have hran := packInto_ran hfits s values
  obtain ⟨data, hstore, hlength, hdata⟩ := hran.patched
  have hroom : data.length ≤ target.size := by
    rw [hlength]
    exact Nat.le_trans hran.written_le (checkCapacity_of_fits hfits).2.1
  have hframe : s.AgreesOutside (format.packInto s target values).store
      (target.slice 0 (format.packInto s target values).written) := by
    rw [hstore, ← hlength]
    exact s.agreesOutside_patch hroom
  cases format.failure_packInto_cases s target values hfits with
  | inl hfilled =>
      obtain ⟨-, hnone⟩ := hfilled
      refine ⟨?_, ?_, ?_⟩
      · intro e he _
        rw [hnone] at he
        contradiction
      · intro e he _
        rw [hnone] at he
        contradiction
      · intro _
        rw [hran.extent]
        exact ⟨hran.written_of_success hnone, hframe⟩
  | inr hstopped =>
      obtain ⟨i, slot, e, -, hfirst, -, hfailure⟩ := hstopped
      have hfault : (format.packInto s target values).failure.map Failure.fault =
          some (.pack e) := by
        rw [hfailure, Option.map_some, slot.fault_failure]
      have hsame (f : PackError) (hf : (format.packInto s target values).failure.map
          Failure.fault = some (.pack f)) : f = e := by
        rw [hfault] at hf
        exact (Fault.pack.inj (Option.some.inj hf)).symm
      refine ⟨?_, ?_, ?_⟩
      · intro f hf hrefused
        obtain rfl := hsame f hf
        rcases hfirst.error_cases with rfl | rfl | rfl <;> simp at hrefused
      · intro f hf _
        obtain rfl := hsame f hf
        rw [hran.extent]
        refine ⟨hran.written_le, hframe, ?_⟩
        intro hvalid hforeign
        refine ⟨i, hfirst, ?_, format.packInto_leadingItems s target values hfits hvalid
          hforeign hfirst⟩
        rw [hstore, Store.bytes_patch_self hvalid hroom, ← hlength, List.take_left,
          hdata hforeign, slotBytes_take_of_first _ _ hfirst]
      · intro hnone
        rw [hfailure] at hnone
        contradiction

theorem framed_packInto : format.Framed s target values (format.packInto s target values) := by
  cases hcheck : (checkCapacity format.items target.size).2 with
  | some failure => exact framed_of_refused format s target values hcheck
  | none => exact framed_of_fits format s target values hcheck

end Format

/-- The frame of packing, by a format and by a format text. -/
theorem packInto_framed (s : Store) (target : View) (values : List Value) :
    (∀ format : Format, format.Framed s target values (format.packInto s target values)) ∧
    ∀ text,
      match Format.parse text with
      | .ok format => format.Framed s target values (packInto text s target values)
      | .error _ =>
          let packed := packInto text s target values
          packed.failure.map Failure.fault = some (.pack .invalidFormat) ∧
            packed.store = s ∧ packed.written = 0 := by
  refine ⟨fun format => format.framed_packInto s target values, ?_⟩
  intro text
  cases hparse : Format.parse text with
  | ok format =>
      have hpack : packInto text s target values = format.packInto s target values := by
        simp only [packInto, Format.ofText, hparse]
      dsimp only
      rw [hpack]
      exact format.framed_packInto s target values
  | error e =>
      have hpack : packInto text s target values = .refused s ⟨0, 0⟩ (.badFormat text e) := by
        simp only [packInto, Format.ofText, hparse]
      dsimp only
      rw [hpack]
      exact ⟨rfl, rfl, rfl⟩

/-- A run that stops in the middle of an item, inside a larger block. -/
theorem packInto_framed_middle_of_item :
    let s : Store := ⟨[[9, 9, 9, 9, 9, 9]]⟩
    let packed := packInto ['2'.toUInt8, 'h'.toUInt8] s ⟨0, 1, 4⟩ [.int 7]
    packed.failure.map Failure.fault = some (.pack .notEnoughValues) ∧
      packed.written = 2 ∧ s.AgreesOutside packed.store ⟨0, 1, 2⟩ := by
  intro s packed
  have hfault : packed.failure.map Failure.fault = some (.pack .notEnoughValues) := by decide
  have hwritten : packed.written = 2 := by decide
  have hframed := (packInto_framed s ⟨0, 1, 4⟩ [.int 7]).2 ['2'.toUInt8, 'h'.toUInt8]
  have hstopped := hframed.stopped .notEnoughValues hfault (.inl rfl)
  exact ⟨hfault, hwritten, hstopped.2.1⟩

end PackedRecord
