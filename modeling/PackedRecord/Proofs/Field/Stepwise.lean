import PackedRecord.Proofs.Field.Fill

/-!
Slots as they are filled.

What is written into a slot may depend on what was written before it, when its
value shares cells with the target. `placeSlots` is the store after a run over
slots, one step for each slot, whatever the values share. Every step patches the
field of its slot, so the run does what the plan says.
-/

namespace PackedRecord

/-- The store after a slot was filled with the next value. -/
def Shape.place? (shape : Shape) (order : ByteOrder) (s : Store) (field : View)
    (next : Option Value) : Option Store :=
  match shape, next with
  | .pad _, _ => some (s.fill field 0)
  | .element scalar, some value => (scalar.encode? order s value).map (s.write field)
  | .string width, some value =>
      value.view?.map fun text => Item.placeString width s text field
  | .counted width, some value =>
      value.view?.map fun text => Item.placeCounted width s text field
  | _, _ => none

/-- The store after slots were filled, up to the first that cannot be. -/
def placeSlots (order : ByteOrder) (target : View) (values : List Value) :
    List Slot → Store → Progress → Store
  | [], s, _ => s
  | slot :: slots, s, p =>
      let field := target.slice p.offset (p.offset + slot.shape.width)
      match slot.shape.place? order s field values[p.consumed]? with
      | none => s
      | some t =>
          placeSlots order target values slots t
            ⟨p.offset + slot.shape.width, p.consumed + slot.shape.taken⟩

theorem Shape.isSome_place? (shape : Shape) (order : ByteOrder) (s : Store) (field : View)
    (next : Option Value) :
    (shape.place? order s field next).isSome = (shape.encode? order s next).isSome := by
  cases next with
  | none => cases shape <;> rfl
  | some value =>
      cases shape with
      | pad _ | unknown => rfl
      | element scalar => simp only [place?, encode?, Option.isSome_map]
      | string _ | counted _ => simp only [place?, encode?, Value.content?, Option.isSome_map]

/-- A slot that is filled is patched, with its own bytes if the value is foreign. -/
theorem Shape.exists_place? {shape : Shape} {next : Option Value} (order : ByteOrder) (s : Store)
    {target : View} {offset : Nat} (hfit : offset + shape.width ≤ target.size)
    (h : shape.fault? next = none) :
    ∃ data, data.length = shape.width ∧
      shape.place? order s (target.slice offset (offset + shape.width)) next =
        some (s.patch target.block (target.offset + offset) data) ∧
      ((∀ value ∈ next, value.Valid s ∧ value.Apart target) →
        shape.encode? order s next = some data) := by
  have hsome := (fault?_eq_none_iff shape order s next).mp h
  cases shape with
  | pad width =>
      exact ⟨_, List.length_replicate, congrArg some (Store.fill_slice s hfit), fun _ => rfl⟩
  | unknown => cases next <;> contradiction
  | element scalar =>
      cases next with
      | none => contradiction
      | some value =>
          obtain ⟨word, hword⟩ := Option.isSome_iff_exists.mp hsome
          have hencode : scalar.encode? order s value = some word := hword
          have hlength := Scalar.length_encode? hencode
          refine ⟨word, hlength, ?_, fun _ => hword⟩
          rw [place?, hencode, Option.map_some,
            Store.write_slice s (by rw [hlength]; exact Nat.le_refl _) hfit]
  | string width =>
      cases next with
      | none => contradiction
      | some value =>
          rw [encode?, Option.isSome_map, Value.content?, Option.isSome_map] at hsome
          obtain ⟨text, htext⟩ := Option.isSome_iff_exists.mp hsome
          let field := target.slice offset (offset + width)
          refine ⟨((s.fill field 0).bytes text).fit width, Bytes.length_fit _ _, ?_, ?_⟩
          · rw [place?, htext]
            exact congrArg some (Item.placeString_patch text hfit)
          · intro hforeign
            obtain ⟨-, hapart⟩ := value.view?_foreign (hforeign value rfl) htext
            have hshown : (s.fill field 0).bytes text = s.bytes text :=
              Store.bytes_fill_of_apart hfit hapart
            rw [encode?, Value.content?, htext, hshown]
            rfl
  | counted width =>
      cases next with
      | none => contradiction
      | some value =>
          rw [encode?, Option.isSome_map, Value.content?, Option.isSome_map] at hsome
          obtain ⟨text, htext⟩ := Option.isSome_iff_exists.mp hsome
          obtain ⟨data, hlength, hplace, hdata⟩ := Item.placeCounted_patch (s := s) text hfit
          refine ⟨data, hlength, ?_, ?_⟩
          · rw [place?, htext]
            exact congrArg some hplace
          · intro hforeign
            obtain ⟨hvalid, hapart⟩ := value.view?_foreign (hforeign value rfl) htext
            rw [hdata hvalid, encode?, Value.content?, htext,
              Store.bytes_fill_of_apart hfit hapart]
            rfl

section Runs

variable (order : ByteOrder) (target : View) {values : List Value}

theorem placeSlots_cons_of_fault {slot : Slot} {p : Progress} {e : PackError}
    (h : slot.shape.fault? values[p.consumed]? = some e) (slots : List Slot) (s : Store) :
    placeSlots order target values (slot :: slots) s p = s := by
  have hnone : slot.shape.place? order s (target.slice p.offset (p.offset + slot.shape.width))
      values[p.consumed]? = none := by
    rw [← Option.not_isSome_iff_eq_none, Shape.isSome_place?, ← Shape.fault?_eq_none_iff, h]
    simp
  simp only [placeSlots, hnone]

theorem exists_placeSlots_cons {slot : Slot} {p : Progress}
    (h : slot.shape.fault? values[p.consumed]? = none) (s : Store) :
    ∃ t, slot.shape.place? order s (target.slice p.offset (p.offset + slot.shape.width))
        values[p.consumed]? = some t ∧
      ∀ slots, placeSlots order target values (slot :: slots) s p =
        placeSlots order target values slots t
          ⟨p.offset + slot.shape.width, p.consumed + slot.shape.taken⟩ := by
  have hsome := (Shape.fault?_eq_none_iff slot.shape order s values[p.consumed]?).mp h
  rw [← Shape.isSome_place? _ _ _ (target.slice p.offset (p.offset + slot.shape.width))] at hsome
  obtain ⟨t, ht⟩ := Option.isSome_iff_exists.mp hsome
  refine ⟨t, ht, ?_⟩
  intro slots
  simp only [placeSlots, ht]

theorem placeSlots_append (values : List Value) (xs ys : List Slot) (s : Store) (p : Progress) :
    placeSlots order target values (xs ++ ys) s p =
      if (fillSlots values xs p).stopped = none then
        placeSlots order target values ys (placeSlots order target values xs s p)
          (fillSlots values xs p).progress
      else placeSlots order target values xs s p := by
  induction xs generalizing s p with
  | nil => rfl
  | cons slot xs ih =>
      rw [List.cons_append]
      cases hf : slot.shape.fault? values[p.consumed]? with
      | some e =>
          rw [placeSlots_cons_of_fault order target hf, placeSlots_cons_of_fault order target hf,
            fillSlots_cons_of_fault hf]
          rfl
      | none =>
          obtain ⟨t, -, ht⟩ := exists_placeSlots_cons order target hf s
          rw [ht, ht, fillSlots_cons_of_none hf, ih]

/-- A run over slots that lie within the target does what the plan says. -/
theorem placeSlots_filled (values : List Value) (slots : List Slot) (s : Store) (p : Progress)
    (hfit : p.offset + slotsWidth slots ≤ target.size) :
    Filled order s target values slots p (placeSlots order target values slots s p)
      (fillSlots values slots p).progress
      ((fillSlots values slots p).stopped.map fun stop => .pack stop.2) := by
  induction slots generalizing s p with
  | nil => exact .nil
  | cons slot slots ih =>
      simp only [slotsWidth, List.map_cons, List.sum_cons] at hfit ih
      have hroom : p.offset + slot.shape.width ≤ target.size := by omega
      rw [← List.singleton_append]
      cases hf : slot.shape.fault? values[p.consumed]? with
      | some e =>
          rw [List.singleton_append, placeSlots_cons_of_fault order target hf,
            fillSlots_cons_of_fault hf]
          exact (Filled.stop hf).append_of_stopped
      | none =>
          obtain ⟨data, hlength, hplace, hdata⟩ := Shape.exists_place? order s hroom hf
          obtain ⟨t, ht, hrest⟩ := exists_placeSlots_cons order target hf s
          rw [hplace, Option.some.injEq] at ht
          rw [List.singleton_append, hrest, fillSlots_cons_of_none hf, ← ht]
          refine (Filled.single hf hlength ?_).append (ih _ _ (by simp only; omega)) hroom
          intro hforeign
          exact hdata fun value hvalue => hforeign value (List.mem_of_getElem? hvalue)

end Runs

end PackedRecord
