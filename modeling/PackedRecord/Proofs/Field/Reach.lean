import PackedRecord.Proofs.Field.Stepwise
import PackedRecord.Proofs.Store.Confined

/-!
Packing an item at any offset.

An item that is packed by itself may begin anywhere, beyond the end of its target
too. Its slots are filled from the left, and its step stops at the first that has a
fault or would end past the target. So the step tells where it stopped: its offset
moves only within the target, and only the cells that it moved over are changed.
-/

namespace PackedRecord

theorem getElem?_of_drop_eq_cons {values rest : List Value} {value : Value} {n : Nat}
    (h : values.drop n = value :: rest) : values[n]? = some value := by
  have hhead := congrArg List.head? h
  rwa [List.head?_drop] at hhead

theorem drop_succ_of_drop_eq_cons {values rest : List Value} {value : Value} {n : Nat}
    (h : values.drop n = value :: rest) : values.drop (n + 1) = rest := by
  have htail := congrArg List.tail h
  rwa [List.tail_drop] at htail

/-- Why a slot at an offset is not filled: it has a fault of its own, or it would end past
the target. -/
inductive Shape.Stops (shape : Shape) (target : View) (offset : Nat) (next : Option Value) :
    Fault → Prop where
  | own {e : PackError} (h : shape.fault? next = some e) : Stops shape target offset next (.pack e)
  | room (h : shape.fault? next = none) (hroom : target.size < offset + shape.width) :
      Stops shape target offset next (.core .outOfRange)

/-- The step of an item, behind items that took `base` values, filled the first `n` of its
slots and stopped at the next. It can stand beyond the target only where it began. -/
structure ItemPacked.Reached (step : ItemPacked) (order : ByteOrder) (s : Store) (target : View)
    (values : List Value) (base : Nat) (slots : List Slot) (p : Progress) (n : Nat) : Prop where
  store : step.store = placeSlots order target values (slots.take n) s p
  filling : fillSlots values (slots.take n) p =
    ⟨⟨step.progress.offset, base + step.progress.consumed⟩, none⟩
  room : n = 0 ∨ step.progress.offset ≤ target.size
  completed : step.fault = none → n = slots.length
  stopped : ∀ fault, step.fault = some fault → ∃ slot, slots[n]? = some slot ∧
    slot.shape.Stops target step.progress.offset values[base + step.progress.consumed]? fault

namespace ItemPacked.Reached

variable {step : ItemPacked} {order : ByteOrder} {s t : Store} {target : View}
  {values : List Value} {base : Nat} {slot : Slot} {slots : List Slot} {p : Progress} {n : Nat}

theorem nil : Reached ⟨s, p, none⟩ order s target values base [] ⟨p.offset, base + p.consumed⟩
    0 := by
  refine ⟨rfl, rfl, .inl rfl, fun _ => rfl, ?_⟩
  intro fault hfault
  contradiction

theorem stop {fault : Fault}
    (h : slot.shape.Stops target p.offset values[base + p.consumed]? fault) :
    Reached ⟨s, p, some fault⟩ order s target values base (slot :: slots)
      ⟨p.offset, base + p.consumed⟩ 0 := by
  refine ⟨rfl, rfl, .inl rfl, ?_, ?_⟩
  · intro hnone
    contradiction
  · intro other hother
    obtain rfl := Option.some.inj hother
    exact ⟨slot, rfl, h⟩

theorem cons (hroom : p.offset + slot.shape.width ≤ target.size)
    (h : slot.shape.place? order s (target.slice p.offset (p.offset + slot.shape.width))
      values[p.consumed]? = some t)
    (hrest : step.Reached order t target values base slots
      ⟨p.offset + slot.shape.width, p.consumed + slot.shape.taken⟩ n) :
    step.Reached order s target values base (slot :: slots) p (n + 1) := by
  have hnone : slot.shape.fault? values[p.consumed]? = none := by
    rw [Shape.fault?_eq_none_iff _ order s, ← Shape.isSome_place?, h]
    rfl
  refine ⟨?_, ?_, .inr ?_, ?_, hrest.stopped⟩
  · simp only [List.take_succ_cons, placeSlots, h]
    exact hrest.store
  · rw [List.take_succ_cons, fillSlots_cons_of_none hnone]
    exact hrest.filling
  -- where no later slot was filled, the place is the end of this one
  · rcases hrest.room with rfl | hwithin
    · have hstart := congrArg (fun filling => filling.progress.offset) hrest.filling
      exact hstart ▸ hroom
    · exact hwithin
  · intro hfault
    rw [hrest.completed hfault]
    rfl

section Facts

variable (h : step.Reached order s target values base slots p n)
include h

theorem progress_eq : (⟨step.progress.offset, base + step.progress.consumed⟩ : Progress) =
    ⟨p.offset + slotsWidth (slots.take n),
      p.consumed + ((slots.take n).map (·.shape.taken)).sum⟩ := by
  have hend := progress_fillSlots (slots.take n) p
    (show (fillSlots values (slots.take n) p).stopped = none by rw [h.filling])
  rwa [h.filling] at hend

theorem offset_eq : step.progress.offset = p.offset + slotsWidth (slots.take n) :=
  congrArg Progress.offset h.progress_eq

theorem consumed_eq :
    base + step.progress.consumed = p.consumed + ((slots.take n).map (·.shape.taken)).sum :=
  congrArg Progress.consumed h.progress_eq

theorem eq_start (hn : n = 0) :
    step.store = s ∧ ⟨step.progress.offset, base + step.progress.consumed⟩ = p := by
  subst hn
  exact ⟨h.store, (congrArg Filling.progress h.filling).symm⟩

/-- What the step did is a run over the slots that it filled. -/
theorem filled : Filled order s target values (slots.take n) p step.store
    ⟨step.progress.offset, base + step.progress.consumed⟩ none := by
  rcases h.room with hn | hwithin
  · obtain ⟨hstore, hprogress⟩ := h.eq_start hn
    rw [hn, hstore, hprogress]
    exact .nil
  · have hrun := placeSlots_filled order target values (slots.take n) s p
      (by rw [← h.offset_eq]; exact hwithin)
    rwa [h.filling, ← h.store] at hrun

theorem offset_le : p.offset ≤ step.progress.offset ∧
    step.progress.offset ≤ max p.offset target.size := by
  have hoffset := h.offset_eq
  refine ⟨by omega, ?_⟩
  rcases h.room with hn | hwithin
  · have hstart := congrArg Progress.offset (h.eq_start hn).2
    exact hstart ▸ Nat.le_max_left _ _
  · exact Nat.le_trans hwithin (Nat.le_max_right _ _)

/-- The step changed nothing but the cells that its offset moved over. -/
theorem confined : s.Confined step.store (target.slice p.offset step.progress.offset) := by
  rcases h.room with hn | hwithin
  · rw [(h.eq_start hn).1]
    exact .refl s _
  · obtain ⟨data, hstore, hoffset, -⟩ := h.filled.patched
    simp only at hoffset
    rw [hstore, ← hoffset]
    exact s.confined_patch target (by rw [hoffset]; exact hwithin)

end Facts

end ItemPacked.Reached

namespace Item

/-- A run over elements stops at the first with nothing done, or it writes that and goes on behind
it, however many are to follow. -/
theorem packScalars_succ_cases (scalar : Scalar) (order : ByteOrder) (target : View) (count : Nat)
    (values : List Value) (s : Store) (p : Progress) :
    (∃ fault, (Shape.element scalar).Stops target p.offset values.head? fault ∧
      packScalars scalar order target (count + 1) values s p = ⟨s, p, some fault⟩) ∨
      ∃ value rest word field, values = value :: rest ∧
        scalar.encode? order s value = some word ∧
        target.field? p.offset scalar.width = some field ∧
        ∀ m, packScalars scalar order target (m + 1) values s p =
          packScalars scalar order target m rest (s.write field word)
            ⟨p.offset + scalar.width, p.consumed + 1⟩ := by
  cases values with
  | nil => exact .inl ⟨_, .own rfl, rfl⟩
  | cons value rest =>
      cases hword : scalar.encode? order s value with
      | none =>
          have haccepts := scalar.isSome_encode? order s value
          rw [hword] at haccepts
          have hrefused : (Shape.element scalar).accepts value = false := haccepts.symm
          have hfault : (Shape.element scalar).fault? (some value) = some .invalidArgument := by
            simp [Shape.fault?, hrefused]
          exact .inl ⟨_, .own hfault, by simp only [packScalars, hword]⟩
      | some word =>
          cases hfield : target.field? p.offset scalar.width with
          | none =>
              have hnone : (Shape.element scalar).fault? (some value) = none := by
                rw [Shape.fault?_eq_none_iff _ order s, Shape.encode?, hword]
                rfl
              have hroom := (View.field?_eq_none_iff _ _ _).mp hfield
              exact .inl ⟨_, .room hnone hroom, by simp only [packScalars, hword, hfield]⟩
          | some field =>
              refine .inr ⟨value, rest, word, field, rfl, hword, rfl, ?_⟩
              intro m
              simp only [packScalars, hword, hfield]

/-- Elements fill one slot each, and the first that stops them stops them all. -/
theorem packScalars_reached (order : ByteOrder) (target : View) (values : List Value) (item : Item)
    (scalar : Scalar) (base count : Nat) (s : Store) (p : Progress) :
    ∃ n, (packScalars scalar order target count (values.drop (base + p.consumed)) s p).Reached
      order s target values base (List.replicate count ⟨item, .element scalar⟩)
      ⟨p.offset, base + p.consumed⟩ n := by
  induction count generalizing s p with
  | zero => exact ⟨0, .nil⟩
  | succ count ih =>
      rw [List.replicate_succ]
      obtain ⟨fault, hstops, hstop⟩ | ⟨value, rest, word, field, hnext, hword, hfield, hstep⟩ :=
        packScalars_succ_cases scalar order target count (values.drop (base + p.consumed)) s p
      · rw [List.head?_drop] at hstops
        rw [hstop]
        exact ⟨0, .stop hstops⟩
      · obtain ⟨rfl, hroom⟩ := View.eq_slice_of_field hfield
        obtain ⟨n, hreached⟩ := ih (s.write _ word) ⟨p.offset + scalar.width, p.consumed + 1⟩
        rw [← Nat.add_assoc, drop_succ_of_drop_eq_cons hnext, ← hstep] at hreached
        refine ⟨n + 1, .cons hroom ?_ hreached⟩
        rw [getElem?_of_drop_eq_cons hnext, Shape.place?, hword]
        rfl

/-- A text field is a single slot. -/
theorem packText_reached {order : ByteOrder} {target : View} {values : List Value} (slot : Slot)
    (s : Store) (p : Progress) {place : View → View → Store} (htaken : slot.shape.taken = 1)
    (hnone : slot.shape.fault? none = some .notEnoughValues)
    (hsome : ∀ value, slot.shape.fault? (some value) =
      if value.isText then none else some .invalidArgument)
    (hplace : ∀ field value, slot.shape.place? order s field (some value) =
      value.view?.map fun text => place text field) :
    ∃ n, (packText target slot.shape.width (values.drop p.consumed) s p.offset place).Reached
      order s target values p.consumed [slot] p n := by
  cases hnext : values.drop p.consumed with
  | nil =>
      have hend : values[p.consumed]? = none :=
        List.getElem?_eq_none (List.drop_eq_nil_iff.mp hnext)
      exact ⟨0, .stop (p := ⟨p.offset, 0⟩) (.own (by rw [Nat.add_zero, hend, hnone]))⟩
  | cons value rest =>
      have hvalue := getElem?_of_drop_eq_cons hnext
      have hisText := value.isSome_view?
      simp only [packText]
      cases hview : value.view? with
      | none =>
          rw [hview] at hisText
          refine ⟨0, .stop (p := ⟨p.offset, 0⟩) (.own ?_)⟩
          rw [Nat.add_zero, hvalue, hsome, ← hisText]
          rfl
      | some text =>
          cases hfield : target.field? p.offset slot.shape.width with
          | none =>
              rw [hview] at hisText
              refine ⟨0, .stop (p := ⟨p.offset, 0⟩)
                (.room ?_ ((View.field?_eq_none_iff _ _ _).mp hfield))⟩
              rw [Nat.add_zero, hvalue, hsome, ← hisText]
              rfl
          | some field =>
              obtain ⟨rfl, hroom⟩ := View.eq_slice_of_field hfield
              have hplaced := hplace (target.slice p.offset (p.offset + slot.shape.width)) value
              rw [hview, ← hvalue] at hplaced
              refine ⟨1, .cons hroom hplaced ?_⟩
              rw [htaken]
              exact .nil (p := ⟨p.offset + slot.shape.width, 1⟩)

/-- Packing an item fills its slots up to the first that stops it. -/
theorem pack_reached (item : Item) (order : ByteOrder) (s : Store) (target : View)
    (values : List Value) (p : Progress) :
    ∃ n, (item.pack order target (values.drop p.consumed) s p.offset).Reached order s target values
      p.consumed item.slots p n := by
  cases hkind : item.kind? with
  | none =>
      simp only [pack, slots, hkind]
      exact ⟨0, .stop (p := ⟨p.offset, 0⟩) (.own rfl)⟩
  | some code =>
      cases code with
      | pad =>
          simp only [pack, slots, hkind, packPad]
          cases hfield : target.field? p.offset item.count with
          | none =>
              exact ⟨0, .stop (p := ⟨p.offset, 0⟩)
                (.room rfl ((View.field?_eq_none_iff _ _ _).mp hfield))⟩
          | some field =>
              obtain ⟨rfl, hroom⟩ := View.eq_slice_of_field hfield
              exact ⟨1, .cons hroom rfl (.nil (p := ⟨p.offset + item.count, 0⟩))⟩
      | scalar scalar =>
          simp only [pack, slots, hkind]
          exact packScalars_reached order target values item scalar p.consumed item.count s
            ⟨p.offset, 0⟩
      | string =>
          simp only [pack, slots, hkind]
          exact packText_reached ⟨item, .string item.count⟩ s p rfl rfl (fun _ => rfl)
            fun _ _ => rfl
      | counted =>
          simp only [pack, slots, hkind]
          exact packText_reached ⟨item, .counted item.count⟩ s p rfl rfl (fun _ => rfl)
            fun _ _ => rfl

end Item

end PackedRecord
