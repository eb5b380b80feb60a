import PackedRecord.Proofs.Field.Place

/-!
Filling slots.

`fillSlots` says how far packing gets and why it stops, and `slotBytes` what it
leaves behind; neither looks at the target. `Filled` states that a run did just
that: the place it reached, the fault it ended with, and a single patch of the
target that ends where the run did. Runs over neighbouring slots compose.
-/

namespace PackedRecord

/-- The place that a run over slots reaches, and the slot that stops it. -/
structure Filling where
  progress : Progress
  stopped : Option (Slot × PackError)
  deriving DecidableEq, Repr

def fillSlots (values : List Value) : List Slot → Progress → Filling
  | [], p => ⟨p, none⟩
  | slot :: slots, p =>
      match slot.shape.fault? values[p.consumed]? with
      | some e => ⟨p, some (slot, e)⟩
      | none =>
          fillSlots values slots
            ⟨p.offset + slot.shape.width, p.consumed + slot.shape.taken⟩

/-- The bytes of slots up to the first that cannot be filled. -/
def slotBytes (order : ByteOrder) (s : Store) (values : List Value) :
    List Slot → (consumed : Nat) → Bytes
  | [], _ => []
  | slot :: slots, consumed =>
      match slot.shape.encode? order s values[consumed]? with
      | none => []
      | some data => data ++ slotBytes order s values slots (consumed + slot.shape.taken)

/-- The bytes that slots take up. -/
def slotsWidth (slots : List Slot) : Nat :=
  (slots.map (·.shape.width)).sum

theorem slotsWidth_append (xs ys : List Slot) :
    slotsWidth (xs ++ ys) = slotsWidth xs + slotsWidth ys := by
  simp [slotsWidth]

section Plan

variable {values : List Value}

theorem fillSlots_cons_of_fault {slot : Slot} {p : Progress} {e : PackError}
    (h : slot.shape.fault? values[p.consumed]? = some e) (slots : List Slot) :
    fillSlots values (slot :: slots) p = ⟨p, some (slot, e)⟩ := by
  simp only [fillSlots, h]

theorem fillSlots_cons_of_none {slot : Slot} {p : Progress}
    (h : slot.shape.fault? values[p.consumed]? = none) (slots : List Slot) :
    fillSlots values (slot :: slots) p =
      fillSlots values slots
        ⟨p.offset + slot.shape.width, p.consumed + slot.shape.taken⟩ := by
  simp only [fillSlots, h]

/-- Slots behind filled ones begin where those ended, and behind one that stops
the run they do not matter. -/
theorem fillSlots_append (values : List Value) (xs ys : List Slot) (p : Progress) :
    fillSlots values (xs ++ ys) p =
      if (fillSlots values xs p).stopped = none then
        fillSlots values ys (fillSlots values xs p).progress
      else fillSlots values xs p := by
  induction xs generalizing p with
  | nil => rfl
  | cons slot xs ih =>
      rw [List.cons_append]
      cases hf : slot.shape.fault? values[p.consumed]? with
      | some e =>
          rw [fillSlots_cons_of_fault hf, fillSlots_cons_of_fault hf]
          rfl
      | none => rw [fillSlots_cons_of_none hf, fillSlots_cons_of_none hf, ih]

/-- A run stays within the slots. -/
theorem offset_fillSlots_le (values : List Value) (slots : List Slot) (p : Progress) :
    (fillSlots values slots p).progress.offset ≤ p.offset + slotsWidth slots := by
  induction slots generalizing p with
  | nil => exact Nat.le_refl _
  | cons slot slots ih =>
      cases hf : slot.shape.fault? values[p.consumed]? with
      | some e =>
          rw [fillSlots_cons_of_fault hf]
          exact Nat.le_add_right _ _
      | none =>
          rw [fillSlots_cons_of_none hf]
          have hnext := ih ⟨p.offset + slot.shape.width, p.consumed + slot.shape.taken⟩
          simp only [slotsWidth, List.map_cons, List.sum_cons] at hnext ⊢
          omega

/-- A run that nothing stops reaches the end of the slots, and takes a value for
every slot that takes one. -/
theorem progress_fillSlots (slots : List Slot) (p : Progress)
    (h : (fillSlots values slots p).stopped = none) :
    (fillSlots values slots p).progress =
      ⟨p.offset + slotsWidth slots, p.consumed + (slots.map (·.shape.taken)).sum⟩ := by
  induction slots generalizing p with
  | nil => rfl
  | cons slot slots ih =>
      cases hf : slot.shape.fault? values[p.consumed]? with
      | some e =>
          rw [fillSlots_cons_of_fault hf] at h
          contradiction
      | none =>
          rw [fillSlots_cons_of_none hf] at h ⊢
          rw [ih _ h]
          simp only [slotsWidth, List.map_cons, List.sum_cons, Nat.add_assoc]

variable (order : ByteOrder) (s : Store)

theorem slotBytes_cons_of_fault {slot : Slot} {n : Nat} {e : PackError}
    (h : slot.shape.fault? values[n]? = some e) (slots : List Slot) :
    slotBytes order s values (slot :: slots) n = [] := by
  have hnone : slot.shape.encode? order s values[n]? = none := by
    rw [← Option.not_isSome_iff_eq_none, ← Shape.fault?_eq_none_iff, h]
    simp
  simp only [slotBytes, hnone]

theorem exists_slotBytes_cons {slot : Slot} {n : Nat}
    (h : slot.shape.fault? values[n]? = none) :
    ∃ data, slot.shape.encode? order s values[n]? = some data ∧
      data.length = slot.shape.width ∧
      ∀ slots, slotBytes order s values (slot :: slots) n =
        data ++ slotBytes order s values slots (n + slot.shape.taken) := by
  obtain ⟨data, hdata⟩ := Option.isSome_iff_exists.mp
    ((Shape.fault?_eq_none_iff slot.shape order s values[n]?).mp h)
  refine ⟨data, hdata, Shape.length_encode? hdata, ?_⟩
  intro slots
  simp only [slotBytes, hdata]

theorem slotBytes_append (values : List Value) (xs ys : List Slot) (p : Progress) :
    slotBytes order s values (xs ++ ys) p.consumed =
      slotBytes order s values xs p.consumed ++
        if (fillSlots values xs p).stopped = none then
          slotBytes order s values ys (fillSlots values xs p).progress.consumed
        else [] := by
  induction xs generalizing p with
  | nil => rfl
  | cons slot xs ih =>
      rw [List.cons_append]
      cases hf : slot.shape.fault? values[p.consumed]? with
      | some e =>
          rw [slotBytes_cons_of_fault order s hf, slotBytes_cons_of_fault order s hf,
            fillSlots_cons_of_fault hf]
          rfl
      | none =>
          obtain ⟨data, -, -, hcons⟩ := exists_slotBytes_cons order s hf
          have hrest := ih ⟨p.offset + slot.shape.width, p.consumed + slot.shape.taken⟩
          rw [hcons, hcons, fillSlots_cons_of_none hf, List.append_assoc]
          exact congrArg (data ++ ·) hrest

/-- Slots are filled from the first of the values that are left. -/
theorem slotBytes_drop (values : List Value) (slots : List Slot) (n : Nat) :
    slotBytes order s values slots n = slotBytes order s (values.drop n) slots 0 := by
  induction slots generalizing values n with
  | nil => rfl
  | cons slot slots ih =>
      simp only [slotBytes, List.getElem?_drop, Nat.add_zero, Nat.zero_add]
      rw [ih values, ih (values.drop n), List.drop_drop]

theorem getElem?_alike {s t : Store} {vs ws : List Value}
    (h : List.Forall₂ (Value.Alike s t) vs ws) (n : Nat) :
    Option.Rel (Value.Alike s t) vs[n]? ws[n]? := by
  induction h generalizing n with
  | nil => exact .none
  | cons hvalue hrest ih =>
      cases n with
      | zero => exact .some hvalue
      | succ n => exact ih n

/-- Values that are alike fill slots alike. -/
theorem slotBytes_of_alike {s t : Store} {vs ws : List Value}
    (h : List.Forall₂ (Value.Alike s t) vs ws) (slots : List Slot) (n : Nat) :
    slotBytes order t ws slots n = slotBytes order s vs slots n := by
  induction slots generalizing n with
  | nil => rfl
  | cons slot slots ih =>
      have hencode := slot.shape.encode?_of_alike order (getElem?_alike h n)
      simp only [slotBytes, hencode, ih]

/-- Values that are alike get packing equally far. -/
theorem fillSlots_of_alike {s t : Store} {vs ws : List Value}
    (h : List.Forall₂ (Value.Alike s t) vs ws) (slots : List Slot) (p : Progress) :
    fillSlots ws slots p = fillSlots vs slots p := by
  induction slots generalizing p with
  | nil => rfl
  | cons slot slots ih =>
      have hfault := slot.shape.fault?_of_alike (getElem?_alike h p.consumed)
      simp only [fillSlots, hfault, ih]

end Plan

/-- A run over slots did what the plan says: it reached the place, ended with
the fault, and patched the target up to that place, with the bytes of the slots
where the values are foreign to the target. -/
structure Filled (order : ByteOrder) (s : Store) (target : View) (values : List Value)
    (slots : List Slot) (p : Progress) (t : Store) (q : Progress) (f : Option Fault) :
    Prop where
  reached : q = (fillSlots values slots p).progress
  fault : f = (fillSlots values slots p).stopped.map fun stop => .pack stop.2
  patched : ∃ data, t = s.patch target.block (target.offset + p.offset) data ∧
    p.offset + data.length = q.offset ∧
    (s.Foreign target values → data = slotBytes order s values slots p.consumed)

namespace Filled

variable {order : ByteOrder} {s t u : Store} {target : View} {values : List Value}
  {xs ys : List Slot} {slot : Slot} {p q r : Progress} {fault : Option Fault}

theorem nil : Filled order s target values [] p s p none :=
  ⟨rfl, rfl, [], (Store.patch_nil s _ _).symm, rfl, fun _ => rfl⟩

theorem stop {e : PackError} (h : slot.shape.fault? values[p.consumed]? = some e) :
    Filled order s target values [slot] p s p (some (.pack e)) := by
  refine ⟨?_, ?_, [], (Store.patch_nil s _ _).symm, rfl, ?_⟩
  · rw [fillSlots_cons_of_fault h]
  · rw [fillSlots_cons_of_fault h]
    rfl
  · intro _
    rw [slotBytes_cons_of_fault order s h]

theorem single {data : Bytes} (h : slot.shape.fault? values[p.consumed]? = none)
    (hlength : data.length = slot.shape.width)
    (hdata : s.Foreign target values →
      slot.shape.encode? order s values[p.consumed]? = some data) :
    Filled order s target values [slot] p
      (s.patch target.block (target.offset + p.offset) data)
      ⟨p.offset + slot.shape.width, p.consumed + slot.shape.taken⟩ none := by
  refine ⟨?_, ?_, data, rfl, ?_, ?_⟩
  · rw [fillSlots_cons_of_none h]
    rfl
  · rw [fillSlots_cons_of_none h]
    rfl
  · rw [hlength]
  · intro hforeign
    obtain ⟨bytes, hbytes, -, hcons⟩ := exists_slotBytes_cons order s h
    rw [hdata hforeign] at hbytes
    rw [hcons, Option.some.inj hbytes]
    exact (List.append_nil bytes).symm

/-- Runs over neighbouring slots are one run. -/
theorem append (hx : Filled order s target values xs p t q none)
    (hy : Filled order t target values ys q u r fault) (hfit : q.offset ≤ target.size) :
    Filled order s target values (xs ++ ys) p u r fault := by
  have hnone : (fillSlots values xs p).stopped = none := Option.map_eq_none_iff.mp hx.fault.symm
  obtain ⟨d, ht, hd, hdx⟩ := hx.patched
  obtain ⟨e, hu, he, hey⟩ := hy.patched
  have hq := hx.reached
  refine ⟨?_, ?_, d ++ e, ?_, ?_, ?_⟩
  · rw [fillSlots_append, if_pos hnone, ← hq]
    exact hy.reached
  · rw [fillSlots_append, if_pos hnone, ← hq]
    exact hy.fault
  · rw [hu, ht, ← hd, ← Nat.add_assoc, Store.patch_patch_append]
  · rw [List.length_append]
    omega
  · intro hforeign
    have halike : List.Forall₂ (Value.Alike s t) values values := by
      rw [ht]
      exact Value.alike_patch hforeign (by omega)
    have hstill : t.Foreign target values := by
      intro value hvalue
      exact ⟨(List.forall₂_same.mp halike value hvalue).right, (hforeign value hvalue).2⟩
    rw [slotBytes_append, if_pos hnone, ← hq, hdx hforeign, hey hstill,
      slotBytes_of_alike order halike]

/-- A run that was stopped is a run over any further slots too. -/
theorem append_of_stopped {f : Fault} (hx : Filled order s target values xs p t q (some f)) :
    Filled order s target values (xs ++ ys) p t q (some f) := by
  have hsome : (fillSlots values xs p).stopped ≠ none := by
    intro hnone
    have hfault := hx.fault
    rw [hnone] at hfault
    contradiction
  obtain ⟨d, ht, hd, hdx⟩ := hx.patched
  refine ⟨?_, ?_, d, ht, hd, ?_⟩
  · rw [fillSlots_append, if_neg hsome]
    exact hx.reached
  · rw [fillSlots_append, if_neg hsome]
    exact hx.fault
  · rw [slotBytes_append, if_neg hsome, List.append_nil]
    exact hdx

end Filled

end PackedRecord
