import PackedRecord.Proofs.Session.Logged
import PackedRecord.Proofs.Value.Printed

/-!
Equal values are interchangeable.

Equality is sameness of what values show, so it is an equivalence, with doubles
that are no numbers and views of any place included. What is done with a value
depends on what it shows alone: its text, its truth, the bytes that it is packed
as, and the message of a failure that names it. So packing cannot tell lists of
equal values apart, as long as none of them lies in the target.
-/

namespace PackedRecord

namespace Value

theorem equivalence_equal (s : Store) : Equivalence fun v w : Value => v.equal s w = true := by
  simp only [equal_iff_shown]
  exact ⟨fun _ => rfl, fun h => h.symm, fun h hnext => h.trans hnext⟩

theorem text_of_equal {s : Store} {v w : Value} (h : v.equal s w = true) : w.text s = v.text s := by
  rw [← text_shown, ← text_shown, (equal_iff_shown s v w).mp h]

theorem texts_of_equal {s : Store} {values others : List Value}
    (h : List.Forall₂ (fun v w => v.equal s w = true) values others) :
    others.map (·.text s) = values.map (·.text s) := by
  have htexts (vs : List Value) : vs.map (·.text s) = (vs.map (·.shown s)).map (·.text) := by
    rw [List.map_map]
    exact List.map_congr_left fun v _ => (v.text_shown s).symm
  rw [htexts, htexts, (forall_equal_iff_shown s values others).mp h]

/-- Equal values whose cells exist are alike. -/
theorem alike_of_equal {s : Store} {v w : Value} (hv : v.Valid s) (hw : w.Valid s)
    (h : v.equal s w = true) : Alike s s v w :=
  ⟨hv, hw, ((equal_iff_shown s v w).mp h).symm⟩

end Value

section Lists

variable {s : Store} {target : View} {values others : List Value}

theorem Store.Foreign.alike_of_equal (hvalues : s.Foreign target values)
    (hothers : s.Foreign target others)
    (h : List.Forall₂ (fun v w => v.equal s w = true) values others) :
    List.Forall₂ (Value.Alike s s) values others := by
  induction h with
  | nil => exact .nil
  | cons hequal _ ih =>
      obtain ⟨hv, hvs⟩ := List.forall_mem_cons.mp hvalues
      obtain ⟨hw, hws⟩ := List.forall_mem_cons.mp hothers
      exact .cons (Value.alike_of_equal hv.1 hw.1 hequal) (ih hvs hws)

/-- A patch of the target does not change the texts of foreign values. -/
theorem Store.Foreign.texts_patch (h : s.Foreign target values) {offset : Nat} {data : Bytes}
    (hfit : offset + data.length ≤ target.size) :
    values.map (·.text (s.patch target.block (target.offset + offset) data)) =
      values.map (·.text s) := by
  apply List.map_congr_left
  intro value hvalue
  rw [← Value.text_shown, value.shown_patch (h value hvalue).2 hfit, Value.text_shown]

theorem packFailure_of_texts (h : others.map (·.text s) = values.map (·.text s)) (item : Item)
    (consumed : Nat) (fault : Fault) :
    packFailure item others s consumed fault = packFailure item values s consumed fault := by
  have hshown : others[consumed]?.map (·.text s) = values[consumed]?.map (·.text s) := by
    rw [← List.getElem?_map, ← List.getElem?_map, h]
  cases fault with
  | core e => rfl
  | pack e =>
      cases e with
      | invalidArgument => exact congrArg (Failure.invalidValue item consumed) hshown
      | invalidFormat | bufferTooSmall | notEnoughValues | unknownFormat | lengthOverflow => rfl

end Lists

attribute [ext] Packed

namespace Format

variable {format : Format} {s : Store} {target : View} {values others : List Value}

theorem plan_of_alike (h : List.Forall₂ (Value.Alike s s) values others) :
    format.plan others = format.plan values :=
  fillSlots_of_alike h (slotsOf format.items) ⟨0, 0⟩

section Fits

variable (hfits : (checkCapacity format.items target.size).2 = none)
  (hvalues : s.Foreign target values) (hothers : s.Foreign target others)
  (h : List.Forall₂ (fun v w => v.equal s w = true) values others)
include hfits hvalues hothers h

theorem store_packInto_of_equal :
    (format.packInto s target others).store = (format.packInto s target values).store := by
  obtain ⟨data, hstore, -, hdata⟩ := (packInto_ran hfits s values).patched
  obtain ⟨again, hagain, -, hsame⟩ := (packInto_ran hfits s others).patched
  rw [hstore, hagain, hdata hvalues, hsame hothers,
    slotBytes_of_alike _ (hvalues.alike_of_equal hothers h)]

/-- The message of a failure shows a value as it stands after the run. -/
theorem failure_packInto_of_equal :
    (format.packInto s target others).failure = (format.packInto s target values).failure := by
  have hleft := packInto_ran hfits s values
  have hright := packInto_ran hfits s others
  obtain ⟨data, hstore, hlength, -⟩ := hleft.patched
  have hfit : 0 + data.length ≤ target.size := by
    have hroom := (checkCapacity_of_fits hfits).2.1
    have hle := hleft.written_le
    omega
  have htexts : others.map (·.text (format.packInto s target values).store) =
      values.map (·.text (format.packInto s target values).store) := by
    rw [hstore]
    exact (hothers.texts_patch hfit).trans
      ((Value.texts_of_equal h).trans (hvalues.texts_patch hfit).symm)
  rw [hleft.failure, hright.failure, plan_of_alike (hvalues.alike_of_equal hothers h),
    store_packInto_of_equal hfits hvalues hothers h]
  simp only [packFailure_of_texts htexts]

end Fits

/-- Packing lists of equal values has the same outcome, store and log included. -/
theorem packInto_of_equal (format : Format) (hvalues : s.Foreign target values)
    (hothers : s.Foreign target others)
    (h : List.Forall₂ (fun v w => v.equal s w = true) values others) :
    format.packInto s target others = format.packInto s target values := by
  cases hcheck : (checkCapacity format.items target.size).2 with
  | some failure => rw [packInto_of_refused hcheck, packInto_of_refused hcheck]
  | none =>
      have hleft := packInto_ran hcheck s values
      have hright := packInto_ran hcheck s others
      have hfailure := failure_packInto_of_equal hcheck hvalues hothers h
      apply Packed.ext
      · exact store_packInto_of_equal hcheck hvalues hothers h
      · rw [hleft.buffer, hright.buffer]
      · rw [hleft.extent, hright.extent]
      · rw [hleft.written, hright.written, plan_of_alike (hvalues.alike_of_equal hothers h)]
      · exact hfailure
      · rw [log_packInto, log_packInto, hfailure, h.length_eq]

end Format

theorem Layout.packInto_of_equal {s : Store} {target : View} {values others : List Value}
    (layout : Layout) (hvalues : s.Foreign target values) (hothers : s.Foreign target others)
    (h : List.Forall₂ (fun v w => v.equal s w = true) values others) :
    layout.packInto s target others = layout.packInto s target values := by
  cases layout with
  | items format => exact format.packInto_of_equal hvalues hothers h
  | text written =>
      rw [packInto, packInto, PackedRecord.packInto, PackedRecord.packInto, Format.ofText]
      cases Format.parse written with
      | error e => rfl
      | ok format => exact format.packInto_of_equal hvalues hothers h

/-- Equality of values is an equivalence, and equal values can stand for each other: they
have the same text and the same truth, and packing a list of them that shares no
cell with the target has the same outcome: the same numbers, failure and log, and
the same bytes everywhere. -/
theorem Value.equal_congruence (s : Store) :
    (Equivalence fun v w : Value => v.equal s w = true) ∧
      (∀ v w : Value, v.equal s w = true → w.text s = v.text s) ∧
      (∀ v w : Value, v.Valid s → w.Valid s → v.equal s w = true → w.truthy = v.truthy) ∧
      ∀ (layout : Layout) (target : View) (values others : List Value),
        s.Foreign target values → s.Foreign target others →
        List.Forall₂ (fun v w => v.equal s w = true) values others →
        layout.packInto s target others = layout.packInto s target values := by
  refine ⟨equivalence_equal s, ?_, ?_, ?_⟩
  · intro v w h
    exact text_of_equal h
  · intro v w hv hw h
    exact (alike_of_equal hv hw h).truthy
  · intro layout target values others hvalues hothers h
    exact layout.packInto_of_equal hvalues hothers h

/-- A text, a number that is none, a text taken for its truth and a text where a number
should be, once from one block and once from another. -/
theorem Value.equal_congruence_two_blocks :
    let s : Store := ⟨[[65, 92], [0, 65, 92], [7, 7, 7, 7, 7, 7, 7]]⟩
    let layout := Layout.text (Bytes.ofChars ['2', 's', 'e', '?', 'b'])
    let target : View := ⟨2, 1, 6⟩
    let nan := Value.real ⟨0x7FF8000000000001⟩
    let values := [.bytes ⟨0, 0, 2⟩, nan, .bytes ⟨0, 0, 1⟩, .bytes ⟨0, 1, 1⟩]
    let others := [.bytes ⟨1, 1, 2⟩, nan, .bytes ⟨1, 1, 1⟩, .bytes ⟨1, 2, 1⟩]
    layout.packInto s target others = layout.packInto s target values ∧
      (layout.packInto s target others).failure =
        some (.invalidValue ⟨1, 'b'.toUInt8⟩ 3 (some (Bytes.quoted [92]))) ∧
      (layout.packInto s target others).store.bytes ⟨2, 0, 7⟩ = [7, 65, 92, 0, 126, 1, 7] := by
  intro s layout target nan values others
  have hforeign (b : Nat) (hb : b ≠ 2) (vs : List Value)
      (h : ∀ value ∈ vs, value = nan ∨ ∃ v : View, value = .bytes v ∧ s.Valid v ∧ v.block = b) :
      s.Foreign target vs := by
    intro value hvalue
    rcases h value hvalue with rfl | ⟨v, rfl, hvalid, rfl⟩
    · exact ⟨trivial, trivial⟩
    · exact ⟨hvalid, fun _ _ hcovers htarget => hb (hcovers.1.symm.trans htarget.1)⟩
  have hvalues : s.Foreign target values := by
    apply hforeign 0 (by decide)
    simp [values, s, Store.Valid, Store.block]
  have hothers : s.Foreign target others := by
    apply hforeign 1 (by decide)
    simp [others, s, Store.Valid, Store.block]
  have hequal : List.Forall₂ (fun v w : Value => v.equal s w = true) values others :=
    (forall_equal_iff_shown s values others).mpr (by decide)
  have hsame := (equal_congruence s).2.2.2 layout target values others hvalues hothers hequal
  refine ⟨hsame, ?_, ?_⟩
  all_goals
    rw [hsame]
    decide

end PackedRecord
