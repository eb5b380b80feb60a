import PackedRecord.Format.Parser
import PackedRecord.Proofs.Field.Slot

/-!
Parsed formats.

A format that was read from a text has codes of the alphabet only, and each of
its counts is one that its code allows. So none of its slots is unknown, and a
counted text always has a length that one byte can hold.
-/

namespace PackedRecord

/-- An item that a text can describe. -/
def Item.Written (item : Item) : Prop :=
  ∃ code, item.kind? = some code ∧ ∃ written, code.count? written = some item.count

/-- A slot that a text can describe. -/
def Shape.Bounded : Shape → Prop
  | .counted width => width ≤ maxCountedWidth
  | .unknown => False
  | .pad _ | .element _ | .string _ => True

namespace Format

theorem written_of_readItems {written : Option Nat} {text : Bytes} {items : List Item}
    (h : readItems written text = .ok items) : ∀ item ∈ items, item.Written := by
  induction text generalizing written items with
  | nil =>
      cases written with
      | some n => contradiction
      | none =>
          obtain rfl := Except.ok.inj h
          intro item hitem
          contradiction
  | cons b rest ih =>
      simp only [readItems] at h
      split at h
      · exact ih h
      · split at h
        · contradiction
        · rename_i code hcode
          split at h
          · contradiction
          · rename_i count hcount
            cases hrest : readItems none rest with
            | error e =>
                rw [hrest] at h
                contradiction
            | ok others =>
                rw [hrest] at h
                obtain rfl := Except.ok.inj h
                intro item hitem
                rcases List.mem_cons.mp hitem with rfl | hother
                · exact ⟨code, hcode, _, hcount⟩
                · exact ih hrest item hother

theorem written_of_parse {text : Bytes} {format : Format} (h : parse text = .ok format) :
    ∀ item ∈ format.items, item.Written := by
  simp only [parse] at h
  split at h
  · contradiction
  · contradiction
  · rename_i items _ hread
    obtain rfl := Except.ok.inj h
    exact written_of_readItems hread

theorem parse_eq_ok_iff_readItems (text : Bytes) (format : Format) :
    parse text = .ok format ↔
      readItems none (splitMark text).2 = .ok format.items ∧ format.items ≠ [] ∧
        format.order = (splitMark text).1 := by
  rw [parse]
  cases hread : readItems none (splitMark text).2 with
  | error e => simp [hread]
  | ok items =>
      obtain ⟨order, others⟩ := format
      cases items with
      | nil =>
          simp only [hread, Except.ok.injEq]
          constructor
          · intro h
            contradiction
          · rintro ⟨rfl, hne, -⟩
            contradiction
      | cons item items =>
          simp only [hread, Except.ok.injEq, mk.injEq]
          constructor
          · rintro ⟨rfl, rfl⟩
            exact ⟨rfl, List.cons_ne_nil _ _, rfl⟩
          · rintro ⟨rfl, -, rfl⟩
            exact ⟨rfl, rfl⟩

end Format

theorem Item.Written.isSome {item : Item} (h : item.Written) : item.kind?.isSome := by
  obtain ⟨code, hkind, -⟩ := h
  rw [hkind]
  rfl

theorem Item.Written.bounded {item : Item} (h : item.Written) :
    ∀ slot ∈ item.slots, slot.shape.Bounded := by
  obtain ⟨code, hkind, written, hcount⟩ := h
  intro slot hslot
  cases code with
  | scalar scalar =>
      simp only [slots, hkind] at hslot
      rw [List.eq_of_mem_replicate hslot]
      trivial
  | pad | string =>
      simp only [slots, hkind, List.mem_singleton] at hslot
      rw [hslot]
      trivial
  | counted =>
      simp only [slots, hkind, List.mem_singleton] at hslot
      rw [hslot]
      have hmin : min written maxCountedWidth = item.count := Option.some.inj hcount
      exact hmin ▸ Nat.min_le_right _ _

theorem Format.isSome_kind?_of_parse {text : Bytes} {format : Format}
    (h : parse text = .ok format) : ∀ item ∈ format.items, item.kind?.isSome :=
  fun item hitem => (written_of_parse h item hitem).isSome

theorem Format.bounded_of_parse {text : Bytes} {format : Format}
    (h : parse text = .ok format) : ∀ slot ∈ slotsOf format.items, slot.shape.Bounded := by
  intro slot hslot
  obtain ⟨item, hitem, hmem⟩ := List.mem_flatMap.mp hslot
  exact (written_of_parse h item hitem).bounded slot hmem

end PackedRecord
