import PackedRecord.Proofs.Session.Confined
import PackedRecord.Store.Search

/-!
Search in a view.

A pattern occurs at a place if its bytes stand there one by one, the last of them
still in the text. The search tries the places from its start on and stops at the
first at which the pattern occurs; that it gives up early where too little is left
loses none, since a pattern that is not empty occurs at no such place.
-/

namespace PackedRecord

namespace Bytes

/-- The pattern stands in the text at a place. -/
def OccursAt (text pattern : Bytes) (place : Nat) : Prop :=
  place + pattern.length ≤ text.length ∧ ∀ k < pattern.length, text[place + k]? = pattern[k]?

instance (text pattern : Bytes) (place : Nat) : Decidable (text.OccursAt pattern place) := by
  unfold OccursAt
  infer_instance

/-- The first place of a pattern from a start on, or none if it occurs at no place. -/
def IsFirst (text pattern : Bytes) (start : Nat) : Option Nat → Prop
  | some place => start ≤ place ∧ text.OccursAt pattern place ∧
      ∀ earlier, start ≤ earlier → earlier < place → ¬text.OccursAt pattern earlier
  | none => ∀ place, start ≤ place → ¬text.OccursAt pattern place

section Search

variable {text pattern : Bytes} {start : Nat}

/-- A place behind one at which the pattern does not occur. -/
theorem IsFirst.of_succ {found : Option Nat} (hstart : ¬text.OccursAt pattern start)
    (h : text.IsFirst pattern (start + 1) found) : text.IsFirst pattern start found := by
  have hskip {place : Nat} (hle : start ≤ place) (hoccurs : text.OccursAt pattern place) :
      start + 1 ≤ place := by
    refine Nat.lt_of_le_of_ne hle ?_
    rintro rfl
    exact hstart hoccurs
  cases found with
  | none => exact fun place hle hoccurs => h place (hskip hle hoccurs) hoccurs
  | some place =>
      obtain ⟨hle, hoccurs, hfirst⟩ := h
      refine ⟨Nat.le_of_succ_le hle, hoccurs, ?_⟩
      intro earlier hearlier hlt hother
      exact hfirst earlier (hskip hearlier hother) hlt hother

/-- There is only one answer to a search. -/
theorem IsFirst.unique {found other : Option Nat} (h : text.IsFirst pattern start found)
    (hother : text.IsFirst pattern start other) : found = other := by
  cases found with
  | none =>
      cases other with
      | none => rfl
      | some place => exact absurd hother.2.1 (h place hother.1)
  | some place =>
      cases other with
      | none => exact absurd h.2.1 (hother place h.1)
      | some place' =>
          rcases Nat.lt_trichotomy place place' with hlt | rfl | hlt
          · exact absurd h.2.1 (hother.2.2 place h.1 hlt)
          · rfl
          · exact absurd hother.2.1 (h.2.2 place' hother.1 hlt)

variable (hpattern : pattern ≠ [])
include hpattern

theorem occursAt_iff_prefix (place : Nat) :
    text.OccursAt pattern place ↔ pattern <+: text.drop place := by
  have hpos := List.length_pos_iff.mpr hpattern
  constructor
  · rintro ⟨-, hbytes⟩
    rw [List.prefix_iff_getElem?]
    intro k hk
    rw [List.getElem?_drop, hbytes k hk, List.getElem?_eq_getElem hk]
  · intro hprefix
    have hlength := hprefix.length_le
    rw [List.length_drop] at hlength
    refine ⟨by omega, ?_⟩
    intro k hk
    rw [← List.getElem?_drop, List.prefix_iff_getElem?.mp hprefix k hk,
      List.getElem?_eq_getElem hk]

/-- The search of what is left behind a place is the search of the text from there on. -/
theorem isFirst_findFrom {rest : Bytes} (hrest : text.drop start = rest) :
    text.IsFirst pattern start (findFrom pattern start rest) := by
  have hpos := List.length_pos_iff.mpr hpattern
  have hempty : pattern.isEmpty = false := List.isEmpty_eq_false_iff.mpr hpattern
  induction rest generalizing start with
  | nil =>
      rw [findFrom, hempty]
      have hend : text.length ≤ start := List.drop_eq_nil_iff.mp hrest
      exact fun place hle hoccurs => absurd hoccurs.1 (by omega)
  | cons b rest ih =>
      rw [findFrom]
      split
      case isTrue hprefix =>
        rw [List.isPrefixOf_iff_prefix, ← hrest, ← occursAt_iff_prefix hpattern] at hprefix
        exact ⟨Nat.le_refl _, hprefix, fun earlier hle hlt => absurd hlt (Nat.not_lt.mpr hle)⟩
      case isFalse hprefix =>
        rw [List.isPrefixOf_iff_prefix, ← hrest, ← occursAt_iff_prefix hpattern] at hprefix
        refine .of_succ hprefix (ih ?_)
        rw [← List.drop_drop, hrest, List.drop_one, List.tail_cons]

theorem isFirst_indexOf? (start : Nat) :
    text.IsFirst pattern start (text.indexOf? pattern start) := by
  have hpos := List.length_pos_iff.mpr hpattern
  have hempty : pattern.isEmpty = false := List.isEmpty_eq_false_iff.mpr hpattern
  rw [indexOf?, hempty]
  simp only [Bool.false_eq_true, if_false]
  split
  case isTrue hroom => exact fun place hle hoccurs => absurd hoccurs.1 (by omega)
  case isFalse => exact isFirst_findFrom hpattern rfl

end Search

end Bytes

namespace Session

/-- The first place of a pattern in a live view, from an index on. -/
def find (σ : Session) (i : Nat) (pattern : Bytes) (start : UInt64) : Option Nat :=
  (σ.store.bytes (σ.view i)).indexOf? pattern start.toNat

/-- A search in any live view, from any index on. An empty pattern is found where the search
begins, or at the end if that comes first. Any other pattern is found at a place exactly if it
is the first from the start on at which all its bytes stand within the view, and it
is not found exactly if there is no such place. -/
theorem find_first (actions : List Action) (i : Nat) (pattern : Bytes) (start : UInt64) :
    let σ := run actions
    let v := σ.view i
    let text := σ.store.bytes v
    text.length = v.size ∧
      (pattern = [] → σ.find i pattern start = some (min start.toNat v.size)) ∧
      (pattern ≠ [] →
        (∀ place, σ.find i pattern start = some place ↔
          start.toNat ≤ place ∧ text.OccursAt pattern place ∧
            ∀ earlier, start.toNat ≤ earlier → earlier < place →
              ¬text.OccursAt pattern earlier) ∧
        (σ.find i pattern start = none ↔
          ∀ place, start.toNat ≤ place → ¬text.OccursAt pattern place)) := by
  intro σ v text
  have hlength : text.length = v.size := Store.length_bytes ((sound_run actions).view i).valid
  refine ⟨hlength, ?_, ?_⟩
  · rintro rfl
    rw [← hlength]
    rfl
  · intro hpattern
    have hfound : text.IsFirst pattern start.toNat (σ.find i pattern start) :=
      Bytes.isFirst_indexOf? hpattern start.toNat
    have hiff (answer : Option Nat) :
        σ.find i pattern start = answer ↔ text.IsFirst pattern start.toNat answer :=
      ⟨fun h => h ▸ hfound, hfound.unique⟩
    exact ⟨fun place => hiff (some place), hiff none⟩

/-- A pattern whose beginning comes again within it, in a cut that ends where it ends, and a
search from behind its place and from behind the end. -/
theorem find_first_overlapping :
    let actions : List Action := [.make [0, 1, 1, 2, 1, 1, 2, 1, 2, 9] (by decide), .slice 0 1 9]
    let σ := run actions
    let pattern : Bytes := [1, 1, 2, 1, 2]
    pattern ≠ [] ∧ σ.find 1 pattern 0 = some 3 ∧ σ.find 1 pattern 4 = none ∧
      σ.find 1 [] 0xFFFFFFFFFFFFFFFF = some 8 := by
  intro actions σ pattern
  have hpattern : pattern ≠ [] := List.cons_ne_nil _ _
  have hlength : (σ.store.bytes (σ.view 1)).length = 8 := by decide
  obtain ⟨-, -, hfromStart⟩ := find_first actions 1 pattern 0
  obtain ⟨-, -, hfromBehind⟩ := find_first actions 1 pattern 4
  refine ⟨hpattern, ((hfromStart hpattern).1 3).mpr ?_, (hfromBehind hpattern).2.mpr ?_, ?_⟩
  · refine ⟨by decide, by decide, ?_⟩
    intro earlier _ hlt
    obtain rfl | rfl | rfl : earlier = 0 ∨ earlier = 1 ∨ earlier = 2 := by omega
    all_goals decide
  · intro place hle hoccurs
    have hfour : 4 ≤ place := hle
    have hroom : place + 5 ≤ (σ.store.bytes (σ.view 1)).length := hoccurs.1
    omega
  · exact ((find_first actions 1 [] 0xFFFFFFFFFFFFFFFF).2.1 rfl).trans (by decide)

end Session

end PackedRecord
