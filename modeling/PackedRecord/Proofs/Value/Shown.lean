import Mathlib.Data.List.Forall2
import PackedRecord.Proofs.Store.Patch
import PackedRecord.Value.Convert

/-!
What values show.

A value of bytes is a view, so it stands for different bytes in different
stores. `Shown` is a value with its bytes in the place of the view: two values
are equal exactly when they show the same. Values that show the same, each in
its store, are alike to all that is done with them. A value whose cells no patch
meets shows the same before and after it.
-/

namespace PackedRecord

inductive Shown where
  | absent
  | bool (b : Bool)
  | int (n : Int64)
  | uint (n : UInt64)
  | real (x : Binary64)
  | bytes (bs : Bytes)
  deriving DecidableEq, Repr

/-- Two views without a common cell. -/
def View.Apart (v w : View) : Prop :=
  ∀ b i, v.Covers b i → ¬w.Covers b i

namespace Value

def shown (s : Store) : Value → Shown
  | absent => .absent
  | bool b => .bool b
  | int n => .int n
  | uint n => .uint n
  | real x => .real x
  | bytes v => .bytes (s.bytes v)

/-- The cells of a value all exist. -/
def Valid (s : Store) : Value → Prop
  | bytes v => s.Valid v
  | _ => True

instance (s : Store) (value : Value) : Decidable (value.Valid s) :=
  match value with
  | bytes v => inferInstanceAs (Decidable (s.Valid v))
  | absent | bool _ | int _ | uint _ | real _ => inferInstanceAs (Decidable True)

/-- A value without a cell of a view. -/
def Apart (target : View) : Value → Prop
  | bytes v => v.Apart target
  | _ => True

/-- The bytes that a text field takes from a value. -/
def content? (s : Store) (value : Value) : Option Bytes :=
  value.view?.map s.bytes

end Value

/-- Two values that show the same, each in a store that has its cells. -/
structure Value.Alike (s t : Store) (v w : Value) : Prop where
  left : v.Valid s
  right : w.Valid t
  shown : w.shown t = v.shown s

/-- Values that stand in a store apart from a view. -/
def Store.Foreign (s : Store) (target : View) (values : List Value) : Prop :=
  ∀ value ∈ values, value.Valid s ∧ value.Apart target

namespace Value

theorem equal_iff_shown (s : Store) (v w : Value) :
    v.equal s w = true ↔ v.shown s = w.shown s := by
  cases v <;> cases w <;> simp [equal, shown]
  case real x y =>
    constructor
    · intro h
      cases x
      cases y
      exact congrArg Binary64.mk h
    · intro h
      rw [h]

/-- Lists of values are equal one by one exactly when they show the same. -/
theorem forall_equal_iff_shown (s : Store) (vs ws : List Value) :
    List.Forall₂ (fun v w => v.equal s w = true) vs ws ↔
      vs.map (·.shown s) = ws.map (·.shown s) := by
  rw [← List.forall₂_eq_eq_eq, List.forall₂_map_left_iff, List.forall₂_map_right_iff]
  simp only [equal_iff_shown]

namespace Alike

variable {s t : Store} {v w : Value} (h : Alike s t v w)
include h

theorem eq_or_bytes :
    w = v ∨ ∃ x y, v = .bytes x ∧ w = .bytes y ∧ y.size = x.size ∧ t.bytes y = s.bytes x := by
  obtain ⟨hv, hw, hshown⟩ := h
  cases v with
  | bytes x =>
      cases w with
      | bytes y =>
          have hbytes : t.bytes y = s.bytes x := Shown.bytes.inj hshown
          have hsize := congrArg List.length hbytes
          rw [Store.length_bytes hv, Store.length_bytes hw] at hsize
          exact .inr ⟨x, y, rfl, rfl, hsize, hbytes⟩
      | absent | bool _ | int _ | uint _ | real _ => contradiction
  | absent | bool _ | int _ | uint _ | real _ =>
      left
      cases w <;> cases hshown
      rfl

theorem trans {u : Store} {x : Value} (hnext : Alike t u w x) : Alike s u v x :=
  ⟨h.left, hnext.right, hnext.shown.trans h.shown⟩

theorem content? : w.content? t = v.content? s := by
  have hshown := h.shown
  rcases h.eq_or_bytes with rfl | ⟨x, y, rfl, rfl, -, hbytes⟩
  · cases w with
    | bytes x => exact congrArg some (Shown.bytes.inj hshown)
    | absent => simp [Value.content?, view?, Store.bytes, View.empty]
    | bool _ | int _ | uint _ | real _ => rfl
  · exact congrArg some hbytes

theorem truthy : w.truthy = v.truthy := by
  rcases h.eq_or_bytes with rfl | ⟨x, y, rfl, rfl, hsize, -⟩
  · rfl
  · exact congrArg (· != 0) hsize

theorem integer? (size : IntSize) : w.integer? size = v.integer? size := by
  rcases h.eq_or_bytes with rfl | ⟨x, y, rfl, rfl, -, -⟩
  · rfl
  · cases size <;> rfl

theorem real? : w.real? = v.real? := by
  rcases h.eq_or_bytes with rfl | ⟨x, y, rfl, rfl, -, -⟩ <;> rfl

end Alike

/-- A patch within a view is not seen by values apart from the view. -/
theorem shown_patch {s : Store} {target : View} {offset : Nat} {data : Bytes} (value : Value)
    (h : value.Apart target) (hfit : offset + data.length ≤ target.size) :
    value.shown (s.patch target.block (target.offset + offset) data) = value.shown s := by
  cases value with
  | bytes v =>
      have hbytes : (s.patch target.block (target.offset + offset) data).bytes v = s.bytes v := by
        apply Store.bytes_patch_of_apart
        intro i hi hin
        exact h target.block i hi ⟨rfl, by omega, by omega⟩
      exact congrArg Shown.bytes hbytes
  | absent | bool _ | int _ | uint _ | real _ => rfl

theorem valid_patch {s : Store} {b start : Nat} {data : Bytes} {value : Value} :
    value.Valid (s.patch b start data) ↔ value.Valid s := by
  cases value with
  | bytes v => exact Store.valid_patch
  | absent | bool _ | int _ | uint _ | real _ => exact Iff.rfl

/-- A patch within a view makes no difference to values foreign to the view. -/
theorem alike_patch {s : Store} {target : View} {offset : Nat} {data : Bytes}
    {values : List Value} (h : s.Foreign target values)
    (hfit : offset + data.length ≤ target.size) :
    List.Forall₂ (Alike s (s.patch target.block (target.offset + offset) data)) values values := by
  apply List.forall₂_same.mpr
  intro value hvalue
  obtain ⟨hvalid, hapart⟩ := h value hvalue
  exact ⟨hvalid, valid_patch.mpr hvalid, value.shown_patch hapart hfit⟩

/-- The text of a value stands where the value does. -/
theorem view?_foreign {s : Store} {target text : View} (value : Value)
    (h : value.Valid s ∧ value.Apart target) (hview : value.view? = some text) :
    s.Valid text ∧ text.Apart target := by
  cases value with
  | bytes v =>
      obtain rfl : v = text := Option.some.inj hview
      exact h
  | absent =>
      obtain rfl : View.empty = text := Option.some.inj hview
      refine ⟨Nat.zero_le _, ?_⟩
      intro b i hcovers
      simp only [View.Covers, View.empty] at hcovers
      omega
  | bool _ | int _ | uint _ | real _ => contradiction

end Value

end PackedRecord
