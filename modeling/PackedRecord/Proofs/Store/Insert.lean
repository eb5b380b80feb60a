import PackedRecord.Proofs.Value.Shown

/-!
New blocks.

A new view shows the data it was made from. It shares no cell with any view
that stood before, and those show what they showed. So a value can be replaced
by a copy in a new block: it is alike, and shares nothing.
-/

namespace PackedRecord

namespace Store

/-- The cells of a view in a store belong to a block that the store has. -/
theorem block_lt_of_covers {s : Store} {v : View} {b i : Nat} (hv : s.Valid v)
    (h : v.Covers b i) : b < s.blocks.length := by
  obtain ⟨rfl, -, hi⟩ := h
  by_cases hb : v.block < s.blocks.length
  · exact hb
  · rw [Valid, block] at hv
    rw [List.getD_eq_getElem?_getD, List.getElem?_eq_none (Nat.le_of_not_lt hb)] at hv
    simp only [Option.getD_none, List.length_nil] at hv
    omega

theorem block_append {s : Store} (data : Bytes) {b : Nat} (h : b < s.blocks.length) :
    (Store.mk (s.blocks ++ [data])).block b = s.block b := by
  simp only [block, List.getD_eq_getElem?_getD, List.getElem?_append_left h]

section New

variable (s : Store) (data : Bytes)

theorem size_insert : (s.insert data).2.size = data.length := by
  cases data with
  | nil => rfl
  | cons b bs => rfl

theorem valid_insert : (s.insert data).1.Valid (s.insert data).2 := by
  cases data with
  | nil => exact Nat.zero_le _
  | cons b bs => simp [insert, Valid, block]

theorem bytes_insert : (s.insert data).1.bytes (s.insert data).2 = data := by
  cases data with
  | nil => exact List.take_zero
  | cons b bs => simp [insert, bytes, block]

/-- A block keeps its cells; one that was not there had none. -/
theorem block_insert (b : Nat) : s.block b = [] ∨ (s.insert data).1.block b = s.block b := by
  by_cases hb : b < s.blocks.length
  · right
    cases data with
    | nil => rfl
    | cons c cs => exact block_append (c :: cs) hb
  · left
    rw [block, List.getD_eq_getElem?_getD, List.getElem?_eq_none (Nat.le_of_not_lt hb)]
    rfl

variable {s} {v : View} (hv : s.Valid v)
include hv

theorem apart_insert : v.Apart (s.insert data).2 := by
  intro b i hcovers hnew
  have hlt := block_lt_of_covers hv hcovers
  cases data with
  | nil => exact Nat.not_lt_of_le hnew.2.1 hnew.2.2
  | cons c cs =>
      have hb : b = s.blocks.length := hnew.1
      omega

theorem bytes_insert_of_valid : (s.insert data).1.bytes v = s.bytes v := by
  cases s.block_insert data v.block with
  | inl h =>
      rw [Valid] at hv
      rw [h, List.length_nil] at hv
      have hsize : v.size = 0 := by omega
      simp [bytes, hsize]
  | inr h => simp only [bytes, h]

theorem valid_insert_of_valid : (s.insert data).1.Valid v := by
  rw [Valid] at hv ⊢
  cases s.block_insert data v.block with
  | inl h =>
      rw [h, List.length_nil] at hv
      omega
  | inr h => rwa [h]

end New

/-- What stands in a store stands in another as well, and shows the same there. -/
structure Extends (s t : Store) : Prop where
  valid : ∀ v, s.Valid v → t.Valid v
  bytes : ∀ v, s.Valid v → t.bytes v = s.bytes v

theorem extends_insert (s : Store) (data : Bytes) : s.Extends (s.insert data).1 :=
  ⟨fun _ h => valid_insert_of_valid data h, fun _ h => bytes_insert_of_valid data h⟩

namespace Extends

variable {s t u : Store}

theorem refl (s : Store) : s.Extends s :=
  ⟨fun _ h => h, fun _ _ => rfl⟩

theorem trans (h : s.Extends t) (hnext : t.Extends u) : s.Extends u := by
  refine ⟨fun v hv => hnext.valid v (h.valid v hv), ?_⟩
  intro v hv
  rw [hnext.bytes v (h.valid v hv), h.bytes v hv]

theorem alike (h : s.Extends t) {value : Value} (hvalue : value.Valid s) :
    value.Alike s t value := by
  cases value with
  | bytes v => exact ⟨hvalue, h.valid v hvalue, congrArg Shown.bytes (h.bytes v hvalue)⟩
  | absent | bool _ | int _ | uint _ | real _ => exact ⟨trivial, trivial, rfl⟩

theorem forall_alike (h : s.Extends t) {values : List Value}
    (hvalues : ∀ value ∈ values, value.Valid s) :
    List.Forall₂ (Value.Alike s t) values values :=
  List.forall₂_same.mpr fun value hvalue => h.alike (hvalues value hvalue)

end Extends

/-- Values of a store are foreign to what is new in it. -/
theorem foreign_insert {s : Store} {values : List Value} (data : Bytes)
    (h : ∀ value ∈ values, value.Valid s) :
    (s.insert data).1.Foreign (s.insert data).2 values := by
  intro value hvalue
  have hvalid := h value hvalue
  refine ⟨((s.extends_insert data).alike hvalid).right, ?_⟩
  cases value with
  | bytes v => exact apart_insert data hvalid
  | absent | bool _ | int _ | uint _ | real _ => trivial

/-- A copy of a value, with its bytes in a block of their own. -/
def detach (s : Store) : Value → Store × Value
  | .bytes v =>
      let (t, copy) := s.insert (s.bytes v)
      (t, .bytes copy)
  | value => (s, value)

def detachAll (s : Store) : List Value → Store × List Value
  | [] => (s, [])
  | value :: values =>
      let (t, copy) := s.detach value
      let (u, copies) := t.detachAll values
      (u, copy :: copies)

section Copies

variable {s : Store} {buffer : View}

theorem extends_detach (s : Store) (value : Value) : s.Extends (s.detach value).1 := by
  cases value with
  | bytes v => exact s.extends_insert _
  | absent | bool _ | int _ | uint _ | real _ => exact .refl s

theorem alike_detach {value : Value} (h : value.Valid s) :
    value.Alike s (s.detach value).1 (s.detach value).2 := by
  cases value with
  | bytes v => exact ⟨h, s.valid_insert _, congrArg Shown.bytes (s.bytes_insert _)⟩
  | absent | bool _ | int _ | uint _ | real _ => exact ⟨trivial, trivial, rfl⟩

theorem apart_detach (h : s.Valid buffer) (value : Value) : (s.detach value).2.Apart buffer := by
  cases value with
  | bytes v => exact fun b i hcopy hbuffer => apart_insert (s.bytes v) h b i hbuffer hcopy
  | absent | bool _ | int _ | uint _ | real _ => trivial

theorem extends_detachAll (s : Store) (values : List Value) : s.Extends (s.detachAll values).1 := by
  induction values generalizing s with
  | nil => exact .refl s
  | cons value values ih => exact (s.extends_detach value).trans (ih _)

/-- Copies made in a later store show what the values showed. -/
theorem Extends.alike_detachAll {t : Store} (h : s.Extends t) {values : List Value}
    (hvalues : ∀ value ∈ values, value.Valid s) :
    List.Forall₂ (Value.Alike s (t.detachAll values).1) values (t.detachAll values).2 := by
  induction values generalizing t with
  | nil => exact .nil
  | cons value values ih =>
      have hvalue := h.alike (hvalues value List.mem_cons_self)
      have hcopy := alike_detach hvalue.right
      have hrest := extends_detachAll (t.detach value).1 values
      refine .cons ((hvalue.trans hcopy).trans (hrest.alike hcopy.right)) ?_
      exact ih (h.trans (t.extends_detach value)) fun other hother =>
        hvalues other (List.mem_cons_of_mem _ hother)

/-- Copies stand apart from everything that was there before. -/
theorem foreign_detachAll (hbuffer : s.Valid buffer) {values : List Value}
    (hvalues : ∀ value ∈ values, value.Valid s) :
    (s.detachAll values).1.Foreign buffer (s.detachAll values).2 := by
  induction values generalizing s with
  | nil => exact fun _ h => absurd h List.not_mem_nil
  | cons value values ih =>
      have hstep := s.extends_detach value
      have hrest := extends_detachAll (s.detach value).1 values
      intro copy hcopy
      rcases List.mem_cons.mp hcopy with rfl | hother
      · have hvalid := (alike_detach (hvalues value List.mem_cons_self)).right
        exact ⟨(hrest.alike hvalid).right, apart_detach hbuffer value⟩
      · refine ih (hstep.valid buffer hbuffer) ?_ copy hother
        intro other hmem
        exact (hstep.alike (hvalues other (List.mem_cons_of_mem _ hmem))).right

end Copies

end Store

end PackedRecord
