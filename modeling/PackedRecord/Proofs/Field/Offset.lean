import PackedRecord.Field.Unpack
import PackedRecord.Proofs.Store.Patch

/-!
Items at an offset.

An item that is packed or unpacked behind some cells of a view is packed or unpacked
at the beginning of the rest of the view. The fields are the same cells, so all that
differs is where offsets are counted from.
-/

namespace PackedRecord

/-- The fields of the rest of a view are the fields of the view behind its beginning. -/
theorem View.field?_drop {v : View} {n : Nat} (hn : n ≤ v.size) (offset width : Nat) :
    (v.drop n).field? offset width = v.field? (n + offset) width := by
  by_cases h : n + offset + width ≤ v.size
  · rw [field?_eq_some h, field?_eq_some (by rw [size_drop]; omega), drop, slice_slice]
    congr 2 <;> omega
  · rw [(field?_eq_none_iff v _ _).mpr (by omega),
      (field?_eq_none_iff _ _ _).mpr (by rw [size_drop]; omega)]

/-- A place, counted from a number of cells before. -/
def Progress.behind (n : Nat) (p : Progress) : Progress :=
  ⟨n + p.offset, p.consumed⟩

def ItemPacked.behind (n : Nat) (step : ItemPacked) : ItemPacked :=
  { step with progress := step.progress.behind n }

def ItemUnpacked.behind (n : Nat) (step : ItemUnpacked) : ItemUnpacked :=
  { step with offset := n + step.offset }

namespace Item

section Pack

variable (order : ByteOrder) {target : View} {n : Nat} (hn : n ≤ target.size)
include hn

theorem packScalars_drop (scalar : Scalar) (count : Nat) (values : List Value) (s : Store)
    (p : Progress) :
    packScalars scalar order target count values s (p.behind n) =
      (packScalars scalar order (target.drop n) count values s p).behind n := by
  induction count generalizing values s p with
  | zero => rfl
  | succ count ih =>
      cases values with
      | nil => rfl
      | cons value values =>
          simp only [packScalars, View.field?_drop hn]
          cases scalar.encode? order s value with
          | none => rfl
          | some word =>
              have hoffset : (p.behind n).offset = n + p.offset := rfl
              rw [hoffset]
              cases target.field? (n + p.offset) scalar.width with
              | none => rfl
              | some field =>
                  have hnext : (Progress.mk (n + p.offset + scalar.width) (p.consumed + 1)) =
                      (Progress.mk (p.offset + scalar.width) (p.consumed + 1)).behind n := by
                    rw [Progress.behind, Nat.add_assoc]
                  exact (congrArg _ hnext).trans (ih _ _ _)

theorem packPad_drop (count : Nat) (s : Store) (offset : Nat) :
    packPad target count s (n + offset) = (packPad (target.drop n) count s offset).behind n := by
  simp only [packPad, View.field?_drop hn]
  cases target.field? (n + offset) count with
  | none => rfl
  | some field => simp only [ItemPacked.behind, Progress.behind, Nat.add_assoc]

theorem packText_drop (count : Nat) (values : List Value) (s : Store) (offset : Nat)
    (place : View → View → Store) :
    packText target count values s (n + offset) place =
      (packText (target.drop n) count values s offset place).behind n := by
  cases values with
  | nil => rfl
  | cons value values =>
      simp only [packText, View.field?_drop hn]
      cases value.view? with
      | none => rfl
      | some text =>
          cases target.field? (n + offset) count with
          | none => rfl
          | some field => simp only [ItemPacked.behind, Progress.behind, Nat.add_assoc]

theorem pack_drop (item : Item) (values : List Value) (s : Store) (offset : Nat) :
    item.pack order target values s (n + offset) =
      (item.pack order (target.drop n) values s offset).behind n := by
  simp only [pack]
  cases item.kind? with
  | none => rfl
  | some code =>
      cases code with
      | pad => exact packPad_drop hn item.count s offset
      | scalar scalar => exact packScalars_drop order hn scalar item.count values s ⟨offset, 0⟩
      | string | counted => exact packText_drop hn item.count values s offset _

end Pack

section Unpack

variable (order : ByteOrder) (s : Store) {source : View} {n : Nat} (hn : n ≤ source.size)
include hn

theorem unpackScalars_drop (scalar : Scalar) (count offset : Nat) :
    unpackScalars scalar order s source count (n + offset) =
      (unpackScalars scalar order s (source.drop n) count offset).behind n := by
  induction count generalizing offset with
  | zero => rfl
  | succ count ih =>
      simp only [unpackScalars, View.field?_drop hn]
      cases source.field? (n + offset) scalar.width with
      | none => rfl
      | some field =>
          have hrest := ih (offset + scalar.width)
          rw [← Nat.add_assoc] at hrest
          simp only [hrest]
          rfl

theorem unpackField_drop (count offset : Nat) (read : View → List Value) :
    unpackField source count (n + offset) read =
      (unpackField (source.drop n) count offset read).behind n := by
  simp only [unpackField, View.field?_drop hn]
  cases source.field? (n + offset) count with
  | none => rfl
  | some field => simp only [ItemUnpacked.behind, Nat.add_assoc]

theorem unpack_drop (item : Item) (offset : Nat) :
    item.unpack order s source (n + offset) =
      (item.unpack order s (source.drop n) offset).behind n := by
  simp only [unpack]
  cases item.kind? with
  | none => rfl
  | some code =>
      cases code with
      | scalar scalar => exact unpackScalars_drop order s hn scalar item.count offset
      | pad | string | counted => exact unpackField_drop hn item.count offset _

end Unpack

section Present

variable (order : ByteOrder) (s : Store) (source : View)

/-- Reads elements, each of which goes behind the values that are present. -/
def unpackScalarsOnto (scalar : Scalar) : (count offset : Nat) → List Value → ItemUnpacked
  | 0, offset, present => ⟨present, offset, none⟩
  | count + 1, offset, present =>
      match source.field? offset scalar.width with
      | none => ⟨present, offset, some (.core .outOfRange)⟩
      | some field =>
          unpackScalarsOnto scalar count (offset + scalar.width)
            (present ++ [scalar.decode order s field])

/-- Reads an item, whose values go behind those that are present. -/
def unpackOnto (item : Item) (offset : Nat) (present : List Value) : ItemUnpacked :=
  match item.kind? with
  | some (.scalar scalar) =>
      unpackScalarsOnto order s source scalar item.count offset present
  | _ =>
      let step := item.unpack order s source offset
      { step with values := present ++ step.values }

theorem unpackScalarsOnto_eq (scalar : Scalar) (count offset : Nat) (present : List Value) :
    let step := unpackScalars scalar order s source count offset
    unpackScalarsOnto order s source scalar count offset present =
      { step with values := present ++ step.values } := by
  induction count generalizing offset present with
  | zero => exact congrArg (fun values => ItemUnpacked.mk values _ _) (List.append_nil present).symm
  | succ count ih =>
      simp only [unpackScalarsOnto, unpackScalars]
      cases source.field? offset scalar.width with
      | none => simp only [List.append_nil]
      | some field => simp only [ih, List.append_assoc, List.singleton_append]

/-- The values that are present stay, and make no difference to those behind them. -/
theorem unpackOnto_eq (item : Item) (offset : Nat) (present : List Value) :
    let step := item.unpack order s source offset
    item.unpackOnto order s source offset present =
      { step with values := present ++ step.values } := by
  rw [unpackOnto]
  split
  case h_1 scalar hkind =>
    simp only [unpack, hkind]
    exact unpackScalarsOnto_eq order s source scalar item.count offset present
  case h_2 => rfl

end Present

end Item

end PackedRecord
