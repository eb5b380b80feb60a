import PackedRecord.Field.Pack
import PackedRecord.Proofs.Value.Number
import PackedRecord.Proofs.Value.Shown

/-!
Slots.

A slot is what packing fills in one go. Padding and the two kinds of text are
one slot whatever their count, a scalar item has one slot for each count, and
an item whose code is outside the alphabet is one slot that nothing can fill.
A slot takes at most one value. What a slot refuses does not depend on the
store, and what it is filled with depends on what its value shows.
-/

namespace PackedRecord

inductive Shape where
  | pad (width : Nat)
  | element (scalar : Scalar)
  | string (width : Nat)
  | counted (width : Nat)
  | unknown
  deriving DecidableEq, Repr

/-- A slot, under the item that it belongs to. -/
structure Slot where
  item : Item
  shape : Shape
  deriving DecidableEq, Repr

def Item.slots (item : Item) : List Slot :=
  match item.kind? with
  | none => [⟨item, .unknown⟩]
  | some .pad => [⟨item, .pad item.count⟩]
  | some (.scalar scalar) => List.replicate item.count ⟨item, .element scalar⟩
  | some .string => [⟨item, .string item.count⟩]
  | some .counted => [⟨item, .counted item.count⟩]

/-- The slots of a list of items, from left to right. -/
def slotsOf (items : List Item) : List Slot :=
  items.flatMap Item.slots

theorem slotsOf_cons (item : Item) (items : List Item) :
    slotsOf (item :: items) = item.slots ++ slotsOf items := rfl

theorem slotsOf_append (xs ys : List Item) : slotsOf (xs ++ ys) = slotsOf xs ++ slotsOf ys :=
  List.flatMap_append

theorem Item.item_of_mem_slots {item : Item} {slot : Slot} (h : slot ∈ item.slots) :
    slot.item = item := by
  rw [Item.slots] at h
  split at h
  case h_3 scalar hk =>
    rw [List.eq_of_mem_replicate h]
  all_goals
    rw [List.mem_singleton.mp h]

namespace Value

def isText : Value → Bool
  | absent | bytes _ => true
  | _ => false

def isWide : Value → Bool
  | bool _ | int _ | uint _ => true
  | real x => x.wholeNumber?.any fun n => -2 ^ 63 ≤ n && n < 2 ^ 64
  | absent | bytes _ => false

def isNumeric : Value → Bool
  | bytes _ => false
  | _ => true

end Value

/-- The values that an element of a scalar type can hold. -/
def Scalar.accepts (scalar : Scalar) (value : Value) : Bool :=
  match scalar with
  | .character => value.isText
  | .boolean => true
  | .integer _ .quad => value.isWide
  | .integer _ _ | .half | .single | .double => value.isNumeric

namespace Shape

def width : Shape → Nat
  | element scalar => scalar.width
  | pad width | string width | counted width => width
  | unknown => 0

/-- The number of values that a slot takes. -/
def taken : Shape → Nat
  | pad _ | unknown => 0
  | element _ | string _ | counted _ => 1

def accepts (shape : Shape) (value : Value) : Bool :=
  match shape with
  | element scalar => scalar.accepts value
  | string _ | counted _ => value.isText
  | pad _ | unknown => false

/-- Why a slot cannot be filled, given the next value if one is left. -/
def fault? (shape : Shape) (next : Option Value) : Option PackError :=
  match shape, next with
  | unknown, _ => some .unknownFormat
  | pad _, _ => none
  | _, none => some .notEnoughValues
  | shape, some value => if shape.accepts value then none else some .invalidArgument

end Shape

/-- A text cut or zero-filled to a width. -/
def Bytes.fit (width : Nat) (text : Bytes) : Bytes :=
  text.take width ++ List.replicate (width - text.length) 0

/-- A text behind a byte with its length, in a field of a width. -/
def Bytes.fitCounted : (width : Nat) → Bytes → Bytes
  | 0, _ => []
  | room + 1, text => UInt8.ofNat (min text.length room) :: text.fit room

/-- The bytes that fill a slot. -/
def Shape.encode? (shape : Shape) (order : ByteOrder) (s : Store) (next : Option Value) :
    Option Bytes :=
  match shape, next with
  | .pad width, _ => some (List.replicate width 0)
  | .element scalar, some value => scalar.encode? order s value
  | .string width, some value => (value.content? s).map (Bytes.fit width)
  | .counted width, some value => (value.content? s).map (Bytes.fitCounted width)
  | _, _ => none

theorem Bytes.length_fit (width : Nat) (text : Bytes) : (fit width text).length = width := by
  simp only [fit, List.length_append, List.length_take, List.length_replicate]
  omega

theorem Bytes.length_fitCounted (width : Nat) (text : Bytes) :
    (fitCounted width text).length = width := by
  cases width with
  | zero => rfl
  | succ room => simp [fitCounted, length_fit]

namespace Value

theorem isSome_view? (value : Value) : value.view?.isSome = value.isText := by
  cases value <;> rfl

theorem isSome_content? (s : Store) (value : Value) :
    (value.content? s).isSome = value.isText := by
  rw [content?, Option.isSome_map, isSome_view?]

theorem isSome_wideInteger? (value : Value) : value.wideInteger?.isSome = value.isWide := by
  cases value with
  | real x =>
      simp only [wideInteger?, isWide]
      cases x.wholeNumber? with
      | none => rfl
      | some n =>
          simp only [Option.bind_some, Option.any_some]
          split
          · rw [Option.isSome_none, eq_comm, Bool.and_eq_false_iff, decide_eq_false_iff_not,
              decide_eq_false_iff_not]
            omega
          · rw [Option.isSome_some, eq_comm, Bool.and_eq_true, decide_eq_true_iff,
              decide_eq_true_iff]
            omega
  | absent | bool _ | int _ | uint _ | bytes _ => rfl

/-- A wide value is exactly an integer that 64 bits can hold. -/
theorem isWide_iff (value : Value) :
    value.isWide = true ↔ ∃ n, value.Denotes n ∧ -2 ^ 63 ≤ n ∧ n < 2 ^ 64 := by
  rw [← isSome_wideInteger?, Option.isSome_iff_exists]
  simp only [wideInteger?_eq_some_iff]
  constructor
  · rintro ⟨word, n, hdenotes, hlow, hhigh, -⟩
    exact ⟨n, hdenotes, hlow, hhigh⟩
  · rintro ⟨n, hdenotes, hlow, hhigh⟩
    exact ⟨_, n, hdenotes, hlow, hhigh, rfl⟩

theorem isSome_narrowInteger? (value : Value) :
    value.narrowInteger?.isSome = value.isNumeric := by
  cases value <;> rfl

theorem isSome_real? (value : Value) : value.real?.isSome = value.isNumeric := by
  cases value <;> rfl

end Value

namespace Scalar

theorem isSome_encode? (scalar : Scalar) (order : ByteOrder) (s : Store) (value : Value) :
    (scalar.encode? order s value).isSome = scalar.accepts value := by
  cases scalar with
  | character =>
      simp only [encode?, accepts, Option.isSome_map, Value.isSome_view?]
  | boolean => rfl
  | integer signed size =>
      cases size with
      | quad => simp only [encode?, accepts, Value.integer?, Option.isSome_map,
          Value.isSome_wideInteger?]
      | byte | short | long => simp only [encode?, accepts, Value.integer?, Option.isSome_map,
          Value.isSome_narrowInteger?]
  | half | single | double =>
      simp only [encode?, accepts, Option.isSome_map, Value.isSome_real?]

/-- An integer element holds the residue of the integer that it takes. -/
theorem encode?_integer {value : Value} {n : Int} {size : IntSize} (hcounts : value.CountsIn size n)
    (hrange : size = .quad → -2 ^ 63 ≤ n ∧ n < 2 ^ 64) (signed : Bool) (order : ByteOrder)
    (s : Store) :
    (integer signed size).encode? order s value =
      some (order.encode size.width (n % (ByteOrder.wordCount size.width : Nat)).toNat) := by
  have hinteger := (value.integer?_eq_some_iff size _).mpr ⟨n, hcounts, hrange, rfl⟩
  rw [encode?, hinteger, Option.map_some, order.encode_wordOfInt size.width_le]

theorem length_encode? {scalar : Scalar} {order : ByteOrder} {s : Store} {value : Value}
    {word : Bytes} (h : scalar.encode? order s value = some word) :
    word.length = scalar.width := by
  cases scalar with
  | boolean =>
      obtain rfl := Option.some.inj h
      rfl
  | character =>
      obtain ⟨v, -, rfl⟩ := Option.map_eq_some_iff.mp h
      rfl
  | integer signed size =>
      obtain ⟨n, -, rfl⟩ := Option.map_eq_some_iff.mp h
      exact ByteOrder.length_encode _ _ _
  | half | single | double =>
      obtain ⟨x, -, rfl⟩ := Option.map_eq_some_iff.mp h
      exact ByteOrder.length_encode _ _ _

/-- Elements are filled by what their values show. -/
theorem encode?_of_alike {s t : Store} {v w : Value} (scalar : Scalar) (order : ByteOrder)
    (h : Value.Alike s t v w) : scalar.encode? order t w = scalar.encode? order s v := by
  cases scalar with
  | character =>
      have hmap (u : Store) (value : Value) : encode? character order u value =
          (value.content? u).map fun bs => [bs.headD 0] := by
        simp only [encode?, Value.content?, Option.map_map]
        rfl
      rw [hmap, hmap, h.content?]
  | boolean => simp only [encode?, h.truthy]
  | integer _ size => simp only [encode?, h.integer? size]
  | half | single | double => simp only [encode?, h.real?]

end Scalar

namespace Shape

/-- A slot has no fault exactly when there are bytes to fill it with. -/
theorem fault?_eq_none_iff (shape : Shape) (order : ByteOrder) (s : Store)
    (next : Option Value) :
    shape.fault? next = none ↔ (shape.encode? order s next).isSome = true := by
  cases shape with
  | pad width => simp [fault?, encode?]
  | unknown => simp [fault?, encode?]
  | element scalar =>
      cases next with
      | none => simp [fault?, encode?]
      | some value =>
          have hsome : ((element scalar).encode? order s (some value)).isSome =
              (element scalar).accepts value := Scalar.isSome_encode? scalar order s value
          rw [hsome]
          by_cases h : (element scalar).accepts value = true <;> simp [fault?, h]
  | string width | counted width =>
      cases next with
      | none => simp [fault?, encode?]
      | some value =>
          simp only [encode?, Option.isSome_map, Value.isSome_content?]
          by_cases h : value.isText = true <;> simp [fault?, accepts, h]

theorem length_encode? {shape : Shape} {order : ByteOrder} {s : Store} {next : Option Value}
    {data : Bytes} (h : shape.encode? order s next = some data) :
    data.length = shape.width := by
  cases shape with
  | pad width =>
      obtain rfl := Option.some.inj h
      exact List.length_replicate
  | unknown => cases next <;> contradiction
  | element scalar =>
      cases next with
      | none => contradiction
      | some value => exact Scalar.length_encode? h
  | string width =>
      cases next with
      | none => contradiction
      | some value =>
          obtain ⟨text, -, rfl⟩ := Option.map_eq_some_iff.mp h
          exact Bytes.length_fit width text
  | counted width =>
      cases next with
      | none => contradiction
      | some value =>
          obtain ⟨text, -, rfl⟩ := Option.map_eq_some_iff.mp h
          exact Bytes.length_fitCounted width text

theorem encode?_of_alike {s t : Store} (shape : Shape) (order : ByteOrder)
    {x y : Option Value} (h : Option.Rel (Value.Alike s t) x y) :
    shape.encode? order t y = shape.encode? order s x := by
  cases h with
  | none => cases shape <;> rfl
  | some hvalue =>
      cases shape with
      | element scalar => exact scalar.encode?_of_alike order hvalue
      | string width | counted width => simp only [encode?, hvalue.content?]
      | pad width | unknown => rfl

theorem accepts_of_alike {s t : Store} {v w : Value} (shape : Shape)
    (h : Value.Alike s t v w) : shape.accepts w = shape.accepts v := by
  rcases h.eq_or_bytes with rfl | ⟨x, y, rfl, rfl, -, -⟩
  · rfl
  · cases shape with
    | element scalar =>
        cases scalar with
        | integer signed size => cases size <;> rfl
        | character | boolean | half | single | double => rfl
    | pad _ | string _ | counted _ | unknown => rfl

theorem fault?_of_alike {s t : Store} (shape : Shape) {x y : Option Value}
    (h : Option.Rel (Value.Alike s t) x y) : shape.fault? y = shape.fault? x := by
  cases h with
  | none => rfl
  | some hvalue => cases shape <;> simp only [fault?, accepts_of_alike _ hvalue]

/-- A slot that is filled takes no value beyond the last. -/
theorem taken_le_of_fault? {shape : Shape} {values : List Value} {n : Nat}
    (h : shape.fault? values[n]? = none) (hn : n ≤ values.length) :
    n + shape.taken ≤ values.length := by
  cases hnext : values[n]? with
  | some value =>
      have hlt := (List.getElem?_eq_some_iff.mp hnext).1
      cases shape <;> simp only [taken] <;> omega
  | none =>
      rw [hnext] at h
      cases shape <;> simp_all [fault?, taken]

end Shape

end PackedRecord
