import PackedRecord.Error
import PackedRecord.Field.Scalar
import PackedRecord.Format.Basic

/-!
Packing one item.

An item is written at an offset within the target and takes values from the
front of a list. What was written before a fault stays written, and the
progress says how far it went: on success the offset behind the item, on a
fault the offset of the element that could not be written.

A text field is filled with zeros before the text is copied into it, so a text
that shares cells with its own field is read back as zeros. A counted text
begins with the number of bytes that were copied, in one byte.
-/

namespace PackedRecord

/-- The next offset, and the number of values taken. -/
structure Progress where
  offset : Nat
  consumed : Nat
  deriving DecidableEq, Repr

structure ItemPacked where
  store : Store
  progress : Progress
  fault : Option Fault
  deriving DecidableEq, Repr

namespace Item

/-- Writes `count` elements, each from the next value. -/
def packScalars (scalar : Scalar) (order : ByteOrder) (target : View) :
    (count : Nat) → List Value → Store → Progress → ItemPacked
  | 0, _, s, p => ⟨s, p, none⟩
  | _ + 1, [], s, p => ⟨s, p, some (.pack .notEnoughValues)⟩
  | count + 1, value :: values, s, p =>
      match scalar.encode? order s value with
      | none => ⟨s, p, some (.pack .invalidArgument)⟩
      | some word =>
          match target.field? p.offset scalar.width with
          | none => ⟨s, p, some (.core .outOfRange)⟩
          | some field =>
              packScalars scalar order target count values (s.write field word)
                ⟨p.offset + scalar.width, p.consumed + 1⟩

def packPad (target : View) (count : Nat) (s : Store) (offset : Nat) : ItemPacked :=
  match target.field? offset count with
  | none => ⟨s, ⟨offset, 0⟩, some (.core .outOfRange)⟩
  | some field => ⟨s.fill field 0, ⟨offset + count, 0⟩, none⟩

/-- Takes one value that is a text and a field for it. -/
def packText (target : View) (count : Nat) (values : List Value) (s : Store) (offset : Nat)
    (place : (text field : View) → Store) : ItemPacked :=
  match values with
  | [] => ⟨s, ⟨offset, 0⟩, some (.pack .notEnoughValues)⟩
  | value :: _ =>
      match value.view? with
      | none => ⟨s, ⟨offset, 0⟩, some (.pack .invalidArgument)⟩
      | some text =>
          match target.field? offset count with
          | none => ⟨s, ⟨offset, 0⟩, some (.core .outOfRange)⟩
          | some field => ⟨place text field, ⟨offset + count, 1⟩, none⟩

/-- A text cut or zero-filled to the width of its field. -/
def placeString (count : Nat) (s : Store) (text field : View) : Store :=
  ((s.fill field 0).copy text field 0 0 count).1

/-- A text behind its length; a field without room for the length stays empty. -/
def placeCounted (count : Nat) (s : Store) (text field : View) : Store :=
  match count with
  | 0 => s
  | room + 1 =>
      let (s, written) := (s.fill field 0).copy text field 1 0 room
      s.write field [UInt8.ofNat written]

def pack (item : Item) (order : ByteOrder) (target : View) (values : List Value)
    (s : Store) (offset : Nat) : ItemPacked :=
  match item.kind? with
  | none => ⟨s, ⟨offset, 0⟩, some (.pack .unknownFormat)⟩
  | some .pad => packPad target item.count s offset
  | some (.scalar scalar) =>
      packScalars scalar order target item.count values s ⟨offset, 0⟩
  | some .string =>
      packText target item.count values s offset (placeString item.count s)
  | some .counted =>
      packText target item.count values s offset (placeCounted item.count s)

end Item

end PackedRecord
