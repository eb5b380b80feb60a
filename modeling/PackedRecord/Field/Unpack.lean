import PackedRecord.Field.Pack

/-!
Unpacking one item.

Reading changes nothing. Texts come out as views of their fields, so later
writes to those cells show in them; the length of a counted text is fixed
when it is read, and is cut to the room that its field has. The values before
a fault are kept.
-/

namespace PackedRecord

structure ItemUnpacked where
  values : List Value
  offset : Nat
  fault : Option Fault
  deriving DecidableEq, Repr

namespace Item

def unpackScalars (scalar : Scalar) (order : ByteOrder) (s : Store) (source : View) :
    (count offset : Nat) → ItemUnpacked
  | 0, offset => ⟨[], offset, none⟩
  | count + 1, offset =>
      match source.field? offset scalar.width with
      | none => ⟨[], offset, some (.core .outOfRange)⟩
      | some field =>
          let rest := unpackScalars scalar order s source count (offset + scalar.width)
          { rest with values := scalar.decode order s field :: rest.values }

/-- The text in a field, behind the byte that counts it. -/
def countedText (s : Store) (field : View) : View :=
  match field.size with
  | 0 => .empty
  | room + 1 => field.slice 1 (1 + min ((s.bytes field).headD 0).toNat room)

/-- Reads the whole width of an item as one field. -/
def unpackField (source : View) (count offset : Nat) (read : View → List Value) :
    ItemUnpacked :=
  match source.field? offset count with
  | none => ⟨[], offset, some (.core .outOfRange)⟩
  | some field => ⟨read field, offset + count, none⟩

def unpack (item : Item) (order : ByteOrder) (s : Store) (source : View) (offset : Nat) :
    ItemUnpacked :=
  match item.kind? with
  | none => ⟨[], offset, some (.pack .unknownFormat)⟩
  | some .pad => unpackField source item.count offset fun _ => []
  | some (.scalar scalar) => unpackScalars scalar order s source item.count offset
  | some .string => unpackField source item.count offset fun field => [.bytes field]
  | some .counted =>
      unpackField source item.count offset fun field => [.bytes (countedText s field)]

end Item

end PackedRecord
