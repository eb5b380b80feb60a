import PackedRecord.Format.Code
import PackedRecord.Store.Word
import PackedRecord.Value.Convert

/-!
Scalars as bytes.

`encode?` writes a value as one element of a scalar type, or refuses it;
`decode` reads an element back. A character keeps the first byte of its text,
or a zero for an empty one, and is read back as a view of its cell.
-/

namespace PackedRecord.Scalar

/-- The bytes of one element, if the scalar can hold the value. -/
def encode? (scalar : Scalar) (order : ByteOrder) (s : Store) (value : Value) :
    Option Bytes :=
  match scalar with
  | character => value.view?.map fun v => [(s.bytes v).headD 0]
  | boolean => some [if value.truthy then 1 else 0]
  | integer _ size =>
      (value.integer? size).map fun word => order.encode size.width word.toNat
  | half => value.real?.map fun x => order.encode 2 x.toBinary16.bits.toNat
  | single => value.real?.map fun x => order.encode 4 x.toBinary32.bits.toNat
  | double => value.real?.map fun x => order.encode 8 x.bits.toNat

/-- The value that the element in a field holds. -/
def decode (scalar : Scalar) (order : ByteOrder) (s : Store) (field : View) : Value :=
  let word := order.decode (s.bytes field)
  match scalar with
  | character => .bytes field
  | boolean => .bool (word != 0)
  | integer true size => .int (Int64.ofInt ((word : Int).bmod (ByteOrder.wordCount size.width)))
  | integer false _ => .uint (UInt64.ofNat word)
  | half => .real (Binary16.toBinary64 ⟨UInt16.ofNat word⟩)
  | single => .real (Binary32.toBinary64 ⟨UInt32.ofNat word⟩)
  | double => .real (.ofNatBits word)

end PackedRecord.Scalar
