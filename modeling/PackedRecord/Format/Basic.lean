import PackedRecord.ByteOrder
import PackedRecord.Format.Code

/-!
Formats.

A format is a byte order and a list of items; an item is a count with a type
code. The code is kept as its byte, so a format built by hand may hold codes
outside the alphabet, which packing and unpacking refuse when they reach them.
-/

namespace PackedRecord

structure Item where
  count : Nat
  code : UInt8
  deriving DecidableEq, Repr

namespace Item

def kind? (item : Item) : Option Code :=
  Code.ofByte? item.code

/-- The bytes an item takes, in exact arithmetic. -/
def size (item : Item) : Nat :=
  item.count * Code.widthOfByte item.code

/-- The count in decimal and the code, as messages show an item. -/
def text (item : Item) : Bytes :=
  Bytes.decimal item.count ++ [item.code]

end Item

structure Format where
  order : ByteOrder
  items : List Item
  deriving DecidableEq, Repr

/-- The bytes a list of items takes, in exact arithmetic. -/
def totalSize : List Item → Nat
  | [] => 0
  | item :: items => item.size + totalSize items

theorem totalSize_nil : totalSize [] = 0 := rfl

theorem totalSize_cons (item : Item) (items : List Item) :
    totalSize (item :: items) = item.size + totalSize items := rfl

theorem totalSize_append (xs ys : List Item) :
    totalSize (xs ++ ys) = totalSize xs + totalSize ys := by
  induction xs with
  | nil => exact (Nat.zero_add _).symm
  | cons item xs ih =>
      rw [List.cons_append, totalSize_cons, totalSize_cons, ih, Nat.add_assoc]

end PackedRecord
