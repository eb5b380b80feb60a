import PackedRecord.Bytes

/-!
Type codes.

A type code is one byte of a format. Most codes name a scalar, of which an
item holds any number; padding and the two kinds of text, plain and counted,
take the whole width of their item as one field. The integer codes `i` and `l`
mean the same, and so do `I` and `L`.
-/

namespace PackedRecord

inductive IntSize where
  | byte
  | short
  | long
  | quad
  deriving DecidableEq, Repr

def IntSize.width : IntSize → Nat
  | byte => 1
  | short => 2
  | long => 4
  | quad => 8

/-- An element of fixed width. A character is a text of one byte. -/
inductive Scalar where
  | character
  | boolean
  | integer (signed : Bool) (size : IntSize)
  | half
  | single
  | double
  deriving DecidableEq, Repr

def Scalar.width : Scalar → Nat
  | character | boolean => 1
  | integer _ size => size.width
  | half => 2
  | single => 4
  | double => 8

inductive Code where
  | pad
  | scalar (s : Scalar)
  | string
  | counted
  deriving DecidableEq, Repr

namespace Code

/-- The alphabet of type codes. -/
def ofByte? (b : UInt8) : Option Code :=
  match Char.ofUInt8 b with
  | 'x' => some .pad
  | 'c' => some (.scalar .character)
  | '?' => some (.scalar .boolean)
  | 'b' => some (.scalar (.integer true .byte))
  | 'B' => some (.scalar (.integer false .byte))
  | 'h' => some (.scalar (.integer true .short))
  | 'H' => some (.scalar (.integer false .short))
  | 'i' | 'l' => some (.scalar (.integer true .long))
  | 'I' | 'L' => some (.scalar (.integer false .long))
  | 'q' => some (.scalar (.integer true .quad))
  | 'Q' => some (.scalar (.integer false .quad))
  | 'e' => some (.scalar .half)
  | 'f' => some (.scalar .single)
  | 'd' => some (.scalar .double)
  | 's' => some .string
  | 'p' => some .counted
  | _ => none

/-- The bytes that one count of the code takes. -/
def width : Code → Nat
  | scalar s => s.width
  | pad | string | counted => 1

/-- A code outside the alphabet takes no room. -/
def widthOfByte (b : UInt8) : Nat :=
  match ofByte? b with
  | some c => c.width
  | none => 0

end Code

end PackedRecord
