import PackedRecord.Error
import PackedRecord.Format.Parser

/-!
The size of a format.

Sizes are words of 64 bits, whose products and sums wrap at the size limit. So
every product and every partial sum is checked before it is formed, and the
first that would wrap is a length overflow. `totalSize` is the same sum in exact
arithmetic.
-/

namespace PackedRecord

/-- The sum of two words, unless it would wrap. -/
def checkedAdd (a b : Nat) : Option Nat :=
  if b ≤ sizeLimit - 1 - a then some ((a + b) % sizeLimit) else none

/-- The product of two words, unless it would wrap. -/
def checkedMul (a b : Nat) : Option Nat :=
  if a = 0 ∨ b = 0 then some 0
  else if a ≤ (sizeLimit - 1) / b then some (a * b % sizeLimit)
  else none

/-- Adds the sizes of items to what came before them. -/
def sizeFrom (total : Nat) : List Item → Option Nat
  | [] => some total
  | item :: items =>
      match checkedMul item.count (Code.widthOfByte item.code) with
      | none => none
      | some bytes =>
          match checkedAdd total bytes with
          | none => none
          | some next => sizeFrom next items

def packedSize (items : List Item) : Except PackError Nat :=
  match sizeFrom 0 items with
  | some size => .ok size
  | none => .error .lengthOverflow

/-- The size of the records that a format text describes. -/
def packedSizeOfText (text : Bytes) : Except PackError Nat :=
  match Format.parse text with
  | .ok format => packedSize format.items
  | .error _ => .error .invalidFormat

end PackedRecord
