import PackedRecord.Proofs.ByteOrder
import PackedRecord.Proofs.Field.Read
import PackedRecord.Proofs.Format.Parsed
import PackedRecord.Proofs.Value.Number

/-!
Values read back.

`Normal` says what is left of a value in a slot of each shape. A slot that was
filled with a value yields what `Normal` allows and nothing else: an integer in
the range of its field that agrees with the value in the low bits, a truth
value, a text cut to its room, or a double rounded to its field.
-/

namespace PackedRecord

/-- What an element of a scalar type shows of a value. -/
def Scalar.Normal (scalar : Scalar) (s : Store) (value : Value) (shown : Shown) : Prop :=
  match scalar with
  | character => ∃ text, value.content? s = some text ∧ shown = .bytes [text.headD 0]
  | boolean => shown = .bool value.truthy
  | integer true size =>
      ∃ n m, value.CountsIn size n ∧ shown = .int m ∧
        m.toInt % 2 ^ (8 * size.width) = n % 2 ^ (8 * size.width) ∧
        -2 ^ (8 * size.width - 1) ≤ m.toInt ∧ m.toInt < 2 ^ (8 * size.width - 1)
  | integer false size =>
      ∃ n m, value.CountsIn size n ∧ shown = .uint m ∧
        (m.toNat : Int) % 2 ^ (8 * size.width) = n % 2 ^ (8 * size.width) ∧
        m.toNat < 2 ^ (8 * size.width)
  | half => ∃ x, value.real? = some x ∧ shown = .real x.toBinary16.toBinary64
  | single => ∃ x, value.real? = some x ∧ shown = .real x.toBinary32.toBinary64
  | double => ∃ x, value.real? = some x ∧ shown = .real x

def Shape.Normal (shape : Shape) (s : Store) (value : Value) (shown : Shown) : Prop :=
  match shape with
  | element scalar => scalar.Normal s value shown
  | string width => ∃ text, value.content? s = some text ∧ shown = .bytes (text.fit width)
  | counted width =>
      ∃ text, value.content? s = some text ∧ shown = .bytes (text.take (width - 1))
  | pad _ | unknown => False

namespace Scalar

variable {order : ByteOrder} {s : Store} {value : Value}

/-- A residue around zero is in the range of its field, and of 64 bits. -/
theorem toInt_ofInt_bmod (size : IntSize) (k : Int) :
    let m := Int64.ofInt (k.bmod (ByteOrder.wordCount size.width))
    m.toInt % 2 ^ (8 * size.width) = k % 2 ^ (8 * size.width) ∧
      -2 ^ (8 * size.width - 1) ≤ m.toInt ∧ m.toInt < 2 ^ (8 * size.width - 1) := by
  have hpos := ByteOrder.wordCount_pos size.width
  have hmod := Int.bmod_emod (x := k) (m := ByteOrder.wordCount size.width)
  have hlow := Int.le_bmod (x := k) hpos
  have hhigh := Int.bmod_lt (x := k) hpos
  rw [ByteOrder.wordCount_eq] at hmod hlow hhigh ⊢
  cases size <;> simp only [IntSize.width] at hmod hlow hhigh ⊢ <;>
    rw [Int64.toInt_ofInt, show Int64.size = 2 ^ 64 from rfl,
      Int.bmod_eq_of_le (by omega) (by omega)] <;> omega

section Integers

-- The word of a field is the residue of the integer that the field took.
variable {size : IntSize} {n : Int} {data : Bytes} (h : value.CountsIn size n)
  (hword : (order.decode data : Int) = n % 2 ^ (8 * size.width))
include h hword

end Integers

end Scalar

/-- The length of a counted text is kept modulo the number of values of a byte. -/
theorem Bytes.counted_fitCounted_succ (room : Nat) (text : Bytes) :
    (fitCounted (room + 1) text).counted = text.take (min text.length room % 2 ^ 8) := by
  have hle : min text.length room % 2 ^ 8 ≤ min text.length room := Nat.mod_le _ _
  have hroom : min (min text.length room % 2 ^ 8) room = min text.length room % 2 ^ 8 := by omega
  simp only [fitCounted, counted, List.headD_cons, List.drop_one, List.tail_cons,
    List.length_cons, length_fit, Nat.add_sub_cancel, UInt8.toNat_ofNat', hroom]
  rw [fit, List.take_append_of_le_length (by rw [List.length_take]; omega), List.take_take,
    hroom]

end PackedRecord
