import PackedRecord.Floating.Words
import PackedRecord.Store.Basic

/-!
Values.

A value is absent, a truth value, an integer of one of two kinds, a double or
a view of bytes. Two values are equal only if they are of the same kind:
doubles by their bits, so a value that is not a number equals itself and the
two zeros differ, and views by the bytes they show.
-/

namespace PackedRecord

inductive Value where
  | absent
  | bool (b : Bool)
  | int (n : Int64)
  | uint (n : UInt64)
  | real (x : Binary64)
  | bytes (v : View)
  deriving DecidableEq, Repr

namespace Value

/-- Absent, zero, not a number and an empty view count as false. -/
def truthy : Value → Bool
  | absent => false
  | bool b => b
  | int n => n != 0
  | uint n => n != 0
  | real x => x.isNonzero
  | bytes v => v.size != 0

/-- Equality of what two values show in a store. -/
def equal (s : Store) : Value → Value → Bool
  | absent, absent => true
  | bool a, bool b => a == b
  | int m, int n => m == n
  | uint m, uint n => m == n
  | real x, real y => x.bits == y.bits
  | bytes v, bytes w => s.bytes v == s.bytes w
  | _, _ => false

end Value

end PackedRecord
