import PackedRecord.Format.Code
import PackedRecord.Value.Basic

/-!
What a value is worth to each kind of field.

Integer fields take words of 64 bits and keep the low bits of them. Narrow
fields take every value but bytes, as a signed word: a double is first cut to
the range in which every integer is exact. Fields of 64 bits take only what is
an integer already, as an unsigned word; a negative number becomes a signed word
first. Floating fields round integers, and an absent value is not a number
there. Text fields take bytes, and an absent value is the empty text.
-/

namespace PackedRecord.Value

/-- Up to this bound a double holds every integer exactly. -/
def safeIntegerLimit : Nat := 0x1FFFFFFFFFFFFF

private def ofBool (b : Bool) : Int :=
  if b then 1 else 0

/-- The word for a field of at most 32 bits. -/
def narrowInteger? : Value → Option Int64
  | absent => some 0
  | bool b => some (if b then 1 else 0)
  | int n => some n
  | uint n => some n.toInt64
  | real x => some (Int64.ofInt (x.truncated safeIntegerLimit))
  | bytes _ => none

/-- The word for a field of 64 bits. -/
def wideInteger? : Value → Option UInt64
  | bool b => some (if b then 1 else 0)
  | int n => some n.toUInt64
  | uint n => some n
  | real x => x.wholeNumber?.bind fun n =>
      if n < -0x8000000000000000 ∨ 0x10000000000000000 ≤ n then none
      else some (if n < 0 then (Int64.ofInt n).toUInt64 else UInt64.ofNat n.toNat)
  | absent | bytes _ => none

/-- The word of which a field keeps the low bits. -/
def integer? (value : Value) : IntSize → Option UInt64
  | .quad => value.wideInteger?
  | _ => value.narrowInteger?.map Int64.toUInt64

def real? : Value → Option Binary64
  | absent => some .quietNaN
  | bool b => some (.ofInt (ofBool b))
  | int n => some (.ofInt n.toInt)
  | uint n => some (.ofInt n.toNat)
  | real x => some x
  | bytes _ => none

def view? : Value → Option View
  | absent => some .empty
  | bytes v => some v
  | _ => none

end PackedRecord.Value
