import PackedRecord.Bytes

/-!
Order and search on runs of bytes.

Bytes are ordered as dictionaries order words: the first byte that differs
decides, each byte unsigned, and where all bytes that both runs have room for
are the same the shorter run comes first. Two runs are equal if neither comes
before the other. A search gives the first place at which the pattern stands,
and an empty pattern stands where the search begins, or at the end if that is
beyond it.
-/

namespace PackedRecord.Bytes

/-- How the first `n` bytes of two runs compare, where both have as many. -/
def orderWithin : Nat → Bytes → Bytes → Ordering
  | n + 1, b :: bs, c :: cs => (compare b c).then (orderWithin n bs cs)
  | _, _, _ => .eq

def order (xs ys : Bytes) : Ordering :=
  (orderWithin (min xs.length ys.length) xs ys).then (compare xs.length ys.length)

def equals (xs ys : Bytes) : Bool :=
  xs.order ys == .eq

/-- The first place of a pattern in a text whose first byte is at `position`. -/
def findFrom (pattern : Bytes) (position : Nat) : Bytes → Option Nat
  | [] => if pattern.isEmpty then some position else none
  | b :: rest =>
      if pattern.isPrefixOf (b :: rest) then some position
      else findFrom pattern (position + 1) rest

/-- The first place of a pattern in a text from `start` on. Behind the end there is none, and
none where less is left than the pattern takes; what is left is formed only before the end. -/
def indexOf? (text pattern : Bytes) (start : Nat) : Option Nat :=
  if pattern.isEmpty then some (min start text.length)
  else if text.length ≤ start ∨ text.length - start < pattern.length then none
  else findFrom pattern start (text.drop start)

end PackedRecord.Bytes
