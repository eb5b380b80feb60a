import PackedRecord.Error

/-!
Hexadecimal text.

Writing gives two lower-case digits for each byte and nothing else. Reading
also takes upper case, skips white space and common separators anywhere, and
skips `0x` where a byte may begin; the digits must come in pairs.
-/

namespace PackedRecord.Hex

def render (bs : Bytes) : Bytes :=
  bs.flatMap Bytes.hexPair

/-- The value of a hexadecimal digit of either case. -/
def digit? (b : UInt8) : Option UInt8 :=
  if isDigit b then some (b - 48)
  else if 97 ≤ b && b ≤ 102 then some (b - 87)
  else if 65 ≤ b && b ≤ 70 then some (b - 55)
  else none

/-- Marks that may stand between digits. -/
def separators : Bytes :=
  Bytes.ofString ",;:-_|[]()\x7b\x7d'\""

def isSeparator (b : UInt8) : Bool :=
  isSpace b || separators.contains b

/-- What has been read of the byte at hand. -/
inductive Pending where
  /-- Nothing. -/
  | nothing
  /-- A zero just read, of which an `x` may follow. -/
  | zero
  /-- The first digit. -/
  | high (digit : UInt8)
  deriving DecidableEq, Repr

def isMarkLetter (b : UInt8) : Bool :=
  b == 'x'.toUInt8 || b == 'X'.toUInt8

/-- Reads bytes; `none` when a character is no digit or a digit stands alone. -/
def scan : Pending → Bytes → Option Bytes
  | .nothing, [] => some []
  | _, [] => none
  | pending, b :: rest =>
      if pending = .zero ∧ isMarkLetter b then scan .nothing rest
      else if isSeparator b then
        scan (if pending = .zero then .high 0 else pending) rest
      else
        match digit? b with
        | none => none
        | some d =>
            match pending with
            | .nothing => scan (if d = 0 then .zero else .high d) rest
            | .zero => (scan .nothing rest).map (d :: ·)
            | .high h => (scan .nothing rest).map ((h * 16 + d) :: ·)

def parse (text : Bytes) : Except CoreError Bytes :=
  match scan .nothing text with
  | some bs => .ok bs
  | none => .error .invalidArgument

end PackedRecord.Hex
