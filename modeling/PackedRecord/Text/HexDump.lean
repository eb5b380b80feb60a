import PackedRecord.Text.Hex

/-!
Hex dumps.

A dump shows bytes in lines of a fixed number, each byte as two digits and the
bytes of a line apart by one space. A line may begin with its offset and may
end with its bytes as characters, in a column that is the same on every line.
At most so many bytes are shown, and a last line tells when there are more.
-/

namespace PackedRecord

structure HexDump where
  /-- Bytes on a line; zero stands for sixteen. -/
  perLine : Nat
  /-- The greatest number of bytes shown; zero stands for all. -/
  limit : Nat
  showOffset : Bool
  showAscii : Bool
  deriving DecidableEq, Repr

namespace HexDump

def standard : HexDump := ⟨16, 256, true, false⟩

def width (d : HexDump) : Nat :=
  if d.perLine = 0 then 16 else d.perLine

def shown (d : HexDump) (total : Nat) : Nat :=
  if d.limit = 0 then total else min total d.limit

def space : UInt8 := ' '.toUInt8
def newline : UInt8 := '\n'.toUInt8

/-- A byte as a character, or a dot where there is none to show. -/
def glyph (b : UInt8) : UInt8 :=
  if isPrintable b then b else '.'.toUInt8

/-- The spaces between the digits of a line and its characters. -/
def gap (d : HexDump) (count : Nat) : Nat :=
  ((d.width - count) * 3 + 1) % sizeLimit + 2

def line (d : HexDump) (offset : Nat) (bs : Bytes) : Bytes :=
  (if d.showOffset then
    Bytes.padZero 4 (Bytes.digits 16 offset) ++ Bytes.ofString ": " else []) ++
  [space].intercalate (bs.map Bytes.hexPair) ++
  (if d.showAscii then List.replicate (d.gap bs.length) space ++ bs.map glyph else []) ++
  [newline]

/-- The lines of some bytes from an offset up to a stop. Offsets are words, so the sum that steps
to the next line can wrap and the lines may never come to an end; there is no result if there
is still a line to show after so many rounds. -/
def linesFrom? (d : HexDump) (bytes : Array UInt8) (stop : UInt64) :
    (rounds : Nat) → (offset : UInt64) → Option (List Bytes)
  | 0, _ => none
  | rounds + 1, offset =>
    if offset < stop then
      let count := min d.width (stop - offset).toNat
      let piece := bytes.extract offset.toNat (offset.toNat + count)
      (linesFrom? d bytes stop rounds (offset + UInt64.ofNat d.width)).map
        (d.line offset.toNat piece.toList :: ·)
    else some []

/-- The last line of a dump that does not show everything. -/
def truncationNote (d : HexDump) (total : Nat) : Bytes :=
  if d.limit ≠ 0 ∧ d.limit < total then
    Bytes.ofString "... (truncated, total=" ++ Bytes.decimal total ++ Bytes.ofString " bytes)\n"
  else []

/-- The text of a dump, if its lines come to an end. Lines that do not within as many rounds as
there are offsets never do. -/
def render? (d : HexDump) (bs : Bytes) : Option Bytes :=
  (d.linesFrom? bs.toArray (UInt64.ofNat (d.shown bs.length)) sizeLimit 0).map fun lines =>
    lines.flatten ++ d.truncationNote bs.length

def render (d : HexDump) (bs : Bytes) : Bytes :=
  (d.render? bs).getD []

end HexDump

end PackedRecord
