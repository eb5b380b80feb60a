import PackedRecord.Format.Basic

/-!
Reading a format text.

A format text is an optional byte-order mark and one or more groups, each of
zero or more decimal digits and a type code. A missing count is one. Counts
are below `2 ^ 64`; a counted text holds its length in one byte, so its count
is cut to 255 instead, however many digits it has. The first fault from the
left is reported.
-/

namespace PackedRecord

/-- Why a text is no format. -/
inductive FormatError where
  | countWithoutCode
  | unexpectedByte (b : UInt8)
  | countTooLarge
  | noCodes
  deriving DecidableEq, Repr

namespace FormatError

def reason : FormatError → Bytes
  | countWithoutCode => Bytes.ofString "repeat count without type code"
  | unexpectedByte b => Bytes.ofString "unexpected character '" ++ [b] ++ Bytes.ofString "'"
  | countTooLarge => Bytes.ofString "repeat count too large"
  | noCodes => Bytes.ofString "no type codes"

def message (format : Bytes) (e : FormatError) : Bytes :=
  Bytes.ofString "invalid format \"" ++ format ++ Bytes.ofString "\": " ++ e.reason

end FormatError

/-- The greatest length that a single byte can hold. -/
def maxCountedWidth : Nat := 255

/-- The count that an item gets from the one written before its code. -/
def Code.count? (code : Code) (written : Nat) : Option Nat :=
  match code with
  | .counted => some (min written maxCountedWidth)
  | _ => if written < sizeLimit then some written else none

namespace Format

/-- The byte order that a mark stands for; plain `@` and `=` are little. -/
def orderOfMark? (b : UInt8) : Option ByteOrder :=
  match Char.ofUInt8 b with
  | '@' | '=' | '<' => some .little
  | '>' | '!' => some .big
  | _ => none

/-- Reads groups. The first argument is the count read so far in this group,
if any digit was read. -/
def readItems : Option Nat → Bytes → Except FormatError (List Item)
  | none, [] => .ok []
  | some _, [] => .error .countWithoutCode
  | written, b :: rest =>
      if isDigit b then
        readItems (some (written.getD 0 * 10 + (b.toNat - 48))) rest
      else
        match Code.ofByte? b with
        | none => .error (.unexpectedByte b)
        | some code =>
            match code.count? (written.getD 1) with
            | none => .error .countTooLarge
            | some count => (readItems none rest).map (⟨count, b⟩ :: ·)

/-- The byte order of a text, and the text behind the mark. -/
def splitMark : Bytes → ByteOrder × Bytes
  | [] => (.little, [])
  | b :: rest =>
      match orderOfMark? b with
      | some order => (order, rest)
      | none => (.little, b :: rest)

def parse (text : Bytes) : Except FormatError Format :=
  let (order, body) := splitMark text
  match readItems none body with
  | .error e => .error e
  | .ok [] => .error .noCodes
  | .ok items => .ok ⟨order, items⟩

end Format

end PackedRecord
