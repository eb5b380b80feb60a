import PackedRecord.Format.Size
import PackedRecord.Record.Failure

/-!
The checks before any byte is read or written.

Packing into a buffer, unpacking and unpacking by windows begin alike: the
format text is read, its size computed, and the buffer compared with it. A
failure here leaves every byte as it was.
-/

namespace PackedRecord

/-- Sizes on which an operation reports: what the format needs, and what there is. -/
structure Extent where
  required : Nat
  actual : Nat
  deriving DecidableEq, Repr

def Format.ofText (text : Bytes) : Except Failure Format :=
  match Format.parse text with
  | .ok format => .ok format
  | .error e => .error (.badFormat text e)

/-- A big-endian format without items. -/
def Format.blank : Format := ⟨.big, []⟩

/-- The outcome of reading a format text. After a failure the format is blank. -/
structure FormatFound where
  format : Format
  failure : Option Failure
  deriving DecidableEq, Repr

def findFormat (text : Bytes) : FormatFound :=
  match Format.ofText text with
  | .ok format => ⟨format, none⟩
  | .error failure => ⟨.blank, some failure⟩

/-- The extent of a list of items in a buffer, and why it does not fit. The
required size counts as zero when it cannot be computed. -/
def checkCapacity (items : List Item) (actual : Nat) : Extent × Option Failure :=
  match packedSize items with
  | .error _ => (⟨0, actual⟩, some .sizeOverflow)
  | .ok required =>
      (⟨required, actual⟩,
        if actual < required then some (.tooSmall required actual) else none)

end PackedRecord
