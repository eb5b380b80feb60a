import PackedRecord.Field.Unpack
import PackedRecord.Record.Capacity

/-!
Unpacking records.

The items of a format are read one after the other from the start of a buffer,
and the values come out in one list. The values before a failure are kept.
-/

namespace PackedRecord

structure Unpacked where
  values : List Value
  extent : Extent
  failure : Option Failure
  log : List LogEntry
  deriving DecidableEq, Repr

def unpackFailure (item : Item) : Fault → Failure
  | .pack .unknownFormat => .unknownCode item
  | fault => .itemFailed item fault

def unpackItems (order : ByteOrder) (s : Store) (source : View) :
    List Item → (offset : Nat) → List Value × Option Failure
  | [], _ => ([], none)
  | item :: items, offset =>
      let step := item.unpack order s source offset
      match step.fault with
      | some fault => (step.values, some (unpackFailure item fault))
      | none =>
          let (values, failure) := unpackItems order s source items step.offset
          (step.values ++ values, failure)

/-- Reads all items from the start of a buffer, without a check of its size. -/
def Format.readFrom (format : Format) (s : Store) (source : View) :
    List Value × Option Failure :=
  unpackItems format.order s source format.items 0

def Format.unpack (format : Format) (s : Store) (source : View) : Unpacked :=
  match checkCapacity format.items source.size with
  | (extent, some failure) =>
      ⟨[], extent, some failure, [Operation.unpack.logEntry failure]⟩
  | (extent, none) =>
      let (values, failure) := format.readFrom s source
      ⟨values, extent, failure, failure.toList.map Operation.unpack.logEntry⟩

/-- Unpacks a buffer by a format text. -/
def unpack (text : Bytes) (s : Store) (source : View) : Unpacked :=
  match Format.ofText text with
  | .error failure => ⟨[], ⟨0, 0⟩, some failure, [Operation.unpack.logEntry failure]⟩
  | .ok format => format.unpack s source

end PackedRecord
