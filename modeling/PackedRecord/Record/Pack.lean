import PackedRecord.Record.Capacity
import PackedRecord.Value.Text

/-!
Packing records.

The items of a format are packed one after the other without gaps, each taking
its values from what the items before it left. The first fault ends the run;
what was written until then stays. Values that no item took are ignored, which
is noted in the log.
-/

namespace PackedRecord

/-- Buffers are at most this long. -/
def maxBufferSize : Nat := 0x7FFFFFFF

/-- The outcome of packing. The numbers stand also after a failure, and the
buffer is empty when the failure came before the first item. -/
structure Packed where
  store : Store
  buffer : View
  extent : Extent
  written : Nat
  failure : Option Failure
  log : List LogEntry
  deriving DecidableEq, Repr

structure PackRun where
  store : Store
  progress : Progress
  failure : Option Failure
  deriving DecidableEq, Repr

/-- The failure that a fault in an item amounts to. The progress counts values
from the first of all. -/
def packFailure (item : Item) (values : List Value) (s : Store) (consumed : Nat) :
    Fault → Failure
  | .pack .notEnoughValues => .notEnoughValues item consumed
  | .pack .invalidArgument =>
      .invalidValue item consumed (values[consumed]?.map (·.text s))
  | .pack .unknownFormat => .unknownCode item
  | fault => .itemFailed item fault

/-- Packs items from a given progress on; `values` are all values there are. -/
def packItems (order : ByteOrder) (target : View) (values : List Value) :
    List Item → Store → Progress → PackRun
  | [], s, p => ⟨s, p, none⟩
  | item :: items, s, p =>
      let step := item.pack order target (values.drop p.consumed) s p.offset
      let reached : Progress := ⟨step.progress.offset, p.consumed + step.progress.consumed⟩
      match step.fault with
      | some fault =>
          ⟨step.store, reached, some (packFailure item values step.store reached.consumed fault)⟩
      | none => packItems order target values items step.store reached

def trailingNote (extra : Nat) : List LogEntry :=
  if extra = 0 then []
  else
    [⟨.debug,
      Bytes.ofString "pack: " ++ Bytes.decimal extra ++
        Bytes.ofString " trailing value(s) ignored"⟩]

def Packed.refused (s : Store) (extent : Extent) (failure : Failure) : Packed :=
  ⟨s, .empty, extent, 0, some failure, [Operation.pack.logEntry failure]⟩

/-- Packs values into a buffer that is already there. -/
def Format.packInto (format : Format) (s : Store) (target : View) (values : List Value) :
    Packed :=
  match checkCapacity format.items target.size with
  | (extent, some failure) => .refused s extent failure
  | (extent, none) =>
      let run := packItems format.order target values format.items s ⟨0, 0⟩
      match run.failure with
      | some failure =>
          ⟨run.store, target, extent, run.progress.offset, some failure,
            [Operation.pack.logEntry failure]⟩
      | none =>
          ⟨run.store, target, extent, run.progress.offset, none,
            trailingNote (values.length - run.progress.consumed)⟩

/-- Packs values into a buffer by a format text. -/
def packInto (text : Bytes) (s : Store) (target : View) (values : List Value) : Packed :=
  match Format.ofText text with
  | .error failure => .refused s ⟨0, 0⟩ failure
  | .ok format => format.packInto s target values

/-- Packs values into a new buffer of exactly the size the format needs. -/
def pack (text : Bytes) (s : Store) (values : List Value) : Packed :=
  match Format.ofText text with
  | .error failure => .refused s ⟨0, 0⟩ failure
  | .ok format =>
      match packedSize format.items with
      | .error _ => .refused s ⟨0, 0⟩ (.tooManyBytes text)
      | .ok required =>
          if maxBufferSize < required then .refused s ⟨required, 0⟩ (.tooManyBytes text)
          else
            let (s, target) := s.alloc required
            format.packInto s target values

end PackedRecord
