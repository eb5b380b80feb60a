import PackedRecord.Record.Unpack

/-!
Unpacking by windows.

A buffer is cut into windows of one stride, and each window is unpacked by the
same format; bytes behind the last full window are never read. A cursor stands
at a window and holds its values, read on arrival. It is done when less than a
stride is left, when the stride is zero, or when a window cannot be read, and
then stays done.
-/

namespace PackedRecord

/-- The windows of a buffer. The stride need not be the size of the format. -/
structure Windows where
  buffer : View
  format : Bytes
  stride : Nat
  deriving DecidableEq, Repr

/-- A place in a run over windows; `rest` is the buffer from its window on. -/
structure Cursor where
  rest : View
  values : List Value
  fault : Option Fault
  done : Bool
  deriving DecidableEq, Repr

namespace Windows

def empty : Windows := ⟨.empty, [], 0⟩

def count (w : Windows) : Nat :=
  w.buffer.size / w.stride

/-- A cursor at the window that begins a rest of the buffer. -/
def load (w : Windows) (s : Store) (rest : View) : Cursor × List LogEntry :=
  match Format.parse w.format with
  | .error _ => (⟨rest, [], some (.pack .invalidFormat), true⟩, [])
  | .ok format =>
      match format.readFrom s rest with
      | (_, some failure) =>
          (⟨rest, [], some failure.fault, true⟩,
            [⟨.warn, Operation.unpackWindows.report failure⟩])
      | (values, none) => (⟨rest, values, none, false⟩, [])

def start (w : Windows) (s : Store) : Cursor × List LogEntry :=
  if w.stride = 0 ∨ w.buffer.size < w.stride then (⟨w.buffer, [], none, true⟩, [])
  else w.load s w.buffer

def next (w : Windows) (s : Store) (c : Cursor) : Cursor × List LogEntry :=
  if c.done then (c, [])
  else
    let rest := c.rest.drop w.stride
    if rest.size < w.stride then (⟨rest, [], c.fault, true⟩, [])
    else w.load s rest

/-- What a run over all windows shows. -/
structure Walk where
  values : List (List Value)
  fault : Option Fault
  log : List LogEntry
  deriving DecidableEq, Repr

/-- Steps from a cursor until it is done, at most `fuel` times. -/
def walkFrom (w : Windows) (s : Store) : (fuel : Nat) → Cursor → Walk
  | 0, c => ⟨[], c.fault, []⟩
  | fuel + 1, c =>
      if c.done then ⟨[], c.fault, []⟩
      else
        let (following, log) := w.next s c
        let rest := w.walkFrom s fuel following
        ⟨c.values :: rest.values, rest.fault, log ++ rest.log⟩

/-- A run over all windows. Each step leaves a shorter rest, so the size of the
buffer bounds the number of steps. -/
def walk (w : Windows) (s : Store) : Walk :=
  let (first, log) := w.start s
  let rest := w.walkFrom s (w.buffer.size + 1) first
  { rest with log := log ++ rest.log }

end Windows

/-- The outcome of asking for windows. After a failure there are none. -/
structure WindowsFound where
  windows : Windows
  extent : Extent
  failure : Option Failure
  log : List LogEntry
  deriving DecidableEq, Repr

def WindowsFound.refused (extent : Extent) (failure : Failure) : WindowsFound :=
  ⟨.empty, extent, some failure, [Operation.unpackWindows.logEntry failure]⟩

/-- The windows of a buffer with the size of a format as stride. The format
must take at least one byte, and the buffer hold at least one window. -/
def unpackWindows (text : Bytes) (buffer : View) : WindowsFound :=
  match Format.ofText text with
  | .error failure => .refused ⟨0, 0⟩ failure
  | .ok format =>
      match checkCapacity format.items buffer.size with
      | (extent, some failure) => .refused extent failure
      | (extent, none) =>
          if extent.required = 0 then .refused extent (.emptyWindow text)
          else ⟨⟨buffer, text, extent.required⟩, extent, none, []⟩

end PackedRecord
