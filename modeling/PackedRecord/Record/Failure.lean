import PackedRecord.Field.Pack
import PackedRecord.Format.Parser
import PackedRecord.Log

/-!
Failures of whole records.

A failure is a cause with what its message has to name. Its fault is the error
code, its message is text for a reader, and each failure is logged once under
the name of the operation.
-/

namespace PackedRecord

inductive Failure where
  /-- The text is no format. -/
  | badFormat (text : Bytes) (error : FormatError)
  /-- A new record of this format would be longer than a buffer may be. -/
  | tooManyBytes (text : Bytes)
  /-- The size of the items is not below the size limit. -/
  | sizeOverflow
  | tooSmall (required actual : Nat)
  /-- Windows of this format would have no bytes. -/
  | emptyWindow (text : Bytes)
  /-- The values ended at an item after so many had been taken. -/
  | notEnoughValues (item : Item) (consumed : Nat)
  /-- The item cannot hold the value at an index; the value is shown if there is one. -/
  | invalidValue (item : Item) (index : Nat) (shown : Option Bytes)
  | unknownCode (item : Item)
  /-- The item ended beyond the buffer. -/
  | itemFailed (item : Item) (fault : Fault)
  deriving DecidableEq, Repr

namespace Failure

def fault : Failure → Fault
  | badFormat _ _ => .pack .invalidFormat
  | tooManyBytes _ => .pack .lengthOverflow
  | sizeOverflow => .pack .lengthOverflow
  | tooSmall _ _ => .pack .bufferTooSmall
  | emptyWindow _ => .pack .invalidFormat
  | notEnoughValues _ _ => .pack .notEnoughValues
  | invalidValue _ _ _ => .pack .invalidArgument
  | unknownCode _ => .pack .unknownFormat
  | itemFailed _ f => f

def message : Failure → Bytes
  | badFormat text e => e.message text
  | tooManyBytes text =>
      Bytes.ofString "format \"" ++ text ++ Bytes.ofString "\" requires too many bytes"
  | sizeOverflow => Bytes.ofString "format length overflows size_t"
  | tooSmall required actual =>
      Bytes.ofString "buffer too small: need " ++ Bytes.decimal required ++
        Bytes.ofString " bytes, got " ++ Bytes.decimal actual
  | emptyWindow text =>
      Bytes.ofString "cannot iteratively unpack with a zero-length format \"" ++ text ++
        Bytes.ofString "\""
  | notEnoughValues item consumed =>
      Bytes.ofString "not enough values for format item '" ++ item.text ++
        Bytes.ofString "' (" ++ Bytes.decimal consumed ++ Bytes.ofString " consumed)"
  | invalidValue item index shown =>
      Bytes.ofString "invalid value #" ++ Bytes.decimal index ++
        Bytes.ofString " for format item '" ++ item.text ++ Bytes.ofString "'" ++
        match shown with
        | some text => Bytes.ofString ": " ++ text
        | none => []
  | unknownCode item => Bytes.ofString "unknown format: " ++ item.text
  | itemFailed item f =>
      Bytes.ofString "format item '" ++ item.text ++ Bytes.ofString "' failed: " ++
        Bytes.ofString f.message

end Failure

inductive Operation where
  | pack
  | unpack
  | unpackWindows
  deriving DecidableEq, Repr

def Operation.name : Operation → String
  | pack => "pack"
  | unpack => "unpack"
  | unpackWindows => "iter_unpack"

def Operation.report (op : Operation) (failure : Failure) : Bytes :=
  Bytes.ofString op.name ++ Bytes.ofString ": " ++ failure.message

def Operation.logEntry (op : Operation) (failure : Failure) : LogEntry :=
  ⟨failure.fault.logLevel, op.report failure⟩

end PackedRecord
