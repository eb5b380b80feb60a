import PackedRecord.Bytes

/-!
Error codes.

Codes come in two categories, one for access to bytes and one for packing.
A code is a number within its category and has a fixed message; zero stands
for success and a number that is no code has a message of its own.
-/

namespace PackedRecord

inductive ErrorCategory where
  | core
  | pack
  deriving DecidableEq, Repr

/-- Faults of buffer access and of text encodings. -/
inductive CoreError where
  | invalidArgument
  | outOfRange
  deriving DecidableEq, Repr

/-- Faults of formats and of packing. -/
inductive PackError where
  | invalidFormat
  | invalidArgument
  | bufferTooSmall
  | notEnoughValues
  | unknownFormat
  | lengthOverflow
  deriving DecidableEq, Repr

inductive Fault where
  | core (error : CoreError)
  | pack (error : PackError)
  deriving DecidableEq, Repr

namespace ErrorCategory

def name : ErrorCategory → String
  | core => "structbuf.core"
  | pack => "structbuf.pack"

def message : ErrorCategory → Int → String
  | core, 0 => "ok"
  | core, 1 => "invalid argument"
  | core, 2 => "offset out of range"
  | core, _ => "unknown structbuf.core error"
  | pack, 0 => "ok"
  | pack, 1 => "invalid format string"
  | pack, 2 => "invalid value for format item"
  | pack, 3 => "buffer too small"
  | pack, 4 => "not enough values"
  | pack, 5 => "unknown format code"
  | pack, 6 => "packed length overflow"
  | pack, _ => "unknown structbuf.pack error"

end ErrorCategory

def CoreError.code : CoreError → Int
  | invalidArgument => 1
  | outOfRange => 2

def PackError.code : PackError → Int
  | invalidFormat => 1
  | invalidArgument => 2
  | bufferTooSmall => 3
  | notEnoughValues => 4
  | unknownFormat => 5
  | lengthOverflow => 6

namespace Fault

def category : Fault → ErrorCategory
  | core _ => .core
  | pack _ => .pack

def code : Fault → Int
  | core e => e.code
  | pack e => e.code

def message (f : Fault) : String :=
  f.category.message f.code

end Fault

end PackedRecord
