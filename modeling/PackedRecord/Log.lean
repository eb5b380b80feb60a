import PackedRecord.Error

/-!
Log entries.

An operation returns what it has to say as a list of entries; whether a level
is shown is the caller's decision. Entries are made at two levels: a format
code that no item can have is a warning, and everything else is for debugging.
-/

namespace PackedRecord

inductive LogLevel where
  | trace
  | debug
  | info
  | warn
  | error
  | critical
  | off
  deriving DecidableEq, Repr

namespace LogLevel

/-- The level in force before anyone sets one. -/
def initial : LogLevel := .warn

def all : List LogLevel :=
  [.trace, .debug, .info, .warn, .error, .critical, .off]

def name : LogLevel → String
  | trace => "trace"
  | debug => "debug"
  | info => "info"
  | warn => "warn"
  | error => "error"
  | critical => "critical"
  | off => "off"

def ofName? (s : String) : Option LogLevel :=
  all.find? (·.name == s)

end LogLevel

structure LogEntry where
  level : LogLevel
  text : Bytes
  deriving DecidableEq, Repr

/-- The level at which a failure is reported. -/
def Fault.logLevel : Fault → LogLevel
  | .pack .unknownFormat => .warn
  | _ => .debug

end PackedRecord
