import PackedRecord.Floating.Significant
import PackedRecord.Value.Basic

/-!
Values as text.

Unsigned integers end in `u`, and bytes are written between quotes after a
`b`, each byte as itself when it is visible ASCII and neither a quote nor a
backslash, and as an escape with two hexadecimal digits otherwise. So texts of
different kinds never agree, and a quoted text reads back in one way only.
-/

namespace PackedRecord

namespace Bytes

/-- The written form of one byte between quotes. -/
def escape (b : UInt8) : Bytes :=
  if isPrintable b && b != '"'.toUInt8 && b != '\\'.toUInt8 then [b]
  else '\\'.toUInt8 :: 'x'.toUInt8 :: hexPair b

def quoted (bs : Bytes) : Bytes :=
  ofString "b\"" ++ bs.flatMap escape ++ ofString "\""

end Bytes

def Value.text (s : Store) : Value → Bytes
  | absent => Bytes.ofString "none"
  | bool b => Bytes.ofString (if b then "true" else "false")
  | int n => Bytes.signedDecimal n.toInt
  | uint n => Bytes.decimal n.toNat ++ Bytes.ofString "u"
  | real x => x.text
  | bytes v => Bytes.quoted (s.bytes v)

end PackedRecord
