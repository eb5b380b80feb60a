import PackedRecord.Text.Base64
import PackedRecord.Text.Hex
import PackedRecord.Text.Utf16

/-!
Named encodings between bytes and text.

The text side is UTF-8. `encode` writes bytes as text and never fails;
`decode` reads a text back and refuses one that the encoding cannot have
written in some spelling. Latin-1 maps each byte to the character of that
number and keeps the low byte of greater characters.
-/

namespace PackedRecord

inductive Encoding where
  | utf8
  | latin1
  | hex
  | base64
  | base64url
  | utf16le
  deriving DecidableEq, Repr

namespace Encoding

def name : Encoding → String
  | utf8 => "utf8"
  | latin1 => "latin1"
  | hex => "hex"
  | base64 => "base64"
  | base64url => "base64url"
  | utf16le => "utf16le"

/-- All accepted names, in lower case. -/
def aliases : List (String × Encoding) :=
  [("utf8", utf8), ("utf-8", utf8), ("latin1", latin1), ("binary", latin1), ("ascii", latin1),
    ("hex", hex), ("base64", base64), ("base64url", base64url), ("utf16le", utf16le),
    ("utf-16le", utf16le), ("ucs2", utf16le), ("ucs-2", utf16le)]

/-- Upper-case ASCII letters in lower case. -/
def lowerCase (b : UInt8) : UInt8 :=
  if 65 ≤ b && b ≤ 90 then b + 32 else b

/-- The encoding of a name, whatever the case of its letters. -/
def ofName (text : Bytes) : Except CoreError Encoding :=
  match aliases.find? fun entry => Bytes.ofString entry.1 == text.map lowerCase with
  | some entry => .ok entry.2
  | none => .error .invalidArgument

def latin1Text (bs : Bytes) : Bytes :=
  bs.flatMap fun b => Utf8.charBytes b.toNat

/-- Bytes made from the characters of a well-formed text. -/
def ofCharacters (text : Bytes) (bytesOf : List Char → Bytes) : Except CoreError Bytes :=
  match Utf8.decode? text with
  | some cs => .ok (bytesOf cs)
  | none => .error .invalidArgument

def decode (e : Encoding) (text : Bytes) : Except CoreError Bytes :=
  match e with
  | utf8 => .ok text
  | latin1 => ofCharacters text fun cs => cs.map fun c => UInt8.ofNat c.toNat
  | hex => Hex.parse text
  | base64 | base64url => Base64.parse text
  | utf16le => ofCharacters text fun cs => Utf16.littleEndian (Utf16.ofChars cs)

def encode (e : Encoding) (bs : Bytes) : Bytes :=
  match e with
  | utf8 => bs
  | latin1 => latin1Text bs
  | hex => Hex.render bs
  | base64 => Base64.render Base64.standard bs
  | base64url => Base64.render Base64.urlSafe bs
  | utf16le => Utf8.write (Utf16.toChars (Utf16.unitsOfBytes bs))

end Encoding

end PackedRecord
