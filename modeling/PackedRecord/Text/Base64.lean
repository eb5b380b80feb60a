import PackedRecord.Error

/-!
Base64.

Three bytes are four digits of six bits; one or two bytes at the end are two
or three digits, filled up with `=` where padding is asked for. Reading takes
the digits of both alphabets, skips white space, and takes any number of `=`
behind the last digit. One digit left over is too little for a byte; what a
last digit has beyond whole bytes is not looked at.
-/

namespace PackedRecord.Base64

/-- The two characters in which the alphabets differ. -/
structure Alphabet where
  digit62 : UInt8
  digit63 : UInt8
  padded : Bool
  deriving DecidableEq, Repr

def standard : Alphabet := ⟨'+'.toUInt8, '/'.toUInt8, true⟩

/-- Safe in addresses and file names, and never padded. -/
def urlSafe : Alphabet := ⟨'-'.toUInt8, '_'.toUInt8, false⟩

def padding : UInt8 := '='.toUInt8

def Alphabet.char (a : Alphabet) (digit : Nat) : UInt8 :=
  if digit < 26 then UInt8.ofNat (65 + digit)
  else if digit < 52 then UInt8.ofNat (97 + (digit - 26))
  else if digit < 62 then UInt8.ofNat (48 + (digit - 52))
  else if digit = 62 then a.digit62
  else a.digit63

/-- The digit of a character of either alphabet. -/
def digit? (b : UInt8) : Option Nat :=
  if 65 ≤ b && b ≤ 90 then some (b.toNat - 65)
  else if 97 ≤ b && b ≤ 122 then some (b.toNat - 97 + 26)
  else if 48 ≤ b && b ≤ 57 then some (b.toNat - 48 + 52)
  else if b == standard.digit62 || b == urlSafe.digit62 then some 62
  else if b == standard.digit63 || b == urlSafe.digit63 then some 63
  else none

def Alphabet.pad (a : Alphabet) (count : Nat) : Bytes :=
  if a.padded then List.replicate count padding else []

def render (a : Alphabet) : Bytes → Bytes
  | [] => []
  | [x] =>
      let v := x.toNat
      [a.char (v / 4), a.char (v % 4 * 16)] ++ a.pad 2
  | [x, y] =>
      let v := x.toNat * 256 + y.toNat
      [a.char (v / 1024), a.char (v / 16 % 64), a.char (v % 16 * 4)] ++ a.pad 1
  | x :: y :: z :: rest =>
      let v := x.toNat * 65536 + y.toNat * 256 + z.toNat
      a.char (v / 262144) :: a.char (v / 4096 % 64) :: a.char (v / 64 % 64) ::
        a.char (v % 64) :: render a rest

/-- Reads the digits of a text into a word from which bytes are taken as soon as
eight bits wait in it. Bits that have been taken stay in the word above the
waiting ones until they are shifted out. -/
def scan : (word : UInt32) → (waiting : Nat) → (padded : Bool) → Bytes → Option Bytes
  | _, waiting, _, [] => if 6 ≤ waiting then none else some []
  | word, waiting, padded, b :: rest =>
      if isSpace b then scan word waiting padded rest
      else if b = padding then scan word waiting true rest
      else
        match digit? b with
        | none => none
        | some digit =>
            if padded then none
            else
              let word := word <<< 6 ||| UInt32.ofNat digit
              if waiting + 6 < 8 then scan word (waiting + 6) padded rest
              else
                let left := waiting + 6 - 8
                (scan word left padded rest).map ((word >>> UInt32.ofNat left).toUInt8 :: ·)

def parse (text : Bytes) : Except CoreError Bytes :=
  match scan 0 0 false text with
  | some bs => .ok bs
  | none => .error .invalidArgument

end PackedRecord.Base64
