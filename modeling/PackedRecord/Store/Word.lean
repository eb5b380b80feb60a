import PackedRecord.ByteOrder
import PackedRecord.Error
import PackedRecord.Floating.Words
import PackedRecord.Store.Basic

/-!
Words in a view.

A word is read or written at an offset within a view, in either byte order.
An access fails exactly when the word would end past the view, and then
changes nothing. Signed words are read as two's complement; any integer may be
written and keeps its low bytes.
-/

namespace PackedRecord

namespace Store

def readWord (s : Store) (v : View) (order : ByteOrder) (offset width : Nat) :
    Except CoreError Nat :=
  match v.field? offset width with
  | some field => .ok (order.load width (s.bytes field))
  | none => .error .outOfRange

def writeWord (s : Store) (v : View) (order : ByteOrder) (offset width n : Nat) :
    Except CoreError Store :=
  match v.field? offset width with
  | some field => .ok (s.write field (order.store width n (s.bytes field)))
  | none => .error .outOfRange

def readInt (s : Store) (v : View) (order : ByteOrder) (offset width : Nat) :
    Except CoreError Int :=
  (s.readWord v order offset width).map fun n => (n : Int).bmod (ByteOrder.wordCount width)

def writeInt (s : Store) (v : View) (order : ByteOrder) (offset width : Nat) (n : Int) :
    Except CoreError Store :=
  s.writeWord v order offset width (n % (ByteOrder.wordCount width : Nat)).toNat

def readBinary16 (s : Store) (v : View) (order : ByteOrder) (offset : Nat) :
    Except CoreError Binary64 :=
  (s.readWord v order offset 2).map fun n => Binary16.toBinary64 ⟨UInt16.ofNat n⟩

def readBinary32 (s : Store) (v : View) (order : ByteOrder) (offset : Nat) :
    Except CoreError Binary32 :=
  (s.readWord v order offset 4).map fun n => ⟨UInt32.ofNat n⟩

def readBinary64 (s : Store) (v : View) (order : ByteOrder) (offset : Nat) :
    Except CoreError Binary64 :=
  (s.readWord v order offset 8).map Binary64.ofNatBits

/-- A double written as the nearest half-width word. -/
def writeBinary16 (s : Store) (v : View) (order : ByteOrder) (offset : Nat) (x : Binary64) :
    Except CoreError Store :=
  s.writeWord v order offset 2 x.toBinary16.bits.toNat

def writeBinary32 (s : Store) (v : View) (order : ByteOrder) (offset : Nat) (x : Binary32) :
    Except CoreError Store :=
  s.writeWord v order offset 4 x.bits.toNat

def writeBinary64 (s : Store) (v : View) (order : ByteOrder) (offset : Nat) (x : Binary64) :
    Except CoreError Store :=
  s.writeWord v order offset 8 x.bits.toNat

end Store

end PackedRecord
