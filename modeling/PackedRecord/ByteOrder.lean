import PackedRecord.Bytes

/-!
Words as bytes in either order.

A word of `w` bytes is a number below `wordCount w`. Writing keeps the low `w`
bytes of any number, so reading back gives the number modulo `wordCount w`, and
writing what was read restores the bytes. The two orders are each other's
reversal. `load` and `store` work byte by byte on the cells of a word, and do
the same.
-/

namespace PackedRecord

inductive ByteOrder where
  | little
  | big
  deriving DecidableEq, Repr

namespace ByteOrder

/-- The number of words of a width. -/
def wordCount (width : Nat) : Nat :=
  Nat.pow 256 width

/-- The low `width` bytes of a number, least significant first. -/
def littleBytes : (width : Nat) → Nat → Bytes
  | 0, _ => []
  | w + 1, n => UInt8.ofNat n :: littleBytes w (n / 256)

def littleValue : Bytes → Nat
  | [] => 0
  | b :: bs => b.toNat + 256 * littleValue bs

def encode (o : ByteOrder) (width n : Nat) : Bytes :=
  match o with
  | little => littleBytes width n
  | big => (littleBytes width n).reverse

def decode (o : ByteOrder) (word : Bytes) : Nat :=
  match o with
  | little => littleValue word
  | big => littleValue word.reverse

/-- Where in a word the byte stands that has so many less significant ones. -/
def place (o : ByteOrder) (width rank : Nat) : Nat :=
  match o with
  | little => rank
  | big => width - 1 - rank

/-- A word with the next less significant byte behind it, cut to the width. -/
def pushByte (o : ByteOrder) (width : Nat) (cells : Bytes) (word i : Nat) : Nat :=
  (word <<< 8 ||| (cells.getD (o.place width (width - 1 - i)) 0).toNat) % wordCount width

/-- Forms a word from its cells, the most significant byte first. -/
def load (o : ByteOrder) (width : Nat) (cells : Bytes) : Nat :=
  (List.range width).foldl (o.pushByte width cells) 0

def putByte (o : ByteOrder) (width n : Nat) (cells : Bytes) (i : Nat) : Bytes :=
  cells.set (o.place width i) (UInt8.ofNat (n >>> (8 * i) &&& 0xFF))

/-- Lays the low bytes of a number over the cells of a word, the least significant first. -/
def store (o : ByteOrder) (width n : Nat) (cells : Bytes) : Bytes :=
  (List.range width).foldl (o.putByte width n) cells

theorem length_littleBytes (w n : Nat) : (littleBytes w n).length = w := by
  induction w generalizing n with
  | zero => rfl
  | succ w ih => simp [littleBytes, ih]

theorem littleValue_littleBytes (w n : Nat) :
    littleValue (littleBytes w n) = n % wordCount w := by
  induction w generalizing n with
  | zero => exact (Nat.mod_one n).symm
  | succ w ih =>
      have hsucc : wordCount (w + 1) = 256 * wordCount w := Nat.mul_comm _ _
      rw [hsucc, Nat.mod_mul]
      simp only [littleBytes, littleValue, ih, UInt8.toNat_ofNat']

theorem littleBytes_littleValue (bs : Bytes) :
    littleBytes bs.length (littleValue bs) = bs := by
  induction bs with
  | nil => rfl
  | cons b bs ih =>
      have hb := b.toNat_lt
      have hdiv : (b.toNat + 256 * littleValue bs) / 256 = littleValue bs := by omega
      have hmod : UInt8.ofNat (b.toNat + 256 * littleValue bs) = b := by
        apply UInt8.toNat_inj.mp
        simp only [UInt8.toNat_ofNat']
        omega
      simp only [List.length_cons, littleBytes, littleValue, hdiv, hmod, ih]

theorem length_encode (o : ByteOrder) (w n : Nat) : (o.encode w n).length = w := by
  cases o <;> simp [encode, length_littleBytes]

/-- Reading back gives the number modulo the range of the width. -/
theorem decode_encode (o : ByteOrder) (w n : Nat) :
    o.decode (o.encode w n) = n % wordCount w := by
  cases o <;> simp [encode, decode, littleValue_littleBytes]

/-- Writing what was read restores the bytes. -/
theorem encode_decode (o : ByteOrder) (bs : Bytes) :
    o.encode bs.length (o.decode bs) = bs := by
  cases o with
  | little => exact littleBytes_littleValue bs
  | big =>
      have h := littleBytes_littleValue bs.reverse
      rw [List.length_reverse] at h
      simp [encode, decode, h]

end ByteOrder

end PackedRecord
