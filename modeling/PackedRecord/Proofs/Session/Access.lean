import PackedRecord.Proofs.Session.Confined
import PackedRecord.Proofs.Store.Word

/-!
Access of fixed width.

Each read makes a number of the word that stands in a view, and each write
leaves the word of its number there. What is written is read back by the same
kind of read, and a number that was read is written as the word it was read
from; only a half-width word that is not a number is changed on its way. Both
are refused where the word would end behind the view, and a session is then as
it was before.
-/

namespace PackedRecord

/-- A read of fixed width. -/
inductive Reading where
  | unsigned (size : IntSize)
  | signed (size : IntSize)
  | half
  | single
  | double
  deriving DecidableEq, Repr

def Reading.width : Reading → Nat
  | unsigned size | signed size => size.width
  | half => 2
  | single => 4
  | double => 8

/-- What a read makes of a word. -/
def Reading.datum : Reading → Nat → Datum
  | unsigned size, word => .integer size word
  | signed size, word => .integer size ((word : Int).bmod (ByteOrder.wordCount size.width))
  | half, word => .half (Binary16.toBinary64 ⟨UInt16.ofNat word⟩)
  | single, word => .single ⟨UInt32.ofNat word⟩
  | double, word => .double (.ofNatBits word)

def Datum.width : Datum → Nat
  | integer size _ => size.width
  | half _ => 2
  | single _ => 4
  | double _ => 8

/-- The word that a write leaves. -/
def Datum.word : Datum → Nat
  | integer size n => (n % (ByteOrder.wordCount size.width : Nat)).toNat
  | half x => x.toBinary16.bits.toNat
  | single x => x.bits.toNat
  | double x => x.bits.toNat

def Store.get (s : Store) (v : View) (order : ByteOrder) (offset : Nat) :
    Reading → Except CoreError Datum
  | .unsigned size => (s.readWord v order offset size.width).map fun n => .integer size n
  | .signed size => (s.readInt v order offset size.width).map (.integer size)
  | .half => (s.readBinary16 v order offset).map .half
  | .single => (s.readBinary32 v order offset).map .single
  | .double => (s.readBinary64 v order offset).map .double

/-- The word whose bytes stand in a view from an offset on. -/
def Store.ShowsWord (s : Store) (v : View) (order : ByteOrder) (offset width n : Nat) : Prop :=
  n < 256 ^ width ∧ ∀ rank < width,
    (s.bytes v)[offset + order.place width rank]? = some (UInt8.ofNat (n / 256 ^ rank))

def ByteOrder.other : ByteOrder → ByteOrder
  | little => big
  | big => little

/-- The first word has the bytes of the second, the last one first. -/
def Reversed (width m n : Nat) : Prop :=
  m < 256 ^ width ∧ ∀ rank < width, m / 256 ^ rank % 256 = n / 256 ^ (width - 1 - rank) % 256

theorem ByteOrder.place_other (order : ByteOrder) (width rank : Nat) :
    order.place width (order.other.place width rank) = width - 1 - rank := by
  cases order <;> simp only [place, other]

theorem Datum.word_lt (datum : Datum) : datum.word < ByteOrder.wordCount datum.width := by
  cases datum with
  | integer size n => exact ByteOrder.residue_lt size.width n
  | half x => exact x.toBinary16.bits.toNat_lt
  | single x => exact x.bits.toNat_lt
  | double x => exact x.bits.toNat_lt

namespace Reading

/-- A number that was read has the word that it was read from. -/
theorem word_datum {reading : Reading} (hreading : reading ≠ half) {word : Nat}
    (hword : word < ByteOrder.wordCount reading.width) :
    (reading.datum word).word = word ∧ (reading.datum word).width = reading.width := by
  cases reading with
  | unsigned size =>
      refine ⟨?_, rfl⟩
      rw [datum, Datum.word, ← Int.natCast_emod, Int.toNat_natCast]
      exact Nat.mod_eq_of_lt hword
  | signed size =>
      refine ⟨?_, rfl⟩
      rw [datum, Datum.word, Int.bmod_emod, ← Int.natCast_emod, Int.toNat_natCast]
      exact Nat.mod_eq_of_lt hword
  | half => contradiction
  | single => exact ⟨UInt32.toNat_ofNat_of_lt' hword, rfl⟩
  | double => exact ⟨UInt64.toNat_ofNat_of_lt' hword, rfl⟩

theorem datum_unsigned_word (size : IntSize) (n : Int) :
    (unsigned size).datum (Datum.integer size n).word =
      .integer size (n % 2 ^ (8 * size.width)) := by
  rw [datum, Datum.word, ByteOrder.natCast_residue]

theorem datum_signed_word (size : IntSize) (n : Int) :
    (signed size).datum (Datum.integer size n).word =
      .integer size (n.bmod (2 ^ (8 * size.width))) := by
  rw [datum, Datum.word, ByteOrder.natCast_residue, ByteOrder.wordCount_eq]
  congr 1
  exact_mod_cast Int.emod_bmod n (2 ^ (8 * size.width))

theorem datum_single_word (x : Binary32) : single.datum (Datum.single x).word = .single x := by
  rw [datum, Datum.word, UInt32.ofNat_toNat]

theorem datum_double_word (x : Binary64) : double.datum (Datum.double x).word = .double x := by
  rw [datum, Datum.word, Binary64.ofNatBits, UInt64.ofNat_toNat]

end Reading

namespace Store

variable (s : Store) (v : View) (order : ByteOrder) (offset : Nat)

theorem get_eq (reading : Reading) :
    s.get v order offset reading = (s.readWord v order offset reading.width).map reading.datum := by
  cases reading with
  | unsigned size | signed size | half | single | double =>
      simp only [get, readInt, readBinary16, readBinary32, readBinary64, Reading.width]
      cases s.readWord v order offset _ <;> rfl

theorem put_eq (datum : Datum) :
    s.put v order offset datum = s.writeWord v order offset datum.width datum.word := by
  cases datum <;> rfl

variable {s v} {offset : Nat}

/-- The bytes of one encoded word, each at its place. -/
theorem showsWord_of_cut {width n : Nat} (hlt : n < ByteOrder.wordCount width)
    (hcut : cut (s.bytes v) offset width = order.encode width n) :
    s.ShowsWord v order offset width n := by
  refine ⟨hlt, ?_⟩
  intro rank hrank
  have hplace := order.place_lt hrank
  have hcell := getElem?_cut (s.bytes v) offset width (order.place width rank)
  rw [if_pos hplace, hcut, ByteOrder.getElem?_encode order n hplace,
    order.place_place hrank] at hcell
  exact hcell.symm

theorem confined_patch_word {datum : Datum} (h : offset + datum.width ≤ v.size) :
    s.Confined (s.patch v.block (v.offset + offset) (order.encode datum.width datum.word))
      (v.slice offset (offset + datum.width)) := by
  have hlength := order.length_encode datum.width datum.word
  rw [← hlength] at h
  have hpatch := s.confined_patch v h
  rwa [hlength] at hpatch

section Within

variable (hv : s.Valid v)
include hv

theorem get_eq_outOfRange_iff (reading : Reading) :
    s.get v order offset reading = .error .outOfRange ↔ v.size < offset + reading.width := by
  rw [get_eq]
  constructor
  · intro h
    by_contra hwithin
    rw [readWord_of_le order hv (Nat.le_of_not_lt hwithin)] at h
    contradiction
  · intro h
    rw [readWord_of_lt order h]
    rfl

theorem put_eq_outOfRange_iff (datum : Datum) :
    s.put v order offset datum = .error .outOfRange ↔ v.size < offset + datum.width := by
  rw [put_eq]
  constructor
  · intro h
    by_contra hwithin
    rw [writeWord_of_le order hv (Nat.le_of_not_lt hwithin)] at h
    contradiction
  · intro h
    exact writeWord_of_lt order h _

theorem get_of_le {reading : Reading} (h : offset + reading.width ≤ v.size) :
    s.get v order offset reading =
      .ok (reading.datum (order.decode (cut (s.bytes v) offset reading.width))) := by
  rw [get_eq, readWord_of_le order hv h]
  rfl

theorem put_of_le {datum : Datum} (h : offset + datum.width ≤ v.size) :
    s.put v order offset datum =
      .ok (s.patch v.block (v.offset + offset) (order.encode datum.width datum.word)) := by
  rw [put_eq, writeWord_of_le order hv h]

theorem decode_cut_lt {width : Nat} (h : offset + width ≤ v.size) :
    order.decode (cut (s.bytes v) offset width) < ByteOrder.wordCount width := by
  have hlt := order.decode_lt (cut (s.bytes v) offset width)
  rwa [length_cut (by rwa [length_bytes hv])] at hlt

theorem encode_decode_cut {width : Nat} (h : offset + width ≤ v.size) :
    order.encode width (order.decode (cut (s.bytes v) offset width)) =
      cut (s.bytes v) offset width := by
  have hback := order.encode_decode (cut (s.bytes v) offset width)
  rwa [length_cut (by rwa [length_bytes hv])] at hback

theorem showsWord_decode {width : Nat} (h : offset + width ≤ v.size) :
    s.ShowsWord v order offset width (order.decode (cut (s.bytes v) offset width)) :=
  showsWord_of_cut order (decode_cut_lt order hv h) (encode_decode_cut order hv h).symm

/-- The two orders read the same bytes from opposite ends. -/
theorem reversed_decode {width : Nat} (h : offset + width ≤ v.size) :
    Reversed width (order.other.decode (cut (s.bytes v) offset width))
      (order.decode (cut (s.bytes v) offset width)) := by
  obtain ⟨-, hshown⟩ := showsWord_decode order hv h
  obtain ⟨hlt, hother⟩ := showsWord_decode order.other hv h
  refine ⟨hlt, ?_⟩
  intro rank hrank
  have hmirror : width - 1 - rank < width := by omega
  have hcell := hshown (width - 1 - rank) hmirror
  rw [← order.place_other, order.place_place (order.other.place_lt hrank), hother rank hrank,
    order.place_other] at hcell
  have hbyte := congrArg UInt8.toNat (Option.some.inj hcell)
  rwa [UInt8.toNat_ofNat', UInt8.toNat_ofNat'] at hbyte

/-- What a write leaves in its field is read back by every read of its width. -/
theorem get_patch {reading : Reading} {n : Nat} (h : offset + reading.width ≤ v.size)
    (hn : n < ByteOrder.wordCount reading.width) :
    (s.patch v.block (v.offset + offset) (order.encode reading.width n)).get v order offset
        reading = .ok (reading.datum n) := by
  rw [get_of_le order (valid_patch.mpr hv) h, cut_bytes_patch hv (order.length_encode _ _) h,
    ByteOrder.decode_encode, Nat.mod_eq_of_lt hn]

/-- A number that was read puts back the word it was read from. -/
theorem put_back {t : Store} {reading : Reading} {datum : Datum} (hreading : reading ≠ .half)
    (hget : s.get v order offset reading = .ok datum)
    (hchange : s.Confined t (v.slice offset (offset + reading.width))) :
    t.put v order offset datum = .ok s := by
  have hwithin : offset + reading.width ≤ v.size := by
    by_contra hbeyond
    rw [(get_eq_outOfRange_iff order hv reading).mpr (Nat.lt_of_not_le hbeyond)] at hget
    contradiction
  rw [get_of_le order hv hwithin] at hget
  obtain rfl := Except.ok.inj hget
  obtain ⟨hword, hwidth⟩ := Reading.word_datum hreading (decode_cut_lt order hv hwithin)
  have ht : t.Valid v := by rwa [Valid, hchange.length]
  rw [put_of_le order ht (by rwa [hwidth]), hword, hwidth, encode_decode_cut order hv hwithin,
    patch_back hv hwithin hchange]

end Within

end Store

namespace Session

/-- A read through a live view. -/
def read (σ : Session) (i : Nat) (order : ByteOrder) (offset : UInt64) (reading : Reading) :
    Except CoreError Datum :=
  σ.store.get (σ.view i) order offset.toNat reading

/-- The session after a write through a live view. -/
def write (σ : Session) (i : Nat) (order : ByteOrder) (offset : UInt64) (datum : Datum) :
    Session :=
  σ.step (.change i (.put order offset datum))

section Writes

variable (σ : Session) (i : Nat) (order : ByteOrder) (offset : UInt64) (datum : Datum)

theorem view_write (j : Nat) : (σ.write i order offset datum).view j = σ.view j := rfl

theorem write_of_ok {t : Store}
    (h : σ.store.put (σ.view i) order offset.toNat datum = .ok t) :
    σ.write i order offset datum = { σ with store := t } := by
  rw [write, step, changed, h]

theorem write_of_error {e : CoreError}
    (h : σ.store.put (σ.view i) order offset.toNat datum = .error e) :
    σ.write i order offset datum = σ := by
  rw [write, step, changed, h]

end Writes

section Sound

variable {σ : Session} (hσ : σ.Sound) (i : Nat) (order : ByteOrder) {offset : UInt64}
include hσ

theorem Sound.write (offset : UInt64) (datum : Datum) : (σ.write i order offset datum).Sound :=
  sound_step hσ _

theorem write_of_lt {datum : Datum} (h : (σ.view i).size < offset.toNat + datum.width) :
    σ.write i order offset datum = σ :=
  σ.write_of_error i order offset datum
    ((Store.put_eq_outOfRange_iff order (hσ.view i).valid datum).mpr h)

theorem write_of_le {datum : Datum} (h : offset.toNat + datum.width ≤ (σ.view i).size) :
    σ.write i order offset datum =
      { σ with
        store := σ.store.patch (σ.view i).block ((σ.view i).offset + offset.toNat)
          (order.encode datum.width datum.word) } :=
  σ.write_of_ok i order offset datum (Store.put_of_le order (hσ.view i).valid h)

/-- What a write does that is within the view. -/
theorem put_eq_write {datum : Datum} (h : offset.toNat + datum.width ≤ (σ.view i).size) :
    let τ := σ.write i order offset datum
    τ = { σ with store := τ.store } ∧
      σ.store.put (σ.view i) order offset.toNat datum = .ok τ.store ∧
      σ.store.Confined τ.store
        ((σ.view i).slice offset.toNat (offset.toNat + datum.width)) ∧
      τ.store.ShowsWord (σ.view i) order offset.toNat datum.width datum.word := by
  have hv := (hσ.view i).valid
  intro τ
  have hτ : τ = _ := write_of_le hσ i order h
  rw [hτ]
  refine ⟨rfl, Store.put_of_le order hv h, Store.confined_patch_word order h, ?_⟩
  exact Store.showsWord_of_cut order datum.word_lt
    (Store.cut_bytes_patch hv (order.length_encode _ _) h)

theorem read_write {reading : Reading} {datum : Datum} (hwidth : reading.width = datum.width)
    (h : offset.toNat + datum.width ≤ (σ.view i).size) :
    (σ.write i order offset datum).read i order offset reading =
      .ok (reading.datum datum.word) := by
  have hword := datum.word_lt
  rw [read, view_write, write_of_le hσ i order h]
  rw [← hwidth] at h hword ⊢
  exact Store.get_patch order (hσ.view i).valid h hword

/-- Bytes take back what was read from them, also after another write of that width. -/
theorem write_read {reading : Reading} {datum : Datum} (hreading : reading ≠ .half)
    (hread : σ.read i order offset reading = .ok datum) :
    σ.write i order offset datum = σ ∧ ∀ other : Datum, other.width = reading.width →
      (σ.write i order offset other).write i order offset datum = σ := by
  have hv := (hσ.view i).valid
  refine ⟨σ.write_of_ok i order offset datum
    (Store.put_back order hv hreading hread (.refl _ _)), ?_⟩
  intro other hwidth
  have hwithin : offset.toNat + other.width ≤ (σ.view i).size := by
    by_contra hbeyond
    rw [read, (Store.get_eq_outOfRange_iff order hv reading).mpr (by omega)] at hread
    contradiction
  obtain ⟨hsession, -, hchange, -⟩ := put_eq_write hσ i order hwithin
  rw [hwidth] at hchange
  have hback := Store.put_back order hv hreading hread hchange
  rw [(σ.write i order offset other).write_of_ok i order offset datum hback, hsession]

theorem write_comm {order' : ByteOrder} {offset' : UInt64} {datum datum' : Datum}
    (h : offset.toNat + datum.width ≤ offset'.toNat ∨
      offset'.toNat + datum'.width ≤ offset.toNat) :
    (σ.write i order offset datum).write i order' offset' datum' =
      (σ.write i order' offset' datum').write i order offset datum := by
  have hfirst := hσ.write i order offset datum
  have hsecond := hσ.write i order' offset' datum'
  by_cases hle : offset.toNat + datum.width ≤ (σ.view i).size
  · by_cases hle' : offset'.toNat + datum'.width ≤ (σ.view i).size
    · rw [write_of_le hfirst i order' hle', write_of_le hsecond i order hle, view_write,
        view_write, write_of_le hσ i order hle, write_of_le hσ i order' hle']
      congr 1
      apply Store.patch_comm
      rw [ByteOrder.length_encode, ByteOrder.length_encode]
      omega
    · have hbeyond := Nat.lt_of_not_le hle'
      rw [write_of_lt hfirst i order' hbeyond, write_of_lt hσ i order' hbeyond]
  · have hbeyond := Nat.lt_of_not_le hle
    rw [write_of_lt hσ i order hbeyond, write_of_lt hsecond i order hbeyond]

end Sound

/-- Access of fixed width, through any view of any session. A read or a write is refused
exactly when its word would end behind the view, and a refused write changes
nothing. Any other write leaves the bytes of its word in their places and
nothing else changed, so that all reads of the same width see that word: an
integer comes back as its residue, or as the signed number with that residue,
and a bit pattern as it is. A read sees the word that stands there, and
in the other order the one with the bytes reversed; writing back what was read
restores the bytes, except for a half-width word. Writes of words that do not
overlap can be made in either order. -/
theorem access_laws (actions : List Action) (i : Nat) (order : ByteOrder) (offset : UInt64) :
    let σ := run actions
    let v := σ.view i
    (∀ reading, σ.read i order offset reading = .error .outOfRange ↔
        v.size < offset.toNat + reading.width) ∧
      (∀ datum, σ.store.put v order offset.toNat datum = .error .outOfRange ↔
        v.size < offset.toNat + datum.width) ∧
      (∀ datum, v.size < offset.toNat + datum.width → σ.write i order offset datum = σ) ∧
      (∀ datum, offset.toNat + datum.width ≤ v.size →
        let τ := σ.write i order offset datum
        τ = { σ with store := τ.store } ∧
          σ.store.put v order offset.toNat datum = .ok τ.store ∧
          σ.store.Confined τ.store (v.slice offset.toNat (offset.toNat + datum.width)) ∧
          τ.store.ShowsWord v order offset.toNat datum.width datum.word ∧
          ∀ reading, reading.width = datum.width →
            τ.read i order offset reading = .ok (reading.datum datum.word)) ∧
      (∀ size n, offset.toNat + size.width ≤ v.size →
        let τ := σ.write i order offset (.integer size n)
        τ.read i order offset (.unsigned size) =
            .ok (.integer size (n % 2 ^ (8 * size.width))) ∧
          τ.read i order offset (.signed size) =
            .ok (.integer size (n.bmod (2 ^ (8 * size.width))))) ∧
      (∀ x, offset.toNat + 4 ≤ v.size →
        (σ.write i order offset (.single x)).read i order offset .single = .ok (.single x)) ∧
      (∀ x, offset.toNat + 8 ≤ v.size →
        (σ.write i order offset (.double x)).read i order offset .double = .ok (.double x)) ∧
      (∀ reading, offset.toNat + reading.width ≤ v.size → ∃ n m,
        σ.store.ShowsWord v order offset.toNat reading.width n ∧
          σ.read i order offset reading = .ok (reading.datum n) ∧
          σ.read i order.other offset reading = .ok (reading.datum m) ∧
          Reversed reading.width m n) ∧
      (∀ reading datum, reading ≠ .half → σ.read i order offset reading = .ok datum →
        σ.write i order offset datum = σ ∧ ∀ other : Datum, other.width = reading.width →
          (σ.write i order offset other).write i order offset datum = σ) ∧
      ∀ order' (offset' : UInt64) (datum datum' : Datum),
        offset.toNat + datum.width ≤ offset'.toNat ∨
            offset'.toNat + datum'.width ≤ offset.toNat →
          (σ.write i order offset datum).write i order' offset' datum' =
            (σ.write i order' offset' datum').write i order offset datum := by
  intro σ v
  have hσ : σ.Sound := sound_run actions
  have hv : σ.store.Valid v := (hσ.view i).valid
  refine ⟨?refusedRead, ?refusedWrite, ?unchanged, ?written, ?integers, ?singles, ?doubles,
    ?reversed, ?back, ?disjoint⟩
  case refusedRead => exact Store.get_eq_outOfRange_iff order hv
  case refusedWrite => exact Store.put_eq_outOfRange_iff order hv
  case unchanged => exact fun datum hbeyond => write_of_lt hσ i order hbeyond
  case written =>
    intro datum hwithin τ
    obtain ⟨hsession, hput, hchange, hshown⟩ := put_eq_write hσ i order hwithin
    exact ⟨hsession, hput, hchange, hshown, fun _ hwidth => read_write hσ i order hwidth hwithin⟩
  case integers =>
    intro size n hwithin τ
    refine ⟨?_, ?_⟩
    · rw [← Reading.datum_unsigned_word]
      exact read_write hσ i order rfl hwithin
    · rw [← Reading.datum_signed_word]
      exact read_write hσ i order rfl hwithin
  case singles =>
    intro x hwithin
    rw [read_write hσ i order rfl hwithin, Reading.datum_single_word]
  case doubles =>
    intro x hwithin
    rw [read_write hσ i order rfl hwithin, Reading.datum_double_word]
  case reversed =>
    intro reading hwithin
    exact ⟨_, _, Store.showsWord_decode order hv hwithin, Store.get_of_le order hv hwithin,
      Store.get_of_le order.other hv hwithin, Store.reversed_decode order hv hwithin⟩
  case back => exact fun reading datum => write_read hσ i order
  case disjoint => exact fun order' offset' datum datum' => write_comm hσ i order

/-- A negative number in the last two bytes of three, and words that would end behind them. -/
theorem access_laws_last_bytes :
    let σ := run [.alloc 3]
    let minus : Datum := .integer .short (-2)
    let first : Datum := .integer .byte 7
    let τ := σ.write 0 .big 1 minus
    τ.read 0 .big 1 (.unsigned .short) = .ok (.integer .short 65534) ∧
      τ.read 0 .big 1 (.signed .short) = .ok minus ∧
      (τ.store.bytes (τ.view 0))[2]? = some 0xFE ∧
      σ.write 0 .big 2 minus = σ ∧
      σ.read 0 .little 0xFFFFFFFFFFFFFFFF .double = .error .outOfRange ∧
      τ.write 0 .big 1 (.integer .short 0) = σ ∧
      τ.write 0 .little 0 first = (σ.write 0 .little 0 first).write 0 .big 1 minus := by
  intro σ minus first τ
  obtain ⟨-, -, -, hwritten, hintegers, -, -, -, hback, hdisjoint⟩ :=
    access_laws [.alloc 3] 0 .big 1
  obtain ⟨hunsigned, hsigned⟩ := hintegers .short (-2) (by decide)
  obtain ⟨-, -, -, ⟨-, hbytes⟩, -⟩ := hwritten minus (by decide)
  refine ⟨hunsigned, hsigned, (hbytes 0 (by decide)).trans (by decide), ?_, ?_, ?_, ?_⟩
  · exact (access_laws [.alloc 3] 0 .big 2).2.2.1 minus (by decide)
  · exact ((access_laws [.alloc 3] 0 .little 0xFFFFFFFFFFFFFFFF).1 .double).mpr (by decide)
  · exact (hback (.signed .short) (.integer .short 0) (by decide) (by decide)).2 minus rfl
  · exact hdisjoint .little 0 minus first (.inr (by decide))

end Session

end PackedRecord
