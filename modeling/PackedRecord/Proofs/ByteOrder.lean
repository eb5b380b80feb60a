import Mathlib.Algebra.Ring.Int.Defs
import Mathlib.Algebra.Ring.Nat
import Mathlib.Data.List.Basic
import PackedRecord.ByteOrder

/-!
Words and residues.

There are as many words of a width as there are residues, so a word that was
read is in range, and the word that is written for an integer is its residue. A
word of 64 bits stands for a residue too, however it was formed, and writing its
low bytes writes the residue of a narrower field. Words that are formed or laid
down byte by byte are the same words, as each round deals with the byte of one
rank.
-/

namespace PackedRecord

section Words

theorem toNat_wordOfInt (n : Int) : ((UInt64.ofInt n).toNat : Int) = n % 2 ^ 64 := by
  have hlt : (n % 2 ^ 64).toNat < 2 ^ 64 := by omega
  rw [UInt64.ofInt, UInt64.toNat_ofNat_of_lt' hlt]
  omega

theorem wordOfInt_natCast (m : UInt64) : UInt64.ofInt m.toNat = m := by
  have hlt := m.toNat_lt
  have hword := toNat_wordOfInt m.toNat
  rw [← UInt64.toNat_inj]
  omega

theorem wordOfInt_toInt (m : Int64) : UInt64.ofInt m.toInt = m.toUInt64 := by
  have hlt := m.toUInt64.toNat_lt
  have hword := toNat_wordOfInt m.toInt
  have hmod := Int.bmod_emod (x := m.toUInt64.toNat) (m := 2 ^ 64)
  have hsigned : m.toInt = (m.toUInt64.toNat : Int).bmod (2 ^ 64) :=
    BitVec.toInt_eq_toNat_bmod m.toBitVec
  rw [← hsigned] at hmod
  push_cast at hmod
  rw [← UInt64.toNat_inj]
  omega

theorem toUInt64_ofInt (n : Int) : (Int64.ofInt n).toUInt64 = UInt64.ofInt n := by
  have hmod := Int.bmod_emod (x := n) (m := Int64.size)
  rw [show ((Int64.size : ℕ) : Int) = 2 ^ 64 from rfl] at hmod
  rw [← wordOfInt_toInt, Int64.toInt_ofInt, UInt64.ofInt, hmod]
  rfl

/-- A word is formed by the sign of its integer. -/
theorem word_of_sign {n : Int} (hhigh : n < 2 ^ 64) :
    (if n < 0 then (Int64.ofInt n).toUInt64 else UInt64.ofNat n.toNat) = UInt64.ofInt n := by
  by_cases hneg : n < 0
  · rw [if_pos hneg, toUInt64_ofInt]
  · rw [if_neg hneg, UInt64.ofInt, Int.emod_eq_of_lt (by omega) hhigh]

end Words

namespace ByteOrder

theorem wordCount_eq (width : Nat) : wordCount width = 2 ^ (8 * width) := by
  rw [Nat.pow_mul]
  rfl

theorem wordCount_pos (width : Nat) : 0 < wordCount width :=
  Nat.pow_pos (by decide)

theorem residue_lt (width : Nat) (n : Int) :
    (n % (wordCount width : Nat)).toNat < wordCount width := by
  have hpos := wordCount_pos width
  have hlow := Int.emod_nonneg n (Int.natCast_ne_zero.mpr (Nat.ne_of_gt hpos))
  have hhigh := Int.emod_lt_of_pos n (Int.natCast_pos.mpr hpos)
  omega

theorem natCast_residue (width : Nat) (n : Int) :
    ((n % (wordCount width : Nat)).toNat : Int) = n % 2 ^ (8 * width) := by
  have hpos := Int.natCast_ne_zero.mpr (Nat.ne_of_gt (wordCount_pos width))
  rw [Int.toNat_of_nonneg (Int.emod_nonneg n hpos), wordCount_eq]
  push_cast
  rfl

theorem encode_mod (order : ByteOrder) (width n : Nat) :
    order.encode width (n % wordCount width) = order.encode width n := by
  have h := order.encode_decode (order.encode width n)
  rw [length_encode, decode_encode] at h
  exact h

/-- The low bytes of a word of 64 bits are the residue of its integer. -/
theorem encode_wordOfInt (order : ByteOrder) {width : Nat} (h : width ≤ 8) (n : Int) :
    order.encode width (UInt64.ofInt n).toNat =
      order.encode width (n % (wordCount width : Nat)).toNat := by
  have hdvd : ((wordCount width : Nat) : Int) ∣ 2 ^ 64 := by
    rw [wordCount_eq]
    exact_mod_cast Nat.pow_dvd_pow 2 (show 8 * width ≤ 64 by omega)
  have hword : (((UInt64.ofInt n).toNat % wordCount width : Nat) : Int) =
      n % (wordCount width : Nat) := by
    rw [Int.natCast_emod, toNat_wordOfInt, Int.emod_emod_of_dvd _ hdvd]
  rw [← encode_mod, ← hword, Int.toNat_natCast]

theorem decode_lt (order : ByteOrder) (data : Bytes) :
    order.decode data < wordCount data.length := by
  have hself := congrArg order.decode (order.encode_decode data)
  rw [decode_encode] at hself
  rw [← hself]
  exact Nat.mod_lt _ (wordCount_pos _)

section Places

variable (order : ByteOrder) {width : Nat}

theorem place_lt {rank : Nat} (h : rank < width) : order.place width rank < width := by
  cases order <;> simp only [place] <;> omega

/-- Each order is its own inverse, so that the place of a rank is also the rank of a place. -/
theorem place_place {rank : Nat} (h : rank < width) :
    order.place width (order.place width rank) = rank := by
  cases order <;> simp only [place]
  omega

theorem place_eq_iff {i j : Nat} (hi : i < width) (hj : j < width) :
    order.place width i = j ↔ i = order.place width j := by
  constructor
  · rintro rfl
    exact (order.place_place hi).symm
  · rintro rfl
    exact order.place_place hj

end Places

theorem getElem?_littleBytes {width i : Nat} (n : Nat) (h : i < width) :
    (littleBytes width n)[i]? = some (UInt8.ofNat (n / 256 ^ i)) := by
  induction width generalizing n i with
  | zero => contradiction
  | succ width ih =>
      cases i with
      | zero => simp [littleBytes]
      | succ i =>
          rw [littleBytes, List.getElem?_cons_succ, ih _ (Nat.lt_of_succ_lt_succ h),
            Nat.div_div_eq_div_mul, Nat.pow_succ']

/-- The byte at a place of a word. -/
theorem getElem?_encode (order : ByteOrder) {width i : Nat} (n : Nat) (h : i < width) :
    (order.encode width n)[i]? = some (UInt8.ofNat (n / 256 ^ order.place width i)) := by
  cases order with
  | little => exact getElem?_littleBytes n h
  | big =>
      have hlength := length_littleBytes width n
      rw [encode, List.getElem?_reverse (by rwa [hlength]), hlength]
      exact getElem?_littleBytes n (by omega)

section Loops

variable (order : ByteOrder) {width : Nat} {cells : Bytes}

theorem byte_shifted (n i : Nat) :
    UInt8.ofNat (n >>> (8 * i) &&& 0xFF) = UInt8.ofNat (n / 256 ^ i) := by
  rw [Nat.and_two_pow_sub_one_eq_mod _ 8, Nat.shiftRight_eq_div_pow, Nat.pow_mul]
  exact UInt8.ofNat_mod_size

/-- After so many rounds the bytes of as many ranks are in their places. -/
theorem store_rounds (n : Nat) (hcells : cells.length = width) {rounds : Nat}
    (hrounds : rounds ≤ width) :
    let stored := (List.range rounds).foldl (order.putByte width n) cells
    stored.length = width ∧ ∀ i < width,
      stored[i]? =
        if order.place width i < rounds then some (UInt8.ofNat (n / 256 ^ order.place width i))
        else cells[i]? := by
  induction rounds with
  | zero => exact ⟨hcells, fun i _ => rfl⟩
  | succ rounds ih =>
      obtain ⟨hlength, hstored⟩ := ih (Nat.le_of_succ_le hrounds)
      rw [List.range_succ, List.foldl_append, List.foldl_cons, List.foldl_nil, putByte]
      refine ⟨by rw [List.length_set, hlength], ?_⟩
      intro i hi
      have hplace := order.place_eq_iff hrounds hi
      rw [List.getElem?_set, hlength, byte_shifted]
      by_cases hround : order.place width rounds = i
      · rw [if_pos hround, if_pos (hround ▸ hi), if_pos (by omega), ← hplace.mp hround]
      · rw [if_neg hround, hstored i hi]
        have hne : rounds ≠ order.place width i := mt hplace.mpr hround
        by_cases hlt : order.place width i < rounds
        · rw [if_pos hlt, if_pos (by omega)]
        · rw [if_neg hlt, if_neg (by omega)]

/-- The loop over the bytes of a word writes the word. -/
theorem store_eq_encode (n : Nat) (hcells : cells.length = width) :
    order.store width n cells = order.encode width n := by
  obtain ⟨hlength, hstored⟩ := order.store_rounds n hcells (Nat.le_refl width)
  rw [store]
  apply List.ext_getElem?
  intro i
  by_cases hi : i < width
  · rw [hstored i hi, if_pos (order.place_lt hi), getElem?_encode _ _ hi]
  · rw [List.getElem?_eq_none (by omega), List.getElem?_eq_none (by rw [length_encode]; omega)]

theorem littleValue_lt (bs : Bytes) : littleValue bs < wordCount bs.length :=
  little.decode_lt bs

/-- A byte behind the bits of a word that leaves room for it. -/
theorem pushed_byte (b : UInt8) {word : Nat} (h : b.toNat + 256 * word < wordCount width) :
    (word <<< 8 ||| b.toNat) % wordCount width = b.toNat + 256 * word := by
  rw [← Nat.shiftLeft_add_eq_or_of_lt b.toNat_lt, Nat.shiftLeft_eq, Nat.add_comm, Nat.mul_comm]
  exact Nat.mod_eq_of_lt h

/-- After so many rounds the word has as many of the last bytes. -/
theorem load_rounds_little (hcells : cells.length = width) {rounds : Nat}
    (hrounds : rounds ≤ width) :
    (List.range rounds).foldl (little.pushByte width cells) 0 =
      littleValue (cells.drop (width - rounds)) := by
  induction rounds with
  | zero =>
      rw [Nat.sub_zero, ← hcells, List.drop_length]
      rfl
  | succ rounds ih =>
      have hlt : width - 1 - rounds < cells.length := by omega
      have hdrop : cells.drop (width - (rounds + 1)) =
          cells[width - 1 - rounds] :: cells.drop (width - rounds) := by
        have hfirst : width - (rounds + 1) = width - 1 - rounds := by omega
        have hnext : width - 1 - rounds + 1 = width - rounds := by omega
        rw [hfirst, List.drop_eq_getElem_cons hlt, hnext]
      have hvalue := littleValue_lt (cells.drop (width - (rounds + 1)))
      have hroom : wordCount (cells.drop (width - (rounds + 1))).length ≤ wordCount width :=
        Nat.pow_le_pow_right (by decide) (by rw [List.length_drop]; omega)
      rw [hdrop, littleValue, ← hdrop] at hvalue
      rw [List.range_succ, List.foldl_append, List.foldl_cons, List.foldl_nil,
        ih (Nat.le_of_succ_le hrounds), hdrop, littleValue, pushByte, place,
        List.getD_eq_getElem?_getD, List.getElem?_eq_getElem hlt, Option.getD_some]
      exact pushed_byte _ (Nat.lt_of_lt_of_le hvalue hroom)

/-- In the big order the same bytes are met from the other end. -/
theorem load_big (hcells : cells.length = width) :
    big.load width cells = little.load width cells.reverse := by
  rw [load, load]
  apply List.foldl_ext
  intro word i hi
  have hlt := List.mem_range.mp hi
  have hplace : width - 1 - (width - 1 - i) = i := by omega
  have hmirror : cells.length - 1 - (width - 1 - i) = i := by omega
  simp only [pushByte, place, List.getD_eq_getElem?_getD]
  rw [List.getElem?_reverse (by omega), hplace, hmirror]

/-- The loop over the bytes of a word reads the word. -/
theorem load_eq_decode (hcells : cells.length = width) :
    order.load width cells = order.decode cells := by
  have hlittle {cells : Bytes} (hcells : cells.length = width) :
      little.load width cells = littleValue cells := by
    rw [load, load_rounds_little hcells (Nat.le_refl width), Nat.sub_self, List.drop_zero]
  cases order with
  | little => exact hlittle hcells
  | big =>
      rw [load_big hcells]
      exact hlittle (by rwa [List.length_reverse])

end Loops

end ByteOrder

end PackedRecord
