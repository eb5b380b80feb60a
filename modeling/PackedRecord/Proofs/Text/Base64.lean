import Mathlib.Data.List.Forall2
import Mathlib.Tactic.IntervalCases
import PackedRecord.Text.Encoding

/-!
Base64 texts.

The word in which bits wait is longer than what waits in it, and bits that were
taken are above those that wait. So the bytes that are read are those of an
exact number, whatever has been shifted out. Digits written for bytes give the
bytes back, and neither a character of the other alphabet, nor white space, nor
fewer `=` at the end make a difference.
-/

namespace PackedRecord.Base64

/-- A character and what may stand in its place: itself, or its like in the other alphabet. -/
inductive Swapped : UInt8 → UInt8 → Prop where
  | same (b : UInt8) : Swapped b b
  | plus : Swapped '+'.toUInt8 '-'.toUInt8
  | minus : Swapped '-'.toUInt8 '+'.toUInt8
  | slash : Swapped '/'.toUInt8 '_'.toUInt8
  | underscore : Swapped '_'.toUInt8 '/'.toUInt8

/-- A text, and another made from it by swapping characters, leaving out `=` at
the end, and putting in white space anywhere. -/
inductive Respelled : Bytes → Bytes → Prop where
  | nil : Respelled [] []
  | char {b c : UInt8} {source text : Bytes} (h : Swapped b c) (hrest : Respelled source text) :
      Respelled (b :: source) (c :: text)
  | space {c : UInt8} {source text : Bytes} (h : isSpace c = true)
      (hrest : Respelled source text) : Respelled source (c :: text)
  | unpadded {source text : Bytes} (h : ∀ b ∈ source, b = padding)
      (hrest : Respelled source text) : Respelled (padding :: source) text

/-- The digits of bytes, six bits each, the last one filled up with zeros. -/
def digitsOf : Bytes → List Nat
  | [] => []
  | [x] => [x.toNat / 4, x.toNat % 4 * 16]
  | [x, y] =>
      let v := x.toNat * 256 + y.toNat
      [v / 1024, v / 16 % 64, v % 16 * 4]
  | x :: y :: z :: rest =>
      let v := x.toNat * 65536 + y.toNat * 256 + z.toNat
      v / 262144 :: v / 4096 % 64 :: v / 64 % 64 :: v % 64 :: digitsOf rest

/-- The bytes of digits, behind so many bits of a number that wait for them. -/
def gather : (pending waiting : Nat) → List Nat → Option Bytes
  | _, waiting, [] => if 6 ≤ waiting then none else some []
  | pending, waiting, digit :: digits =>
      let number := pending * 64 + digit
      if waiting + 6 < 8 then gather number (waiting + 6) digits
      else
        let left := waiting + 6 - 8
        (gather (number % 2 ^ left) left digits).map (UInt8.ofNat (number / 2 ^ left) :: ·)

section Characters

theorem of_digit? : ∀ b, ∀ digit ∈ digit? b,
    digit < 64 ∧ isSpace b = false ∧ b ≠ padding :=
  forall_byte (by decide)

theorem digit?_char : ∀ a ∈ [standard, urlSafe], ∀ digit < 64,
    digit? (a.char digit) = some digit := by
  decide

theorem Swapped.read {b c : UInt8} (h : Swapped b c) :
    isSpace c = isSpace b ∧ (c = padding ↔ b = padding) ∧ digit? c = digit? b := by
  cases h with
  | same => exact ⟨rfl, Iff.rfl, rfl⟩
  | plus | minus | slash | underscore => decide

end Characters

section Spelling

variable (word : UInt32) (waiting : Nat) (padded : Bool)

theorem scan_space {c : UInt8} (h : isSpace c = true) (text : Bytes) :
    scan word waiting padded (c :: text) = scan word waiting padded text := by
  rw [scan, if_pos h]

theorem scan_padding (text : Bytes) :
    scan word waiting padded (padding :: text) = scan word waiting true text := by
  rw [scan, if_neg (by decide), if_pos rfl]

/-- Only the end of the text is behind its padding. -/
theorem scan_paddings {text : Bytes} (h : ∀ b ∈ text, b = padding) :
    scan word waiting padded text = if 6 ≤ waiting then none else some [] := by
  induction text generalizing padded with
  | nil => rfl
  | cons b text ih =>
      rw [h b (List.mem_cons_self ..), scan_padding]
      exact ih true fun c hc => h c (List.mem_cons_of_mem _ hc)

theorem scan_respelled {source text : Bytes} (h : Respelled source text) :
    scan word waiting padded text = scan word waiting padded source := by
  induction h generalizing word waiting padded with
  | nil => rfl
  | char h hrest ih =>
      obtain ⟨hspace, hpadding, hdigit⟩ := h.read
      simp only [scan, hspace, hpadding, hdigit, ih]
  | space h hrest ih => rw [scan_space _ _ _ h, ih]
  | unpadded h hrest ih => rw [ih, scan_padding, scan_paddings _ _ _ h, scan_paddings _ _ _ h]

end Spelling

section Bits

/-- A digit is put behind the bits of a word, of which the uppermost six are lost. -/
theorem toNat_pushed (word : UInt32) {digit : Nat} (h : digit < 64) :
    (word <<< 6 ||| UInt32.ofNat digit).toNat = word.toNat % 2 ^ 26 * 64 + digit := by
  have hdigit : (UInt32.ofNat digit).toNat = digit :=
    UInt32.toNat_ofNat_of_lt' (Nat.lt_of_lt_of_le h (by decide))
  have hshift : (word <<< 6).toNat = (word.toNat % 2 ^ 26) <<< 6 := by
    rw [UInt32.toNat_shiftLeft, Nat.shiftLeft_eq, Nat.shiftLeft_eq]
    exact Nat.mul_mod_mul_right 64 word.toNat (2 ^ 26)
  rw [UInt32.toNat_or, hdigit, hshift, ← Nat.shiftLeft_add_eq_or_of_lt h, Nat.shiftLeft_eq]

/-- The bits that wait are the lowest of the word, also when a digit has been put behind them. -/
theorem waiting_pushed (word : UInt32) {digit : Nat} (h : digit < 64) {waiting : Nat}
    (hwaiting : waiting < 8) :
    (word <<< 6 ||| UInt32.ofNat digit).toNat % 2 ^ (waiting + 6) =
      word.toNat % 2 ^ waiting * 64 + digit := by
  rw [toNat_pushed word h]
  interval_cases waiting <;> omega

theorem taken_byte (word : UInt32) {left : Nat} (h : left < 32) :
    (word >>> UInt32.ofNat left).toUInt8 =
      UInt8.ofNat (word.toNat % 2 ^ (left + 8) / 2 ^ left) := by
  have hleft : (UInt32.ofNat left).toNat % 32 = left := by
    rw [UInt32.toNat_ofNat_of_lt' (Nat.lt_trans h (by decide)), Nat.mod_eq_of_lt h]
  apply UInt8.toNat_inj.mp
  rw [UInt32.toNat_toUInt8, UInt32.toNat_shiftRight, hleft, Nat.shiftRight_eq_div_pow, Nat.pow_add,
    Nat.mod_mul_right_div_self, UInt8.toNat_ofNat']
  exact (Nat.mod_mod _ _).symm

theorem scan_digits (word : UInt32) {waiting : Nat} (hwaiting : waiting < 8) {text : Bytes}
    {digits : List Nat} (h : List.Forall₂ (fun b digit => digit? b = some digit) text digits)
    {rest : Bytes} (hrest : ∀ b ∈ rest, b = padding) :
    scan word waiting false (text ++ rest) =
      gather (word.toNat % 2 ^ waiting) waiting digits := by
  induction h generalizing word waiting with
  | nil => exact scan_paddings word waiting false hrest
  | @cons b digit text digits hdigit _ ih =>
      obtain ⟨hlt, hspace, hpadding⟩ := of_digit? b digit hdigit
      have hpushed := waiting_pushed word hlt hwaiting
      rw [List.cons_append, scan, hspace, if_neg (by decide), if_neg hpadding, hdigit, gather]
      simp only [Bool.false_eq_true, if_false, ← hpushed]
      split
      next hfew => exact ih _ hfew
      next henough =>
        obtain ⟨left, rfl⟩ : ∃ left, waiting = left + 2 := ⟨waiting - 2, by omega⟩
        have hleft : left + 2 + 6 - 8 = left := by omega
        have hdvd : 2 ^ left ∣ 2 ^ (left + 2 + 6) := Nat.pow_dvd_pow 2 (by omega)
        rw [hleft, ih _ (by omega), taken_byte _ (by omega), Nat.mod_mod_of_dvd _ hdvd]

end Bits

section Bytes

theorem exists_render (a : Alphabet) (bs : Bytes) :
    ∃ count, render a bs = (digitsOf bs).map a.char ++ a.pad count := by
  fun_induction render a bs with
  | case1 => exact ⟨0, by simp [Alphabet.pad, digitsOf]⟩
  | case2 => exact ⟨2, rfl⟩
  | case3 => exact ⟨1, rfl⟩
  | case4 x y z rest v ih =>
      obtain ⟨count, hrest⟩ := ih
      exact ⟨count, by rw [hrest]; rfl⟩

theorem lt_of_mem_digitsOf {bs : Bytes} {digit : Nat} (h : digit ∈ digitsOf bs) : digit < 64 := by
  fun_induction digitsOf bs with
  | case1 => contradiction
  | case2 x =>
      have hx := x.toNat_lt
      simp only [List.mem_cons, List.not_mem_nil, or_false] at h
      omega
  | case3 x y v =>
      have hx := x.toNat_lt
      have hy := y.toNat_lt
      simp only [List.mem_cons, List.not_mem_nil, or_false] at h
      omega
  | case4 x y z rest v ih =>
      have hx := x.toNat_lt
      have hy := y.toNat_lt
      have hz := z.toNat_lt
      simp only [List.mem_cons] at h
      rcases h with h | h | h | h | h
      · omega
      · omega
      · omega
      · omega
      · exact ih h

theorem gather_two (p q : Nat) : gather 0 0 [p, q] = some [UInt8.ofNat ((p * 64 + q) / 16)] := by
  simp only [gather, Nat.reduceAdd, Nat.reduceSub, Nat.reducePow, Nat.reduceLT, Nat.reduceLeDiff,
    if_true, if_false, Nat.zero_mul, Nat.zero_add, Option.map_some]

theorem gather_three (p q r : Nat) :
    gather 0 0 [p, q, r] =
      some [UInt8.ofNat ((p * 64 + q) / 16), UInt8.ofNat (((p * 64 + q) % 16 * 64 + r) / 4)] := by
  simp only [gather, Nat.reduceAdd, Nat.reduceSub, Nat.reducePow, Nat.reduceLT, Nat.reduceLeDiff,
    if_true, if_false, Nat.zero_mul, Nat.zero_add, Option.map_some]

/-- Four digits are three bytes, and nothing waits behind them. -/
theorem gather_four (p q r t : Nat) (rest : List Nat) :
    gather 0 0 (p :: q :: r :: t :: rest) =
      (gather 0 0 rest).map fun bs =>
        UInt8.ofNat ((p * 64 + q) / 16) :: UInt8.ofNat (((p * 64 + q) % 16 * 64 + r) / 4) ::
          UInt8.ofNat (((p * 64 + q) % 16 * 64 + r) % 4 * 64 + t) :: bs := by
  simp only [gather, Nat.reduceAdd, Nat.reduceSub, Nat.reducePow, Nat.reduceLT, if_true, if_false,
    Nat.zero_mul, Nat.zero_add, Nat.mod_one, Nat.div_one, Option.map_map, Function.comp_def]

theorem ofNat_of_eq {n : Nat} {x : UInt8} (h : n = x.toNat) : UInt8.ofNat n = x := by
  rw [h, UInt8.ofNat_toNat]

/-- The digits of bytes give the bytes back. -/
theorem gather_digitsOf (bs : Bytes) : gather 0 0 (digitsOf bs) = some bs := by
  fun_induction digitsOf bs with
  | case1 => rfl
  | case2 x =>
      rw [gather_two, ofNat_of_eq (x := x) (by omega)]
  | case3 x y v =>
      have hx := x.toNat_lt
      have hy := y.toNat_lt
      rw [gather_three, ofNat_of_eq (x := x) (by omega), ofNat_of_eq (x := y) (by omega)]
  | case4 x y z rest v ih =>
      have hx := x.toNat_lt
      have hy := y.toNat_lt
      have hz := z.toNat_lt
      rw [gather_four, ih, ofNat_of_eq (x := x) (by omega), ofNat_of_eq (x := y) (by omega),
        ofNat_of_eq (x := z) (by omega), Option.map_some]

theorem scan_render {a : Alphabet} (ha : a ∈ [standard, urlSafe]) (bs : Bytes) :
    scan 0 0 false (render a bs) = some bs := by
  obtain ⟨count, hrender⟩ := exists_render a bs
  have hpad : ∀ b ∈ a.pad count, b = padding := by
    intro b hb
    rw [Alphabet.pad] at hb
    split at hb
    · exact (List.mem_replicate.mp hb).2
    · contradiction
  have hdigits : List.Forall₂ (fun b digit => digit? b = some digit)
      ((digitsOf bs).map a.char) (digitsOf bs) := by
    rw [List.forall₂_map_left_iff, List.forall₂_same]
    exact fun digit h => digit?_char a ha digit (lt_of_mem_digitsOf h)
  rw [hrender, scan_digits 0 (by decide) hdigits hpad]
  exact gather_digitsOf bs

end Bytes

/-- A text written for bytes in either alphabet, and every respelling of it, is read as these
bytes, whichever alphabet is asked for. -/
theorem decode_respelled {e : Encoding} (he : e = .base64 ∨ e = .base64url) {bs text : Bytes}
    (h : Respelled (e.encode bs) text) :
    Encoding.base64.decode text = .ok bs ∧ Encoding.base64url.decode text = .ok bs := by
  have hread : scan 0 0 false text = some bs := by
    rw [scan_respelled 0 0 false h]
    rcases he with rfl | rfl
    · exact scan_render (by decide) bs
    · exact scan_render (by decide) bs
  have hparse : parse text = .ok bs := by rw [parse, hread]
  exact ⟨hparse, hparse⟩

/-- Both characters swapped, a space between them, and no padding. -/
theorem decode_respelled_mixed :
    let text := Bytes.ofChars ['-', ' ', '_', '8']
    Respelled (Encoding.base64.encode [0xFB, 0xFF]) text ∧
      Encoding.base64.decode text = .ok [0xFB, 0xFF] ∧
      Encoding.base64url.decode text = .ok [0xFB, 0xFF] := by
  intro text
  have h : Respelled (Encoding.base64.encode [0xFB, 0xFF]) text := by
    have hsource : Encoding.base64.encode [0xFB, 0xFF] = Bytes.ofChars ['+', '/', '8', '='] := by
      decide
    rw [hsource]
    exact .char .plus (.space (by decide) (.char .slash (.char (.same _)
      (.unpadded (by simp) .nil))))
  exact ⟨h, decode_respelled (.inl rfl) h⟩

end PackedRecord.Base64
