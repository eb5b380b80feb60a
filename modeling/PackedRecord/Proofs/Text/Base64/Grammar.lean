import PackedRecord.Proofs.Text.Base64

/-!
The language of Base64 texts.

White space left out, a text is a run of characters of the two alphabets and
then `=` characters only. The bits of its digits, six each, are cut into bytes.
What is left behind the last byte is dropped, unless it is a whole digit: no
count of bytes has digits that end so. The bits that wait for more are carried
along, so the bytes are cut from the joined bits however long the run is.
-/

namespace PackedRecord.Base64

/-- The digits of a number from its most significant bit on. -/
def bits (width n : Nat) : List Bool :=
  (List.range width).map fun i => n.testBit (width - 1 - i)

/-- The bits of bytes one after the other. -/
def byteBits (bs : Bytes) : List Bool :=
  bs.flatMap fun b => bits 8 b.toNat

def digitBits (digits : List Nat) : List Bool :=
  digits.flatMap (bits 6)

def blanks : Bytes :=
  Bytes.ofChars [' ', '\t', '\n', '\x0b', '\x0c', '\r']

def standardAlphabet : Bytes :=
  Bytes.ofString "ABCDEFGHIJKLMNOPQRSTUVWXYZabcdefghijklmnopqrstuvwxyz0123456789+/"

def urlSafeAlphabet : Bytes :=
  Bytes.ofString "ABCDEFGHIJKLMNOPQRSTUVWXYZabcdefghijklmnopqrstuvwxyz0123456789-_"

/-- The character stands for the digit in one of the alphabets. -/
def DigitOf (digit : Nat) (b : UInt8) : Prop :=
  standardAlphabet[digit]? = some b ∨ urlSafeAlphabet[digit]? = some b

instance (digit : Nat) (b : UInt8) : Decidable (DigitOf digit b) := by
  unfold DigitOf
  infer_instance

/-- White space left out, the text is characters for the digits and then padding. -/
def Spells (text : Bytes) (digits : List Nat) : Prop :=
  ∃ run count, text.filter (· ∉ blanks) = run ++ List.replicate count padding ∧
    List.Forall₂ DigitOf digits run

section Characters

theorem byte_kinds : ∀ b, (isSpace b = true ↔ b ∈ blanks) ∧
    ∀ digit ∈ digit? b, DigitOf digit b :=
  forall_byte (by decide)

theorem digits_of_alphabets : ∀ alphabet ∈ [standardAlphabet, urlSafeAlphabet],
    alphabet.map digit? = (List.range 64).map some := by
  decide

theorem digit?_eq_some_iff {b : UInt8} {digit : Nat} :
    digit? b = some digit ↔ DigitOf digit b := by
  have hread {alphabet : Bytes} (halphabet : alphabet ∈ [standardAlphabet, urlSafeAlphabet])
      (h : alphabet[digit]? = some b) : digit? b = some digit := by
    have hdigit : (alphabet.map digit?)[digit]? = some (digit? b) := by
      rw [List.getElem?_map, h, Option.map_some]
    rw [digits_of_alphabets alphabet halphabet, List.getElem?_map] at hdigit
    obtain ⟨n, hn, hb⟩ := Option.map_eq_some_iff.mp hdigit
    obtain ⟨hlt, rfl⟩ := List.getElem?_eq_some_iff.mp hn
    rw [← hb, List.getElem_range]
  constructor
  · exact (byte_kinds b).2 digit
  · rintro (h | h)
    · exact hread (by decide) h
    · exact hread (by decide) h

theorem lt_of_digitOf {digit : Nat} {b : UInt8} (h : DigitOf digit b) : digit < 64 :=
  (of_digit? b digit (digit?_eq_some_iff.mpr h)).1

end Characters

section Scan

theorem scan_filter (word : UInt32) (waiting : Nat) (padded : Bool) (text : Bytes) :
    scan word waiting padded text = scan word waiting padded (text.filter (· ∉ blanks)) := by
  induction text generalizing word waiting padded with
  | nil => rfl
  | cons b text ih =>
      by_cases hb : b ∈ blanks
      · rw [scan_space _ _ _ ((byte_kinds b).1.mpr hb), ih,
          List.filter_cons_of_neg (by simpa using hb)]
      · have hspace : isSpace b = false := by
          rw [Bool.eq_false_iff, Ne, (byte_kinds b).1]
          exact hb
        rw [List.filter_cons_of_pos (by simpa using hb), scan, scan, hspace]
        simp only [ih]

/-- What is read is a run of digits and then padding, or padding only if there was some before. -/
theorem exists_run_of_scan {word : UInt32} {waiting : Nat} {padded : Bool} {text bytes : Bytes}
    (hblank : ∀ b ∈ text, isSpace b = false) (h : scan word waiting padded text = some bytes) :
    ∃ digits run count, text = run ++ List.replicate count padding ∧
      List.Forall₂ DigitOf digits run ∧ (padded = true → run = []) := by
  induction text generalizing word waiting padded bytes with
  | nil => exact ⟨[], [], 0, rfl, .nil, fun _ => rfl⟩
  | cons b text ih =>
      obtain ⟨hb, htext⟩ := List.forall_mem_cons.mp hblank
      by_cases hpadding : b = padding
      · subst hpadding
        rw [scan_padding] at h
        obtain ⟨digits, run, count, rfl, hdigits, hrun⟩ := ih htext h
        obtain rfl := hrun rfl
        exact ⟨digits, [], count + 1, rfl, hdigits, fun _ => rfl⟩
      · rw [scan, hb, if_neg (by decide), if_neg hpadding] at h
        cases hdigit : digit? b with
        | none => simp [hdigit] at h
        | some digit =>
            cases padded with
            | true => simp [hdigit] at h
            | false =>
                simp only [hdigit, Bool.false_eq_true, if_false] at h
                have hread := digit?_eq_some_iff.mp hdigit
                split at h
                case isTrue =>
                  obtain ⟨digits, run, count, rfl, hdigits, -⟩ := ih htext h
                  exact ⟨digit :: digits, b :: run, count, rfl, .cons hread hdigits, by simp⟩
                case isFalse =>
                  obtain ⟨others, hothers, -⟩ := Option.map_eq_some_iff.mp h
                  obtain ⟨digits, run, count, rfl, hdigits, -⟩ := ih htext hothers
                  exact ⟨digit :: digits, b :: run, count, rfl, .cons hread hdigits, by simp⟩

/-- A text is read as the bytes of the digits that it spells. -/
theorem scan_of_spells {text : Bytes} {digits : List Nat} (h : Spells text digits) :
    scan 0 0 false text = gather 0 0 digits := by
  obtain ⟨run, count, htext, hdigits⟩ := h
  have hread : List.Forall₂ (fun b digit => digit? b = some digit) run digits :=
    hdigits.flip.imp fun _ _ => digit?_eq_some_iff.mpr
  rw [scan_filter, htext]
  exact scan_digits 0 (by decide) hread fun b hb => List.eq_of_mem_replicate hb

theorem scan_eq_some_iff (text bytes : Bytes) :
    scan 0 0 false text = some bytes ↔
      ∃ digits, Spells text digits ∧ gather 0 0 digits = some bytes := by
  constructor
  · intro h
    rw [scan_filter] at h
    have hblank : ∀ b ∈ text.filter (· ∉ blanks), isSpace b = false := by
      intro b hb
      rw [Bool.eq_false_iff, Ne, (byte_kinds b).1]
      simpa using (List.mem_filter.mp hb).2
    obtain ⟨digits, run, count, htext, hdigits, -⟩ := exists_run_of_scan hblank h
    have hspells : Spells text digits := ⟨run, count, htext, hdigits⟩
    rw [← scan_filter, scan_of_spells hspells] at h
    exact ⟨digits, hspells, h⟩
  · rintro ⟨digits, hspells, h⟩
    rw [scan_of_spells hspells, h]

end Scan

section Bits

theorem length_bits (width n : Nat) : (bits width n).length = width := by
  rw [bits, List.length_map, List.length_range]

theorem bits_mod (width n : Nat) : bits width (n % 2 ^ width) = bits width n := by
  rw [bits, bits, List.map_inj_left]
  intro i hi
  have hlt := List.mem_range.mp hi
  rw [Nat.testBit_mod_two_pow, decide_eq_true (by omega), Bool.true_and]

theorem bits_add (high low n : Nat) :
    bits (high + low) n = bits high (n / 2 ^ low) ++ bits low n := by
  rw [bits, List.range_add, List.map_append, List.map_map, bits, bits]
  congr 1
  · rw [List.map_inj_left]
    intro i hi
    have hlt := List.mem_range.mp hi
    rw [Nat.testBit_div_two_pow]
    congr 1
    omega
  · rw [List.map_inj_left]
    intro i hi
    have hlt := List.mem_range.mp hi
    rw [Function.comp_apply]
    congr 1
    omega

/-- A digit is put behind the bits that wait. -/
theorem bits_pushed (pending waiting : Nat) {digit : Nat} (h : digit < 64) :
    bits (waiting + 6) (pending * 64 + digit) = bits waiting pending ++ bits 6 digit := by
  have hhigh : (pending * 64 + digit) / 2 ^ 6 = pending := by omega
  have hlow : (pending * 64 + digit) % 2 ^ 6 = digit := by omega
  rw [bits_add, hhigh, ← bits_mod 6, hlow]

/-- A byte is taken from the bits that wait. -/
theorem bits_taken (left n : Nat) :
    bits (8 + left) n = bits 8 (UInt8.ofNat (n / 2 ^ left)).toNat ++ bits left (n % 2 ^ left) := by
  rw [bits_add, bits_mod, UInt8.toNat_ofNat', bits_mod]

theorem length_byteBits (bs : Bytes) : (byteBits bs).length = 8 * bs.length := by
  induction bs with
  | nil => rfl
  | cons b bs ih =>
      rw [byteBits, List.flatMap_cons, List.length_append, length_bits, ← byteBits, ih,
        List.length_cons, Nat.mul_succ, Nat.add_comm]

theorem length_digitBits (digits : List Nat) : (digitBits digits).length = 6 * digits.length := by
  induction digits with
  | nil => rfl
  | cons digit digits ih =>
      rw [digitBits, List.flatMap_cons, List.length_append, length_bits, ← digitBits, ih,
        List.length_cons, Nat.mul_succ, Nat.add_comm]

theorem bits_injective {width m n : Nat} (h : bits width m = bits width n) :
    m % 2 ^ width = n % 2 ^ width := by
  apply Nat.eq_of_testBit_eq
  intro i
  rw [Nat.testBit_mod_two_pow, Nat.testBit_mod_two_pow]
  by_cases hi : i < width
  · have hbit := List.map_inj_left.mp h (width - 1 - i) (List.mem_range.mpr (by omega))
    have hplace : width - 1 - (width - 1 - i) = i := by omega
    rw [hplace] at hbit
    rw [hbit]
  · rw [decide_eq_false hi, Bool.false_and, Bool.false_and]

theorem byteBits_injective {bs cs : Bytes} (h : byteBits bs = byteBits cs) : bs = cs := by
  induction bs generalizing cs with
  | nil =>
      have hlength := congrArg List.length h
      rw [length_byteBits, length_byteBits] at hlength
      exact (List.eq_nil_of_length_eq_zero (by simpa using hlength.symm)).symm
  | cons b bs ih =>
      cases cs with
      | nil =>
          have hlength := congrArg List.length h
          rw [length_byteBits, length_byteBits] at hlength
          simp at hlength
      | cons c cs =>
          have hlength : (bits 8 b.toNat).length = (bits 8 c.toNat).length := by
            rw [length_bits, length_bits]
          obtain ⟨hhead, htail⟩ := List.append_inj h hlength
          have hbyte := bits_injective hhead
          rw [Nat.mod_eq_of_lt b.toNat_lt, Nat.mod_eq_of_lt c.toNat_lt] at hbyte
          rw [UInt8.toNat_inj.mp hbyte, ih htail]

end Bits

section Gather

/-- The bytes are cut from the bits that wait and those of the digits. -/
theorem gather_cut (pending : Nat) {waiting : Nat} (hwaiting : waiting < 8) {digits : List Nat}
    (hdigits : ∀ digit ∈ digits, digit < 64) :
    (waiting + 6 * digits.length) % 8 < 6 ∧
        (∃ bytes rest, gather pending waiting digits = some bytes ∧
          bits waiting pending ++ digitBits digits = byteBits bytes ++ rest ∧ rest.length < 8) ∨
      6 ≤ (waiting + 6 * digits.length) % 8 ∧ gather pending waiting digits = none := by
  induction digits generalizing pending waiting with
  | nil =>
      rw [gather]
      split
      case isTrue hmany => exact .inr ⟨by simp only [List.length_nil]; omega, rfl⟩
      case isFalse hfew =>
        refine .inl ⟨by simp only [List.length_nil]; omega, [], bits waiting pending, rfl, ?_, ?_⟩
        · exact List.append_nil _
        · rwa [length_bits]
  | cons digit digits ih =>
      obtain ⟨hdigit, hrest⟩ := List.forall_mem_cons.mp hdigits
      have hjoined : bits waiting pending ++ digitBits (digit :: digits) =
          bits (waiting + 6) (pending * 64 + digit) ++ digitBits digits := by
        rw [bits_pushed _ _ hdigit, List.append_assoc]
        rfl
      rw [gather, hjoined, List.length_cons]
      simp only
      split
      case isTrue hfew =>
        have hsame : waiting + 6 * (digits.length + 1) = waiting + 6 + 6 * digits.length := by omega
        rw [hsame]
        exact ih _ hfew hrest
      case isFalse henough =>
        obtain ⟨left, hleft⟩ : ∃ left, waiting + 6 = 8 + left := ⟨waiting + 6 - 8, by omega⟩
        have hsame : (waiting + 6 * (digits.length + 1)) % 8 = (left + 6 * digits.length) % 8 := by
          omega
        rw [hsame, hleft, Nat.add_sub_cancel_left, bits_taken, List.append_assoc]
        rcases ih ((pending * 64 + digit) % 2 ^ left) (show left < 8 by omega) hrest with
          ⟨hfew, bytes, rest, hread, hbits, hlength⟩ | ⟨hmany, hread⟩
        · refine .inl ⟨hfew, _ :: bytes, rest, by rw [hread, Option.map_some], ?_, hlength⟩
          rw [hbits, byteBits, byteBits, List.flatMap_cons, List.append_assoc]
        · exact .inr ⟨hmany, by rw [hread, Option.map_none]⟩

/-- Digits of which no whole one is left over are bytes, those of their joined bits. -/
theorem gather_eq_some_iff {digits : List Nat} (hdigits : ∀ digit ∈ digits, digit < 64)
    (bytes : Bytes) :
    gather 0 0 digits = some bytes ↔ digits.length % 4 ≠ 1 ∧
      byteBits bytes = (digitBits digits).take (8 * (6 * digits.length / 8)) := by
  rcases gather_cut 0 (show 0 < 8 by decide) hdigits with
    ⟨hfew, found, rest, hread, hbits, hrest⟩ | ⟨hmany, hread⟩
  · have hjoined : digitBits digits = byteBits found ++ rest := hbits
    have hlength := congrArg List.length hjoined
    rw [List.length_append, length_digitBits, length_byteBits] at hlength
    have hfound : (byteBits found).length = 8 * (6 * digits.length / 8) := by
      rw [length_byteBits]
      omega
    rw [hread, Option.some.injEq, hjoined, List.take_left' hfound]
    constructor
    · rintro rfl
      exact ⟨by omega, rfl⟩
    · rintro ⟨-, hsame⟩
      exact (byteBits_injective hsame).symm
  · rw [hread]
    constructor
    · intro h
      contradiction
    · rintro ⟨hwhole, -⟩
      omega

theorem exists_gather_iff {digits : List Nat} (hdigits : ∀ digit ∈ digits, digit < 64) :
    (∃ bytes, gather 0 0 digits = some bytes) ↔ digits.length % 4 ≠ 1 := by
  rcases gather_cut 0 (show 0 < 8 by decide) hdigits with
    ⟨hfew, found, -, hread, -⟩ | ⟨hmany, hread⟩
  · exact ⟨fun _ => by omega, fun _ => ⟨found, hread⟩⟩
  · rw [hread]
    exact ⟨fun ⟨bytes, h⟩ => by contradiction, fun h => by omega⟩

end Gather

theorem digits_lt_of_spells {text : Bytes} {digits : List Nat} (h : Spells text digits) :
    ∀ digit ∈ digits, digit < 64 := by
  obtain ⟨run, -, -, hdigits⟩ := h
  induction hdigits with
  | nil => exact List.forall_mem_nil _
  | cons hdigit _ ih => exact List.forall_mem_cons.mpr ⟨lt_of_digitOf hdigit, ih⟩

theorem decode_eq_ok_iff (text bytes : Bytes) :
    Encoding.base64.decode text = .ok bytes ↔
      ∃ digits, Spells text digits ∧ gather 0 0 digits = some bytes := by
  rw [← scan_eq_some_iff, Encoding.decode, parse]
  cases scan 0 0 false text <;> simp

theorem exists_decode_iff (text : Bytes) :
    (∃ bytes, Encoding.base64.decode text = .ok bytes) ↔
      ∃ digits, Spells text digits ∧ digits.length % 4 ≠ 1 := by
  simp only [decode_eq_ok_iff]
  constructor
  · rintro ⟨bytes, digits, hspells, hread⟩
    exact ⟨digits, hspells, (exists_gather_iff (digits_lt_of_spells hspells)).mp ⟨bytes, hread⟩⟩
  · rintro ⟨digits, hspells, hwhole⟩
    obtain ⟨bytes, hread⟩ := (exists_gather_iff (digits_lt_of_spells hspells)).mpr hwhole
    exact ⟨bytes, digits, hspells, hread⟩

/-- Both readers do the same. They read a text exactly when it spells digits of which no whole one
is left over, as the bytes that are cut from the joined bits of the digits; any other
text is refused. -/
theorem decode_spelled (text : Bytes) :
    Encoding.base64url.decode text = Encoding.base64.decode text ∧
      ((∃ bytes, Encoding.base64.decode text = .ok bytes) ↔
        ∃ digits, Spells text digits ∧ digits.length % 4 ≠ 1) ∧
      (∀ bytes, Encoding.base64.decode text = .ok bytes ↔
        ∃ digits, Spells text digits ∧ digits.length % 4 ≠ 1 ∧
          byteBits bytes = (digitBits digits).take (8 * (6 * digits.length / 8))) ∧
      ((¬∃ digits, Spells text digits ∧ digits.length % 4 ≠ 1) ↔
        Encoding.base64.decode text = .error .invalidArgument) := by
  refine ⟨rfl, exists_decode_iff text, ?_, ?_⟩
  · intro bytes
    rw [decode_eq_ok_iff]
    refine exists_congr fun digits => and_congr_right fun hspells => ?_
    exact gather_eq_some_iff (digits_lt_of_spells hspells) bytes
  · rw [← exists_decode_iff, Encoding.decode, parse]
    cases scan 0 0 false text <;> simp

/-- White space anywhere, both characters of the last two digits, and two bits left over. -/
example : Encoding.base64.decode (Bytes.ofChars ['+', '\n', '-', '_', '=']) = .ok [0xFB, 0xEF] := by
  decide

end PackedRecord.Base64
