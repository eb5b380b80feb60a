import Mathlib
import PackedRecord.Text.Utf8

/-!
UTF-8 texts.

A number can be spelled with each count of following bytes that has room for
it; the encoding of a character is the shortest of its spellings. A text that
does not begin with a spelled number has no lead byte there or too few
following bytes, so reading ends there, always at a byte that the text has.
What is read is what was encoded, and what cannot be read breaks the rules at
the first place behind whole characters.
-/

namespace PackedRecord.Utf8

/-- What a lead byte has besides bits of the number. -/
def mark : (following : Nat) → Nat
  | 0 => 0
  | 1 => 0xC0
  | 2 => 0xE0
  | _ => 0xF0

/-- The lead bytes with the same mark. -/
def room : (following : Nat) → Nat
  | 0 => 0x80
  | 1 => 0x20
  | 2 => 0x10
  | _ => 0x08

/-- The last bits of a number, six in each of so many following bytes. -/
def tail : (count n : Nat) → Bytes
  | 0, _ => []
  | count + 1, n => UInt8.ofNat (0x80 + n / 64 ^ count % 64) :: tail count n

/-- A number with so many following bytes, whether or not it needs them. -/
def spell (following n : Nat) : Bytes :=
  UInt8.ofNat (mark following + n / 64 ^ following) :: tail following n

def IsFollowing (b : UInt8) : Prop :=
  0x80 ≤ b ∧ b < 0xC0

instance (b : UInt8) : Decidable (IsFollowing b) := by
  unfold IsFollowing
  infer_instance

/-- A spelled number that is no character, or has a shorter spelling. -/
def Barred (following n : Nat) : Prop :=
  n < least following ∨ 0x10FFFF < n ∨ (0xD800 ≤ n ∧ n ≤ 0xDFFF)

instance (following n : Nat) : Decidable (Barred following n) := by
  unfold Barred
  infer_instance

/-- The ways in which a text may begin with something that is not the encoding of a character. -/
inductive Broken : Bytes → Prop where
  /-- A following byte or a byte that no text has, where a lead byte should be. -/
  | stray {b : UInt8} {rest : Bytes} (h : IsFollowing b ∨ 0xF8 ≤ b) : Broken (b :: rest)
  /-- The text ends, or another byte comes, where a following byte should be. -/
  | cut {following bits : Nat} {front rest : Bytes} (hfollowing : following ≤ 3)
      (hbits : bits < room following) (hshort : front.length < following)
      (hrest : ∀ b ∈ rest.head?, ¬IsFollowing b) :
      Broken (UInt8.ofNat (mark following + bits) :: (front ++ rest))
  /-- A number that fits in fewer bytes. -/
  | overlong {following n : Nat} {rest : Bytes} (hfollowing : following ≤ 3)
      (h : n < least following) : Broken (spell following n ++ rest)
  | surrogate {n : Nat} {rest : Bytes} (hlow : 0xD800 ≤ n) (hhigh : n ≤ 0xDFFF) :
      Broken (spell 2 n ++ rest)
  /-- A number behind that of the last character. -/
  | beyond {n : Nat} {rest : Bytes} (hlow : 0x10FFFF < n) (hhigh : n < room 3 * 64 ^ 3) :
      Broken (spell 3 n ++ rest)

section Bytes

theorem isFollowing_iff : ∀ b : UInt8, b &&& 0xC0 = 0x80 ↔ IsFollowing b :=
  forall_byte (by decide)

theorem toNat_of_isFollowing : ∀ b : UInt8, IsFollowing b →
    b = UInt8.ofNat (0x80 + (b &&& 0x3F).toNat) ∧ (b &&& 0x3F).toNat < 64 :=
  forall_byte (by decide)

theorem following_bits : ∀ bits < 64, IsFollowing (UInt8.ofNat (0x80 + bits)) ∧
    (UInt8.ofNat (0x80 + bits) &&& 0x3F).toNat = bits := by
  decide

theorem lead?_mark : ∀ following ≤ 3, ∀ bits < room following,
    lead? (UInt8.ofNat (mark following + bits)) = some (following, bits) := by
  decide

theorem lead?_eq_none : ∀ b, lead? b = none ↔ IsFollowing b ∨ 0xF8 ≤ b :=
  forall_byte (by decide)

theorem of_lead? : ∀ b, ∀ p ∈ lead? b,
    p.1 ≤ 3 ∧ p.2 < room p.1 ∧ b = UInt8.ofNat (mark p.1 + p.2) :=
  forall_byte (by decide)

end Bytes

theorem length_tail (count n : Nat) : (tail count n).length = count := by
  induction count with
  | zero => rfl
  | succ count ih => rw [tail, List.length_cons, ih]

/-- The bits of a following byte come behind those of the number. -/
theorem shift_or (number : Nat) {bits : Nat} (h : bits < 64) :
    number <<< 6 ||| bits = number * 64 + bits := by
  rw [← Nat.shiftLeft_add_eq_or_of_lt h, Nat.shiftLeft_eq]

section Follow

theorem follow_cons {b : UInt8} (h : IsFollowing b) (count number : Nat) (rest : Bytes) :
    follow (count + 1) number (b :: rest) =
      follow count (number * 64 + (b &&& 0x3F).toNat) rest := by
  rw [follow, if_pos ((isFollowing_iff b).mpr h), shift_or _ (toNat_of_isFollowing b h).2]

theorem follow_tail (count number n : Nat) (rest : Bytes) :
    follow count number (tail count n ++ rest) =
      .ok (number * 64 ^ count + n % 64 ^ count, rest) := by
  induction count generalizing number with
  | zero => simp [follow, tail, Nat.mod_one]
  | succ count ih =>
      obtain ⟨hfollowing, hbits⟩ := following_bits (n / 64 ^ count % 64) (Nat.mod_lt _ (by decide))
      rw [tail, List.cons_append, follow_cons hfollowing, hbits, ih, pow_succ, Nat.mod_mul]
      ring_nf

/-- Following bytes that were read are the last bits of the number they made. -/
theorem eq_tail_of_follow {count number n : Nat} {text rest : Bytes}
    (h : follow count number text = .ok (n, rest)) :
    text = tail count n ++ rest ∧ n / 64 ^ count = number := by
  induction count generalizing number text with
  | zero =>
      obtain ⟨rfl, rfl⟩ := Prod.mk.inj (Except.ok.inj h)
      exact ⟨rfl, by rw [pow_zero, Nat.div_one]⟩
  | succ count ih =>
      cases text with
      | nil => contradiction
      | cons b rest =>
          by_cases hb : IsFollowing b
          · rw [follow_cons hb] at h
            obtain ⟨hbyte, hbits⟩ := toNat_of_isFollowing b hb
            obtain ⟨rfl, hdiv⟩ := ih h
            refine ⟨?_, ?_⟩
            · rw [tail, hdiv, Nat.mul_add_mod_of_lt hbits, ← hbyte, List.cons_append]
            · rw [pow_succ, ← Nat.div_div_eq_div_mul, hdiv]
              omega
          · rw [follow, if_neg (mt (isFollowing_iff b).mp hb)] at h
            contradiction

/-- Where enough bytes are left, reading stops only at one that is no following byte. -/
theorem follow_cases (count number : Nat) {text : Bytes} (hroom : count ≤ text.length) :
    (∃ n rest, follow count number text = .ok (n, rest)) ∨
      follow count number text = .error .malformed ∧
        ∃ front b rest, text = front ++ b :: rest ∧ front.length < count ∧ ¬IsFollowing b := by
  induction count generalizing number text with
  | zero => exact .inl ⟨number, text, rfl⟩
  | succ count ih =>
      cases text with
      | nil => contradiction
      | cons b rest =>
          by_cases hb : IsFollowing b
          · rw [follow_cons hb]
            obtain hread | ⟨hstop, front, c, back, rfl, hshort, hc⟩ :=
              ih (number * 64 + (b &&& 0x3F).toNat) (Nat.le_of_succ_le_succ hroom)
            · exact .inl hread
            · exact .inr ⟨hstop, b :: front, c, back, rfl, Nat.succ_lt_succ hshort, hc⟩
          · refine .inr ⟨?_, [], b, rest, rfl, Nat.succ_pos _, hb⟩
            rw [follow, if_neg (mt (isFollowing_iff b).mp hb)]

theorem isFollowing_of_mem_tail {count n : Nat} {b : UInt8} (h : b ∈ tail count n) :
    IsFollowing b := by
  induction count with
  | zero => contradiction
  | succ count ih =>
      rcases List.mem_cons.mp h with rfl | h
      · exact (following_bits _ (Nat.mod_lt _ (by decide))).1
      · exact ih h

end Follow

section Characters

theorem toNat_valid (c : Char) : c.toNat < 0xD800 ∨ 0xDFFF < c.toNat ∧ c.toNat < 0x110000 :=
  c.valid

/-- The encoding is the spelling that is not barred. -/
theorem encodeChar_eq_spell {c : Char} {following : Nat} (hfollowing : following ≤ 3)
    (hroom : c.toNat < room following * 64 ^ following) (h : ¬Barred following c.toNat) :
    String.utf8EncodeChar c = spell following c.toNat := by
  have hval : c.val.toNat = c.toNat := rfl
  simp only [Barred, not_or] at h
  rw [String.utf8EncodeChar, hval]
  have htail0 : c.toNat % 64 + 128 = 0x80 + c.toNat / 64 ^ 0 % 64 := by omega
  have htail1 : c.toNat / 64 % 64 + 128 = 0x80 + c.toNat / 64 ^ 1 % 64 := by omega
  have htail2 : c.toNat / 4096 % 64 + 128 = 0x80 + c.toNat / 64 ^ 2 % 64 := by omega
  interval_cases following <;> simp only [room, least] at hroom h <;>
    simp only [spell, tail, mark, ← htail0, ← htail1, ← htail2]
  · rw [if_pos (by omega), pow_zero, Nat.div_one, Nat.zero_add]
  · have hlead : c.toNat / 64 % 32 + 192 = 0xC0 + c.toNat / 64 ^ 1 := by omega
    rw [if_neg (by omega), if_pos (by omega), hlead]
  · have hlead : c.toNat / 4096 % 16 + 224 = 0xE0 + c.toNat / 64 ^ 2 := by omega
    rw [if_neg (by omega), if_neg (by omega), if_pos (by omega), hlead]
  · have hlead : c.toNat / 262144 % 8 + 240 = 0xF0 + c.toNat / 64 ^ 3 := by omega
    rw [if_neg (by omega), if_neg (by omega), if_neg (by omega), hlead]

/-- A mark has no bit of the number that it stands before. -/
theorem lead_or : ∀ following ≤ 3, ∀ bits < room following,
    mark following ||| bits = bits % room following + mark following := by
  decide

theorem following_or (n : Nat) : 0x80 ||| n &&& 0x3F = n % 64 + 128 := by
  have hbits : n % 2 ^ 6 < 2 ^ 7 := by omega
  rw [Nat.and_two_pow_sub_one_eq_mod n 6, Nat.add_comm]
  exact (Nat.shiftLeft_add_eq_or_of_lt hbits 1).symm

/-- The bytes that are written for a character are its encoding. -/
theorem charBytes_eq (c : Char) : charBytes c.toNat = String.utf8EncodeChar c := by
  have hval : c.val.toNat = c.toNat := rfl
  have hvalid := toNat_valid c
  simp only [charBytes, following_or, Nat.shiftRight_eq_div_pow, Nat.reducePow]
  rw [String.utf8EncodeChar, hval]
  by_cases h1 : c.toNat < 0x80
  · rw [if_pos h1, if_pos (by omega)]
  by_cases h2 : c.toNat < 0x800
  · have hlead : 0xC0 ||| c.toNat / 64 = c.toNat / 64 % 32 + 192 :=
      lead_or 1 (by decide) _ (show c.toNat / 64 < 0x20 by omega)
    rw [if_neg h1, if_pos h2, if_neg (by omega), if_pos (by omega), hlead]
  by_cases h3 : c.toNat < 0x10000
  · have hlead : 0xE0 ||| c.toNat / 4096 = c.toNat / 4096 % 16 + 224 :=
      lead_or 2 (by decide) _ (show c.toNat / 4096 < 0x10 by omega)
    rw [if_neg h1, if_neg h2, if_pos h3, if_neg (by omega), if_neg (by omega), if_pos (by omega),
      hlead]
  · have hlead : 0xF0 ||| c.toNat / 262144 = c.toNat / 262144 % 8 + 240 :=
      lead_or 3 (by decide) _ (show c.toNat / 262144 < 0x08 by omega)
    rw [if_neg h1, if_neg h2, if_neg h3, if_neg (by omega), if_neg (by omega), if_neg (by omega),
      hlead]

theorem write_eq (cs : List Char) : write cs = encode cs := by
  rw [write, encode, funext charBytes_eq]

theorem exists_spell (c : Char) :
    ∃ following ≤ 3, c.toNat < room following * 64 ^ following ∧ ¬Barred following c.toNat := by
  have hvalid := toNat_valid c
  simp only [Barred]
  by_cases h1 : c.toNat < 0x80
  · exact ⟨0, by decide, by simpa [room] using h1, by simp only [least]; omega⟩
  by_cases h2 : c.toNat < 0x800
  · exact ⟨1, by decide, by simpa [room] using h2, by simp only [least]; omega⟩
  by_cases h3 : c.toNat < 0x10000
  · exact ⟨2, by decide, by simpa [room] using h3, by simp only [least]; omega⟩
  · exact ⟨3, by decide, by simp only [room]; omega, by simp only [least]; omega⟩

theorem isValidChar_of_not_barred {following n : Nat} (h : ¬Barred following n) :
    n.isValidChar := by
  simp only [Barred, not_or] at h
  simp only [Nat.isValidChar]
  omega

end Characters

section Reading

theorem readChar_spell {following n : Nat} (hfollowing : following ≤ 3)
    (hroom : n < room following * 64 ^ following) (rest : Bytes) :
    readChar (UInt8.ofNat (mark following + n / 64 ^ following)) (tail following n ++ rest) =
      if Barred following n then .error .malformed else .ok (Char.ofNat n, rest) := by
  have hbits : n / 64 ^ following < room following :=
    Nat.div_lt_of_lt_mul (by rwa [Nat.mul_comm])
  have hnumber : n / 64 ^ following * 64 ^ following + n % 64 ^ following = n :=
    Nat.div_add_mod' n _
  have hlength : ¬(tail following n ++ rest).length < following := by
    rw [List.length_append, length_tail]
    omega
  simp only [readChar, lead?_mark _ hfollowing _ hbits, if_neg hlength, follow_tail, hnumber]
  rfl

/-- A text begins with a spelled number, or is broken there. -/
theorem readChar_cases (b : UInt8) (rest : Bytes) :
    (∃ following ≤ 3, ∃ n < room following * 64 ^ following, ∃ behind,
      b :: rest = spell following n ++ behind) ∨
    readChar b rest = .error .malformed ∧ Broken (b :: rest) := by
  cases hlead : lead? b with
  | none =>
      refine .inr ⟨by rw [readChar, hlead], .stray ((lead?_eq_none b).mp hlead)⟩
  | some p =>
      obtain ⟨following, bits⟩ := p
      obtain ⟨hfollowing, hbits, hb⟩ := of_lead? b _ hlead
      by_cases hlength : rest.length < following
      · refine .inr ⟨by simp only [readChar, hlead, if_pos hlength], ?_⟩
        have hcut : Broken (UInt8.ofNat (mark following + bits) :: (rest ++ [])) :=
          .cut hfollowing hbits hlength (by simp)
        rwa [List.append_nil, ← hb] at hcut
      · obtain ⟨n, behind, hread⟩ | ⟨hstop, front, x, back, rfl, hshort, hx⟩ :=
          follow_cases following bits (Nat.not_lt.mp hlength)
        · obtain ⟨rfl, hdiv⟩ := eq_tail_of_follow hread
          refine .inl ⟨following, hfollowing, n, ?_, behind, ?_⟩
          · exact (Nat.div_lt_iff_lt_mul (by positivity)).mp (hdiv ▸ hbits)
          · rw [spell, hdiv, ← hb, List.cons_append]
        · refine .inr ⟨by simp only [readChar, hlead, if_neg hlength, hstop], ?_⟩
          have hcut : Broken (UInt8.ofNat (mark following + bits) :: (front ++ x :: back)) :=
            .cut hfollowing hbits hshort (by simpa using hx)
          rwa [← hb] at hcut

theorem broken_of_barred {following n : Nat} (hfollowing : following ≤ 3)
    (hroom : n < room following * 64 ^ following) (h : Barred following n) (rest : Bytes) :
    Broken (spell following n ++ rest) := by
  by_cases hleast : n < least following
  · exact .overlong hfollowing hleast
  rcases h with h | hbeyond | ⟨hlow, hhigh⟩
  · exact absurd h hleast
  · obtain rfl : following = 3 := by
      interval_cases following <;> simp only [room] at hroom <;> omega
    exact .beyond hbeyond hroom
  · obtain rfl : following = 2 := by
      interval_cases following <;> simp only [room, least] at hroom hleast <;> omega
    exact .surrogate hlow hhigh

/-- What is not read is broken, and never a byte that the text does not have. -/
theorem broken_of_readChar {b : UInt8} {rest : Bytes} {stop : Stop}
    (h : readChar b rest = .error stop) : stop = .malformed ∧ Broken (b :: rest) := by
  obtain ⟨following, hfollowing, n, hroom, behind, htext⟩ | ⟨hstop, hbroken⟩ :=
    readChar_cases b rest
  · obtain ⟨hb, hrest⟩ := List.cons.inj htext
    rw [hb, hrest, List.append_eq, readChar_spell hfollowing hroom] at h
    split at h
    next hbarred =>
      obtain rfl := Except.error.inj h
      refine ⟨rfl, ?_⟩
      rw [htext]
      exact broken_of_barred hfollowing hroom hbarred behind
    · contradiction
  · rw [hstop] at h
    exact ⟨(Except.error.inj h).symm, hbroken⟩

theorem readChar_of_broken {b : UInt8} {rest : Bytes} (h : Broken (b :: rest)) :
    readChar b rest = .error .malformed := by
  generalize htext : b :: rest = text at h
  cases h with
  | stray h =>
      obtain ⟨rfl, rfl⟩ := List.cons.inj htext
      rw [readChar, (lead?_eq_none b).mpr h]
  | @cut following bits front back hfollowing hbits hshort hback =>
      obtain ⟨rfl, rfl⟩ := List.cons.inj htext
      simp only [readChar, lead?_mark _ hfollowing _ hbits]
      split
      · rfl
      next hlength =>
        rcases follow_cases following bits (Nat.not_lt.mp hlength) with
          ⟨n, behind, hread⟩ | ⟨hstop, -⟩
        · -- the byte behind the front would be one of those that were read
          obtain ⟨htail, -⟩ := eq_tail_of_follow hread
          cases back with
          | nil => exact absurd (by simpa using hshort) hlength
          | cons x back =>
              have hx : (tail following n ++ behind)[front.length]? = some x := by
                rw [← htail, List.getElem?_append_right (Nat.le_refl _), Nat.sub_self]
                rfl
              rw [List.getElem?_append_left (by rwa [length_tail])] at hx
              exact absurd (isFollowing_of_mem_tail (List.mem_of_getElem? hx)) (hback x rfl)
        · rw [hstop]
  | @overlong following n behind hfollowing h =>
      obtain ⟨rfl, hrest⟩ := List.cons.inj htext
      have hroom : n < room following * 64 ^ following := by
        interval_cases following <;> simp only [least] at h <;> simp only [room] <;> omega
      rw [hrest, List.append_eq, readChar_spell hfollowing hroom, if_pos (.inl h)]
  | @surrogate n behind hlow hhigh =>
      obtain ⟨rfl, hrest⟩ := List.cons.inj htext
      have hroom : n < room 2 * 64 ^ 2 := by simp only [room]; omega
      rw [hrest, List.append_eq, readChar_spell (by decide) hroom,
        if_pos (.inr (.inr ⟨hlow, hhigh⟩))]
  | @beyond n behind hlow hhigh =>
      obtain ⟨rfl, hrest⟩ := List.cons.inj htext
      rw [hrest, List.append_eq, readChar_spell (by decide) hhigh, if_pos (.inr (.inl hlow))]

theorem readChar_encodeChar (c : Char) (rest : Bytes) :
    ∃ b behind, String.utf8EncodeChar c ++ rest = b :: behind ∧
      readChar b behind = .ok (c, rest) := by
  obtain ⟨following, hfollowing, hroom, hbarred⟩ := exists_spell c
  refine ⟨_, _, by rw [encodeChar_eq_spell hfollowing hroom hbarred, spell, List.cons_append], ?_⟩
  rw [readChar_spell hfollowing hroom, if_neg hbarred, Char.ofNat_toNat]

theorem eq_encodeChar_of_readChar {b : UInt8} {rest behind : Bytes} {c : Char}
    (h : readChar b rest = .ok (c, behind)) :
    b :: rest = String.utf8EncodeChar c ++ behind := by
  obtain ⟨following, hfollowing, n, hroom, back, htext⟩ | ⟨hstop, -⟩ := readChar_cases b rest
  · obtain ⟨hb, hrest⟩ := List.cons.inj htext
    rw [hb, hrest, List.append_eq, readChar_spell hfollowing hroom] at h
    split at h
    · contradiction
    next hbarred =>
      obtain ⟨rfl, rfl⟩ := Prod.mk.inj (Except.ok.inj h)
      have hn := (Char.toNat_ofNat n).trans (if_pos (isValidChar_of_not_barred hbarred))
      rw [htext, encodeChar_eq_spell hfollowing (by rwa [hn]) (by rwa [hn]), hn]
  · rw [hstop] at h
    contradiction

theorem read_cons (b : UInt8) (rest : Bytes) :
    read (b :: rest) =
      match readChar b rest with
      | .error stop => .error stop
      | .ok (c, behind) => (read behind).map (c :: ·) := by
  rw [read]
  split <;> rename_i h <;> simp only [h]

theorem read_encode (cs : List Char) (rest : Bytes) :
    read (encode cs ++ rest) = (read rest).map (cs ++ ·) := by
  induction cs with
  | nil => cases h : read rest <;> simp [encode, h, Except.map]
  | cons c cs ih =>
      obtain ⟨b, behind, htext, hread⟩ := readChar_encodeChar c (encode cs ++ rest)
      rw [encode, List.flatMap_cons, ← encode, List.append_assoc, htext, read_cons, hread]
      simp only [ih]
      cases read rest <;> rfl

/-- Reading undoes encoding, or stops where a text is broken behind whole characters. -/
theorem read_cases (text : Bytes) :
    (∃ cs, read text = .ok cs ∧ encode cs = text) ∨
      read text = .error .malformed ∧ ∃ cs rest, text = encode cs ++ rest ∧ Broken rest := by
  fun_induction read text with
  | case1 => exact .inl ⟨[], rfl, rfl⟩
  | case2 b rest stop hstop =>
      obtain ⟨rfl, hbroken⟩ := broken_of_readChar hstop
      exact .inr ⟨rfl, [], b :: rest, rfl, hbroken⟩
  | case3 b rest c behind hread _ ih =>
      have hchar := eq_encodeChar_of_readChar hread
      obtain ⟨cs, hcs, rfl⟩ | ⟨hstop, cs, back, rfl, hbroken⟩ := ih
      · exact .inl ⟨c :: cs, by rw [hcs]; rfl, by rw [hchar, encode, List.flatMap_cons]; rfl⟩
      · refine .inr ⟨by rw [hstop]; rfl, c :: cs, back, ?_, hbroken⟩
        rw [hchar, encode, encode, List.flatMap_cons, List.append_assoc]

/-- The bytes that a surrogate would have, behind a character. -/
example : read [0x41, 0xED, 0xA0, 0x80] = .error .malformed := by cbv

theorem read_eq_ok_iff (text : Bytes) (cs : List Char) : read text = .ok cs ↔ encode cs = text := by
  constructor
  · intro h
    obtain ⟨ds, hds, htext⟩ | ⟨hstop, -⟩ := read_cases text
    · obtain rfl := Except.ok.inj (h.symm.trans hds)
      exact htext
    · rw [hstop] at h
      contradiction
  · rintro rfl
    have h := read_encode cs []
    rwa [List.append_nil, read, Except.map, List.append_nil] at h

theorem read_of_broken {cs : List Char} {rest : Bytes} (h : Broken rest) :
    read (encode cs ++ rest) = .error .malformed := by
  cases rest with
  | nil => cases h
  | cons b rest => rw [read_encode, read_cons, readChar_of_broken h, Except.map]

theorem encode_injective {cs ds : List Char} (h : encode cs = encode ds) : cs = ds :=
  Except.ok.inj (((read_eq_ok_iff _ cs).mpr h).symm.trans ((read_eq_ok_iff _ ds).mpr rfl))

end Reading
end PackedRecord.Utf8
