import PackedRecord.Text.Hex

/-!
The language of hexadecimal text.

A text spells bytes if it is made of separators, `0x` marks and pairs of digits,
one pair for each byte; separators may also stand between the digits of a pair.
Reading accepts these texts and no others. The reader keeps a digit until the
second one comes, and a zero until it has seen that no `x` follows, so both
directions are proved with digits pending: what is pending stands for the text
that was passed since the last byte. Texts one behind the other spell their
bytes so, and the digits written for bytes spell these.
-/

/-- The digits of a byte are those of its two halves. -/
theorem PackedRecord.Bytes.hexPair_eq : ∀ b, hexPair b =
    [(Nat.digitChar (b.toNat / 16)).toUInt8, (Nat.digitChar (b.toNat % 16)).toUInt8] :=
  forall_byte (by decide)

namespace PackedRecord.Hex

/-- The digit of a number in base sixteen, of either case. -/
def DigitOf (n : Nat) (b : UInt8) : Prop :=
  n < 16 ∧ (b = (Nat.digitChar n).toUInt8 ∨ b = (Nat.digitChar n).toUpper.toUInt8)

instance (n : Nat) (b : UInt8) : Decidable (DigitOf n b) := by
  unfold DigitOf
  infer_instance

/-- White space, and the marks that count as white space. -/
def breaks : Bytes :=
  Bytes.ofChars [' ', '\t', '\n', '\x0b', '\x0c', '\r', ',', ';', ':', '-', '_', '|', '[', ']',
    '(', ')', '\x7b', '\x7d', '\x27', '"']

/-- The letters of a `0x` mark. -/
def markLetters : Bytes :=
  Bytes.ofChars ['x', 'X']

/-- The text is written by the grammar and stands for the bytes. -/
inductive Spells : (text bytes : Bytes) → Prop where
  | nil : Spells [] []
  | separator {b : UInt8} {text bytes : Bytes} (hb : b ∈ breaks) (rest : Spells text bytes) :
      Spells (b :: text) bytes
  | mark {letter : UInt8} {text bytes : Bytes} (hletter : letter ∈ markLetters)
      (rest : Spells text bytes) : Spells ('0'.toUInt8 :: letter :: text) bytes
  | pair {m n : Nat} {high low : UInt8} {between text bytes : Bytes} (hhigh : DigitOf m high)
      (hbetween : ∀ b ∈ between, b ∈ breaks) (hlow : DigitOf n low) (rest : Spells text bytes) :
      Spells (high :: between ++ low :: text) (UInt8.ofNat (16 * m + n) :: bytes)

section Characters

/-- What a reader takes each byte for. -/
theorem byte_kinds : ∀ b, (isSeparator b = true ↔ b ∈ breaks) ∧
    (isMarkLetter b = true ↔ b ∈ markLetters) ∧ ¬(b ∈ breaks ∧ b ∈ markLetters) ∧
    ∀ d ∈ digit? b, DigitOf d.toNat b ∧ isSeparator b = false ∧ isMarkLetter b = false :=
  forall_byte (by decide +kernel)

theorem isSeparator_iff (b : UInt8) : isSeparator b = true ↔ b ∈ breaks :=
  (byte_kinds b).1

theorem isMarkLetter_iff (b : UInt8) : isMarkLetter b = true ↔ b ∈ markLetters :=
  (byte_kinds b).2.1

theorem isMarkLetter_of_break {b : UInt8} (hb : b ∈ breaks) : isMarkLetter b = false := by
  rw [Bool.eq_false_iff, Ne, isMarkLetter_iff]
  exact fun hletter => (byte_kinds b).2.2.1 ⟨hb, hletter⟩

theorem digitOf_digit? {b d : UInt8} (h : digit? b = some d) : DigitOf d.toNat b :=
  ((byte_kinds b).2.2.2 d h).1

theorem digit?_eq_some {n : Nat} {b : UInt8} (h : DigitOf n b) :
    digit? b = some (UInt8.ofNat n) := by
  obtain ⟨hn, hb⟩ := h
  have hdigits : ∀ i : Fin 16, digit? (Nat.digitChar i).toUInt8 = some (UInt8.ofNat i) ∧
      digit? (Nat.digitChar i).toUpper.toUInt8 = some (UInt8.ofNat i) := by
    decide
  rcases hb with rfl | rfl
  · exact (hdigits ⟨n, hn⟩).1
  · exact (hdigits ⟨n, hn⟩).2

theorem DigitOf.not_special {n : Nat} {b : UInt8} (h : DigitOf n b) :
    isSeparator b = false ∧ isMarkLetter b = false :=
  ((byte_kinds b).2.2.2 _ (digit?_eq_some h)).2

/-- A digit stands for one number. -/
theorem DigitOf.unique {m n : Nat} {b : UInt8} (hm : DigitOf m b) (hn : DigitOf n b) : m = n := by
  have hsame := (digit?_eq_some hm).symm.trans (digit?_eq_some hn)
  have hlt := hm.1
  have hlt' := hn.1
  have hnat := congrArg UInt8.toNat (Option.some.inj hsame)
  simp only [UInt8.toNat_ofNat'] at hnat
  omega

end Characters

namespace Pending

/-- A zero that no `x` follows is a digit like the others. -/
def settled : Pending → Pending
  | nothing => nothing
  | zero => high 0
  | high d => high d

/-- What a reader has after the first digit of a pair. -/
def ofDigit (n : Nat) : Pending :=
  if n = 0 then zero else high (UInt8.ofNat n)

theorem settled_ofDigit (n : Nat) : (ofDigit n).settled = high (UInt8.ofNat n) := by
  rw [ofDigit]
  split
  case isTrue hn =>
    rw [hn]
    rfl
  case isFalse => rfl

/-- What a reader has passed since the last byte. -/
def StandsFor : Pending → Bytes → Prop
  | nothing, before => before = []
  | zero, before => before = ['0'.toUInt8]
  | high d, before => ∃ first between,
      before = first :: between ∧ DigitOf d.toNat first ∧ ∀ b ∈ between, b ∈ breaks

theorem standsFor_nothing : nothing.StandsFor [] := rfl

theorem standsFor_ofDigit {n : Nat} {b : UInt8} (hb : DigitOf n b) : (ofDigit n).StandsFor [b] := by
  have hnone : ∀ c ∈ ([] : Bytes), c ∈ breaks := fun c hc => absurd hc List.not_mem_nil
  rw [ofDigit]
  split
  case isTrue hn =>
    subst hn
    rcases hb.2 with rfl | rfl <;> rfl
  case isFalse =>
    have hn : (UInt8.ofNat n).toNat = n := by
      have hlt := hb.1
      rw [UInt8.toNat_ofNat']
      omega
    exact ⟨b, [], rfl, hn.symm ▸ hb, hnone⟩

theorem StandsFor.settled_cases {pending : Pending} {before : Bytes}
    (h : pending.StandsFor before) :
    pending = nothing ∧ before = [] ∨
      ∃ d, pending.settled = high d ∧ (high d).StandsFor before := by
  cases pending with
  | nothing => exact .inl ⟨rfl, h⟩
  | zero =>
      subst h
      exact .inr ⟨0, rfl, _, [], rfl, by decide, fun c hc => absurd hc List.not_mem_nil⟩
  | high d => exact .inr ⟨d, rfl, h⟩

theorem StandsFor.concat {d b : UInt8} {before : Bytes} (h : (high d).StandsFor before)
    (hb : b ∈ breaks) : (high d).StandsFor (before ++ [b]) := by
  obtain ⟨first, between, rfl, hfirst, hbetween⟩ := h
  refine ⟨first, between ++ [b], rfl, hfirst, ?_⟩
  exact List.forall_mem_append.mpr ⟨hbetween, List.forall_mem_singleton.mpr hb⟩

end Pending

section Steps

variable {pending : Pending} {b : UInt8} {rest bytes : Bytes}

theorem scan_break (hb : b ∈ breaks) (pending : Pending) (rest : Bytes) :
    scan pending (b :: rest) = scan pending.settled rest := by
  cases pending <;>
    simp [scan, (isSeparator_iff b).mpr hb, isMarkLetter_of_break hb, Pending.settled]

theorem scan_breaks {between : Bytes} (h : ∀ b ∈ between, b ∈ breaks) (d : UInt8) (rest : Bytes) :
    scan (.high d) (between ++ rest) = scan (.high d) rest := by
  induction between with
  | nil => rfl
  | cons b between ih =>
      rw [List.cons_append, scan_break (h b List.mem_cons_self), Pending.settled,
        ih fun c hc => h c (List.mem_cons_of_mem _ hc)]

theorem scan_mark (hb : b ∈ markLetters) (rest : Bytes) :
    scan .zero (b :: rest) = scan .nothing rest := by
  simp [scan, (isMarkLetter_iff b).mpr hb]

theorem scan_first {n : Nat} (hb : DigitOf n b) (rest : Bytes) :
    scan .nothing (b :: rest) = scan (.ofDigit n) rest := by
  have hzero : UInt8.ofNat n = 0 ↔ n = 0 := by
    have hn := hb.1
    rw [← UInt8.toNat_inj, UInt8.toNat_ofNat', UInt8.toNat_zero]
    omega
  simp [scan, hb.not_special, digit?_eq_some hb, hzero, Pending.ofDigit]

theorem scan_second {m n : Nat} (hb : DigitOf n b)
    (hm : pending.settled = .high (UInt8.ofNat m)) (rest : Bytes) :
    scan pending (b :: rest) = (scan .nothing rest).map (UInt8.ofNat (16 * m + n) :: ·) := by
  have hbyte : UInt8.ofNat (16 * m + n) = UInt8.ofNat m * 16 + UInt8.ofNat n := by
    rw [UInt8.ofNat_add, UInt8.ofNat_mul, UInt8.mul_comm]
    rfl
  cases pending with
  | nothing => contradiction
  | zero =>
      have hzero := Pending.high.inj hm
      simp [scan, hb.not_special, digit?_eq_some hb, hbyte, ← hzero]
  | high d =>
      obtain rfl := Pending.high.inj hm
      simp [scan, hb.not_special, digit?_eq_some hb, hbyte]

/-- What a character was if reading goes on behind it. -/
theorem scan_cons_cases (h : scan pending (b :: rest) = some bytes) :
    b ∈ breaks ∨ (∃ n, DigitOf n b) ∨ pending = .zero ∧ b ∈ markLetters := by
  by_cases hmark : pending = .zero ∧ isMarkLetter b = true
  · exact .inr (.inr ⟨hmark.1, (isMarkLetter_iff b).mp hmark.2⟩)
  · cases hb : isSeparator b with
    | true => exact .inl ((isSeparator_iff b).mp hb)
    | false =>
        cases hdigit : digit? b with
        | some d => exact .inr (.inl ⟨d.toNat, digitOf_digit? hdigit⟩)
        | none => simp [scan, hmark, hb, hdigit] at h

end Steps

/-- What is read was written by the grammar, what is pending in front of it. -/
theorem spells_of_scan {pending : Pending} {before text bytes : Bytes}
    (hbefore : pending.StandsFor before) (h : scan pending text = some bytes) :
    Spells (before ++ text) bytes := by
  induction text generalizing pending before bytes with
  | nil =>
      cases pending with
      | nothing =>
          obtain rfl : before = [] := hbefore
          obtain rfl := Option.some.inj h
          exact .nil
      | zero | high d => simp [scan] at h
  | cons b rest ih =>
      rcases scan_cons_cases h with hb | ⟨n, hb⟩ | ⟨rfl, hb⟩
      · rw [scan_break hb] at h
        rcases hbefore.settled_cases with ⟨rfl, rfl⟩ | ⟨d, hd, hstands⟩
        · exact .separator hb (ih Pending.standsFor_nothing h)
        · rw [hd] at h
          have hrest := ih (hstands.concat hb) h
          rwa [List.append_assoc, List.singleton_append] at hrest
      · rcases hbefore.settled_cases with ⟨rfl, rfl⟩ | ⟨d, hd, hstands⟩
        · rw [scan_first hb] at h
          exact ih (Pending.standsFor_ofDigit hb) h
        · obtain ⟨first, between, rfl, hfirst, hbetween⟩ := hstands
          rw [← UInt8.ofNat_toNat (x := d)] at hd
          rw [scan_second hb hd, Option.map_eq_some_iff] at h
          obtain ⟨others, hothers, rfl⟩ := h
          exact .pair hfirst hbetween hb (ih Pending.standsFor_nothing hothers)
      · obtain rfl : before = ['0'.toUInt8] := hbefore
        rw [scan_mark hb] at h
        exact .mark hb (ih Pending.standsFor_nothing h)

theorem scan_of_spells {text bytes : Bytes} (h : Spells text bytes) :
    scan .nothing text = some bytes := by
  induction h with
  | nil => rfl
  | separator hb _ ih => rw [scan_break hb, Pending.settled, ih]
  | mark hletter _ ih =>
      have hzero : DigitOf 0 '0'.toUInt8 := by decide
      rw [scan_first hzero, Pending.ofDigit, if_pos rfl, scan_mark hletter, ih]
  | @pair m n high low between text bytes hhigh hbetween hlow _ ih =>
      have hsettled := Pending.settled_ofDigit m
      rw [List.cons_append, scan_first hhigh]
      cases between with
      | nil => rw [List.nil_append, scan_second hlow hsettled, ih, Option.map_some]
      | cons b between =>
          rw [List.cons_append, scan_break (hbetween b List.mem_cons_self), hsettled,
            scan_breaks fun c hc => hbetween c (List.mem_cons_of_mem _ hc),
            scan_second hlow rfl, ih, Option.map_some]

theorem Spells.append {first second bs cs : Bytes} (h : Spells first bs)
    (hnext : Spells second cs) :
    Spells (first ++ second) (bs ++ cs) := by
  induction h with
  | nil => exact hnext
  | separator hb _ ih => exact .separator hb ih
  | mark hletter _ ih => exact .mark hletter ih
  | pair hhigh hbetween hlow _ ih =>
      rw [List.append_assoc, List.cons_append]
      exact .pair hhigh hbetween hlow ih

theorem spells_hexPair (b : UInt8) : Spells (Bytes.hexPair b) [b] := by
  have hlt := b.toNat_lt
  have hhigh : DigitOf (b.toNat / 16) (Nat.digitChar (b.toNat / 16)).toUInt8 :=
    ⟨by omega, .inl rfl⟩
  have hlow : DigitOf (b.toNat % 16) (Nat.digitChar (b.toNat % 16)).toUInt8 :=
    ⟨by omega, .inl rfl⟩
  have hpair := Spells.pair hhigh (List.forall_mem_nil _) hlow .nil
  rw [Nat.div_add_mod, UInt8.ofNat_toNat] at hpair
  rwa [Bytes.hexPair_eq]

theorem spells_render (bs : Bytes) : Spells (render bs) bs := by
  induction bs with
  | nil => exact .nil
  | cons b bs ih => exact (spells_hexPair b).append ih

theorem parse_eq_ok_iff (text bytes : Bytes) : parse text = .ok bytes ↔ Spells text bytes := by
  have hscan : parse text = .ok bytes ↔ scan .nothing text = some bytes := by
    rw [parse]
    cases scan .nothing text <;> simp
  rw [hscan]
  exact ⟨spells_of_scan Pending.standsFor_nothing, scan_of_spells⟩

/-- A separator within a pair, both cases of digits, and a mark between pairs. -/
example : parse (Bytes.ofChars ['0', ' ', 'f', '0', 'X', 'A', 'b', '-']) = .ok [0x0f, 0xab] := rfl

/-- Reading a hexadecimal text gives the bytes that it spells, and refuses every text
that spells none. -/
theorem parse_spelled (text : Bytes) :
    (∀ bytes, parse text = .ok bytes ↔ Spells text bytes) ∧
      ((∀ bytes, ¬Spells text bytes) ↔ parse text = .error .invalidArgument) := by
  refine ⟨parse_eq_ok_iff text, ?_⟩
  simp only [← parse_eq_ok_iff]
  rw [parse]
  cases scan .nothing text <;> simp

end PackedRecord.Hex
