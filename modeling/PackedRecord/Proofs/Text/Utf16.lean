import PackedRecord.Proofs.Text.Utf8
import PackedRecord.Text.Encoding

/-!
UTF-16 units.

Units spell characters when each character is one unit or a pair of surrogates
that make up its number. Every list of characters is spelled by its own units
and read back from them. Other lists of units hold a surrogate without its
partner. No unit is both a high and a low surrogate, so whether one has a
partner can be told from its neighbours, and the units that come back are those
of the list with U+FFFD in the places of the others.
-/

namespace PackedRecord

namespace Utf16

/-- The units stand for the characters one after the other. -/
inductive Spells : List Nat → List Char → Prop where
  | nil : Spells [] []
  | unit {c : Char} {units : List Nat} {cs : List Char} (hlt : c.toNat < 0x10000)
      (hrest : Spells units cs) : Spells (c.toNat :: units) (c :: cs)
  | pair {high low : Nat} {c : Char} {units : List Nat} {cs : List Char}
      (hhigh : 0xD800 ≤ high ∧ high ≤ 0xDBFF) (hlow : 0xDC00 ≤ low ∧ low ≤ 0xDFFF)
      (hc : c.toNat = 0x10000 + (high - 0xD800) * 0x400 + (low - 0xDC00))
      (hrest : Spells units cs) : Spells (high :: low :: units) (c :: cs)

/-- A high surrogate and a low one right behind it. -/
def pairAt (units : List Nat) (i : Nat) : Bool :=
  units[i]?.any isHigh && units[i + 1]?.any isLow

/-- A surrogate that is in no pair. -/
def unpaired (units : List Nat) (i : Nat) : Bool :=
  units[i]?.any (fun unit => isHigh unit || isLow unit) && !pairAt units i &&
    !(0 < i && pairAt units (i - 1))

/-- The units with U+FFFD for each surrogate that is in no pair. -/
def mended (units : List Nat) : List Nat :=
  units.mapIdx fun i unit => if unpaired units i then 0xFFFD else unit

section Characters

theorem spells_ofChars (cs : List Char) : Spells (ofChars cs) cs := by
  induction cs with
  | nil => exact .nil
  | cons c cs ih =>
      rw [ofChars, List.flatMap_cons, ← ofChars, unitsOfChar]
      have hvalid := Utf8.toNat_valid c
      by_cases hc : c.toNat < 0x10000
      · rw [if_pos hc]
        exact .unit hc ih
      · rw [if_neg hc]
        refine .pair ?_ ?_ ?_ ih <;> omega

theorem joined_eq {high low : Nat} {c : Char}
    (hc : c.toNat = 0x10000 + (high - 0xD800) * 0x400 + (low - 0xDC00)) : joined high low = c := by
  rw [joined, ← hc, Char.ofNat_toNat]

theorem single_toNat (c : Char) : single c.toNat = c := by
  have hvalid := Utf8.toNat_valid c
  rw [single, if_neg, Char.ofNat_toNat]
  simp only [isHigh, isLow, Bool.or_eq_true, Bool.and_eq_true, decide_eq_true_eq]
  omega

theorem toChars_pair {high low : Nat} (h : (isHigh high && isLow low) = true) (units : List Nat) :
    toChars (high :: low :: units) = joined high low :: toChars units := by
  rw [toChars, if_pos h]

/-- A unit that does not begin a pair is read by itself. -/
theorem toChars_single {unit : Nat} {units : List Nat}
    (h : ∀ next ∈ units.head?, (isHigh unit && isLow next) = false) :
    toChars (unit :: units) = single unit :: toChars units := by
  cases units with
  | nil => rfl
  | cons next rest => rw [toChars, if_neg (by rw [h next rfl]; decide)]

theorem toChars_of_spells {units : List Nat} {cs : List Char} (h : Spells units cs) :
    toChars units = cs := by
  induction h with
  | nil => rfl
  | @unit c units cs hlt hrest ih =>
      have hvalid := Utf8.toNat_valid c
      have hhigh : isHigh c.toNat = false := by
        simp only [isHigh, Bool.and_eq_false_iff, decide_eq_false_iff_not]
        omega
      rw [toChars_single (fun next _ => by rw [hhigh, Bool.false_and]), single_toNat, ih]
  | pair hhigh hlow hc hrest ih =>
      rw [toChars_pair (by simp [isHigh, isLow, hhigh, hlow]), joined_eq hc, ih]

theorem lt_of_mem_ofChars {cs : List Char} {unit : Nat} (h : unit ∈ ofChars cs) :
    unit < 0x10000 := by
  obtain ⟨c, -, hunit⟩ := List.mem_flatMap.mp h
  have hvalid := Utf8.toNat_valid c
  rw [unitsOfChar] at hunit
  split at hunit
  · rw [List.mem_singleton.mp hunit]
    assumption
  · simp only [List.mem_cons, List.not_mem_nil, or_false] at hunit
    omega

end Characters

section Pairs

theorem ofChars_joined {high low : Nat} (h : (isHigh high && isLow low) = true)
    (cs : List Char) : ofChars (joined high low :: cs) = high :: low :: ofChars cs := by
  simp only [isHigh, isLow, Bool.and_eq_true, decide_eq_true_eq] at h
  obtain ⟨⟨hhigh, hhigh'⟩, hlow, hlow'⟩ := h
  have hvalid : (0x10000 + (high - 0xD800) * 0x400 + (low - 0xDC00)).isValidChar := by
    simp only [Nat.isValidChar]
    omega
  have hnumber : (joined high low).toNat = 0x10000 + (high - 0xD800) * 0x400 + (low - 0xDC00) := by
    rw [joined, Char.toNat_ofNat, if_pos hvalid]
  have hfirst : 0xD800 + ((joined high low).toNat - 0x10000) / 0x400 = high := by omega
  have hsecond : 0xDC00 + ((joined high low).toNat - 0x10000) % 0x400 = low := by omega
  rw [ofChars, List.flatMap_cons, unitsOfChar, if_neg (by omega), ← ofChars]
  simp only [hfirst, hsecond, List.cons_append, List.nil_append]

theorem ofChars_single {unit : Nat} (hunit : unit < 0x10000) (cs : List Char) :
    ofChars (single unit :: cs) =
      (if isHigh unit || isLow unit then 0xFFFD else unit) :: ofChars cs := by
  rw [ofChars, List.flatMap_cons, ← ofChars, single]
  split
  · rfl
  next h =>
    simp only [isHigh, isLow, Bool.or_eq_true, Bool.and_eq_true, decide_eq_true_eq] at h
    have hvalid : unit.isValidChar := by
      simp only [Nat.isValidChar]
      omega
    rw [unitsOfChar, Char.toNat_ofNat, if_pos hvalid, if_pos hunit]
    rfl

theorem pairAt_succ (unit : Nat) (units : List Nat) (i : Nat) :
    pairAt (unit :: units) (i + 1) = pairAt units i := rfl

/-- Units behind one that begins no pair are paired as if they were alone. -/
theorem unpaired_succ {unit : Nat} {units : List Nat} (h : pairAt (unit :: units) 0 = false)
    (i : Nat) : unpaired (unit :: units) (i + 1) = unpaired units i := by
  cases i with
  | zero => simp [unpaired, pairAt_succ, h]
  | succ i => simp [unpaired, pairAt_succ]

theorem pairAt_low {low : Nat} (h : isLow low = true) (units : List Nat) :
    pairAt (low :: units) 0 = false := by
  have hhigh : isHigh low = false := by
    simp only [isHigh, isLow, Bool.and_eq_true, decide_eq_true_eq, Bool.and_eq_false_iff,
      decide_eq_false_iff_not] at h ⊢
    omega
  simp [pairAt, hhigh]

/-- Each unit comes back, but for those in no pair. -/
theorem getElem?_ofChars_toChars {units : List Nat} (h : ∀ unit ∈ units, unit < 0x10000)
    (i : Nat) : (ofChars (toChars units))[i]? =
      units[i]?.map fun unit => if unpaired units i then 0xFFFD else unit := by
  fun_induction toChars units generalizing i with
  | case1 => rfl
  | case2 unit =>
      rw [ofChars_single (h unit (List.mem_singleton_self _))]
      cases i with
      | zero => simp [unpaired, pairAt]
      | succ i => rfl
  | case3 high low units hpair ih =>
      obtain ⟨hhigh, hlow⟩ := Bool.and_eq_true_iff.mp hpair
      have hfirst : pairAt (high :: low :: units) 0 = true := by simp [pairAt, hhigh, hlow]
      rw [ofChars_joined hpair]
      cases i with
      | zero => simp [unpaired, hfirst]
      | succ i =>
          cases i with
          | zero => simp [unpaired, hfirst]
          | succ i =>
              have hrest := ih (fun unit hunit => h unit (by simp [hunit])) i
              have hsecond := pairAt_low hlow units
              have hunpaired : unpaired (high :: low :: units) (i + 2) = unpaired units i := by
                cases i with
                | zero => simp [unpaired, pairAt_succ, hsecond]
                | succ i => simp [unpaired, pairAt_succ]
              simpa only [List.getElem?_cons_succ, hunpaired] using hrest
  | case4 unit next units hpair ih =>
      have hfirst : pairAt (unit :: next :: units) 0 = false := by
        simpa [pairAt] using hpair
      rw [ofChars_single (h unit (by simp))]
      cases i with
      | zero => simp [unpaired, hfirst]
      | succ i =>
          have hrest := ih (fun u hu => h u (List.mem_cons_of_mem _ hu)) i
          simpa only [List.getElem?_cons_succ, unpaired_succ hfirst] using hrest

theorem ofChars_toChars {units : List Nat} (h : ∀ unit ∈ units, unit < 0x10000) :
    ofChars (toChars units) = mended units := by
  apply List.ext_getElem?
  intro i
  rw [getElem?_ofChars_toChars h, mended, List.getElem?_mapIdx]

theorem mended_eq_self_iff (units : List Nat) :
    mended units = units ↔ ∀ i, unpaired units i = false := by
  constructor
  · intro h i
    have hunit := congrArg (fun list => list[i]?) h
    simp only [mended, List.getElem?_mapIdx] at hunit
    cases hi : units[i]? with
    | none => simp [unpaired, hi]
    | some unit =>
        rw [hi, Option.map_some, Option.some.injEq] at hunit
        by_contra hfalse
        have htrue := Bool.of_not_eq_false hfalse
        rw [if_pos htrue] at hunit
        subst hunit
        simp [unpaired, hi, isHigh, isLow] at htrue
  · intro h
    apply List.ext_getElem?
    intro i
    simp [mended, h]

theorem lt_of_mem_mended {units : List Nat} (h : ∀ unit ∈ units, unit < 0x10000) {unit : Nat}
    (hunit : unit ∈ mended units) : unit < 0x10000 :=
  lt_of_mem_ofChars (by rwa [ofChars_toChars h])

end Pairs

section LittleEndian

theorem encode_unit (unit : Nat) :
    ByteOrder.little.encode 2 unit = [UInt8.ofNat (unit % 256), UInt8.ofNat (unit / 256)] := by
  rw [show UInt8.ofNat (unit % 256) = UInt8.ofNat unit from UInt8.ofNat_mod_size]
  rfl

theorem length_littleEndian (units : List Nat) :
    (littleEndian units).length = 2 * units.length := by
  simp [littleEndian, ByteOrder.length_encode, Nat.mul_comm]

theorem unitsOfBytes_littleEndian {units : List Nat} (h : ∀ unit ∈ units, unit < 0x10000) :
    unitsOfBytes (littleEndian units) = units := by
  induction units with
  | nil => rfl
  | cons unit units ih =>
      have hunit : unit % ByteOrder.wordCount 2 = unit :=
        Nat.mod_eq_of_lt (h unit (List.mem_cons_self ..))
      have hdecode := ByteOrder.decode_encode .little 2 unit
      rw [encode_unit, hunit] at hdecode
      rw [littleEndian, List.flatMap_cons, ← littleEndian, encode_unit]
      simp only [List.cons_append, List.nil_append, unitsOfBytes, hdecode]
      rw [ih fun u hu => h u (List.mem_cons_of_mem _ hu)]

theorem lt_of_mem_unitsOfBytes {bs : Bytes} {unit : Nat} (h : unit ∈ unitsOfBytes bs) :
    unit < 0x10000 := by
  fun_induction unitsOfBytes bs with
  | case1 low high rest ih =>
      rcases List.mem_cons.mp h with rfl | h
      · have hlow := low.toNat_lt
        have hhigh := high.toNat_lt
        simp only [ByteOrder.decode, ByteOrder.littleValue]
        omega
      · exact ih h
  | case2 => contradiction

/-- The units of bytes hold all of them but a last odd one. -/
theorem littleEndian_unitsOfBytes (bs : Bytes) :
    littleEndian (unitsOfBytes bs) = bs.take (2 * (bs.length / 2)) := by
  fun_induction unitsOfBytes bs with
  | case1 low high rest ih =>
      have hword := ByteOrder.encode_decode .little [low, high]
      have hlength : 2 * ((low :: high :: rest).length / 2) = 2 * (rest.length / 2) + 2 := by
        simp only [List.length_cons]
        omega
      rw [hlength, List.take_succ_cons, List.take_succ_cons, ← ih, littleEndian, List.flatMap_cons,
        ← littleEndian]
      exact congrArg (· ++ littleEndian (unitsOfBytes rest)) hword
  | case2 bs hshort =>
      have hlength : bs.length / 2 = 0 := by
        rcases bs with _ | ⟨low, _ | ⟨high, rest⟩⟩
        · rfl
        · exact Nat.div_eq_of_lt Nat.one_lt_two
        · exact absurd rfl (hshort low high rest)
      rw [hlength]
      rfl

theorem getElem?_unitsOfBytes (bs : Bytes) (i : Nat) :
    (unitsOfBytes bs)[i]? = (bs[2 * i]?).bind fun low =>
      (bs[2 * i + 1]?).map fun high => low.toNat + 256 * high.toNat := by
  fun_induction unitsOfBytes bs generalizing i with
  | case1 low high rest ih =>
      cases i with
      | zero => rfl
      | succ i => exact ih i
  | case2 bs hshort =>
      rcases bs with _ | ⟨low, _ | ⟨high, rest⟩⟩
      · rfl
      · simp
      · exact absurd rfl (hshort low high rest)

end LittleEndian

end Utf16

end PackedRecord
