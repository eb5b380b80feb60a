import Mathlib.Data.List.Forall2
import PackedRecord.Proofs.Field.Slot
import PackedRecord.Proofs.Field.Place

/-!
Integers in their fields.

An integer field holds the residue of the integer that its value stands for, in
either byte order, so it does not show of which kind the value was. A field of 64
bits takes the integers that 64 bits can hold and no other number. A narrower one
takes every number, a double as it is cut to the range of exact integers; within
that range a double counts as the integer that it is.
-/

namespace PackedRecord

/-- The codes of integers of 64 bits. -/
def wideCodes : Bytes :=
  Bytes.ofChars ['q', 'Q']

/-- The codes of integers of 8, 16 and 32 bits. -/
def narrowCodes : Bytes :=
  Bytes.ofChars ['b', 'B', 'h', 'H', 'i', 'I', 'l', 'L']

theorem exists_of_mem_wideCodes {code : UInt8} (h : code ∈ wideCodes) :
    ∃ signed, Code.ofByte? code = some (.scalar (.integer signed .quad)) := by
  simp only [wideCodes, Bytes.ofChars, List.map_cons, List.map_nil, List.mem_cons,
    List.not_mem_nil, or_false] at h
  rcases h with rfl | rfl
  · exact ⟨true, rfl⟩
  · exact ⟨false, rfl⟩

theorem exists_of_mem_narrowCodes {code : UInt8} (h : code ∈ narrowCodes) :
    ∃ signed size, size ≠ .quad ∧ Code.ofByte? code = some (.scalar (.integer signed size)) := by
  simp only [narrowCodes, Bytes.ofChars, List.map_cons, List.map_nil, List.mem_cons,
    List.not_mem_nil, or_false] at h
  rcases h with rfl | rfl | rfl | rfl | rfl | rfl | rfl | rfl
  · exact ⟨true, .byte, by decide, rfl⟩
  · exact ⟨false, .byte, by decide, rfl⟩
  · exact ⟨true, .short, by decide, rfl⟩
  · exact ⟨false, .short, by decide, rfl⟩
  · exact ⟨true, .long, by decide, rfl⟩
  · exact ⟨false, .long, by decide, rfl⟩
  · exact ⟨true, .long, by decide, rfl⟩
  · exact ⟨false, .long, by decide, rfl⟩

theorem Code.widthOfByte_integer {code : UInt8} {signed : Bool} {size : IntSize}
    (h : ofByte? code = some (.scalar (.integer signed size))) : widthOfByte code = size.width := by
  rw [widthOfByte, h]
  rfl

namespace Binary64

theorem clamped_of_number? {x : Binary64} {v : ℚ} (h : x.number? = some v) (limit : ℕ) :
    x.clamped limit = max (-limit : ℚ) (min limit v) := by
  rw [number?] at h
  rw [clamped]
  cases hdatum : x.datum with
  | finite negative u =>
      simp only [hdatum, Option.some.injEq] at h
      simp only [h]
  | infinite negative | nan negative payload => simp [hdatum] at h

end Binary64

theorem towardZero_intCast (n : ℤ) : towardZero n = n := by
  rw [towardZero, Int.ceil_intCast, Int.floor_intCast, ite_self]

theorem Value.countsIn_narrow {size : IntSize} (h : size ≠ .quad) (value : Value) (n : ℤ) :
    value.CountsIn size n = value.CutsTo n := by
  cases size with
  | byte | short | long => rfl
  | quad => contradiction

/-- In the range of exact integers a value counts as the integer that it is. -/
theorem Value.cutsTo_of_denotes {value : Value} {n : ℤ} (h : value.Denotes n)
    (hreal : ∀ x, value = .real x → |n| ≤ 2 ^ 53 - 1) : value.CutsTo n := by
  cases value with
  | absent | bytes v => contradiction
  | bool b | int m | uint m => exact h
  | real x =>
      obtain ⟨hlow, hhigh⟩ := abs_le.mp (hreal x rfl)
      have hlimit : (safeIntegerLimit : ℚ) = ((2 ^ 53 - 1 : ℤ) : ℚ) := by
        norm_num [safeIntegerLimit]
      have hlow' : -(safeIntegerLimit : ℚ) ≤ n := by
        rw [hlimit]
        exact_mod_cast hlow
      have hhigh' : (n : ℚ) ≤ safeIntegerLimit := by
        rw [hlimit]
        exact_mod_cast hhigh
      rw [CutsTo, Binary64.clamped_of_number? h, min_eq_right hhigh', max_eq_right hlow',
        towardZero_intCast]

namespace Item

variable {order : ByteOrder} {target : View}

section Words

variable {scalar : Scalar} {values : List Value} {words : List Bytes}
  (hwords : List.Forall₂ (fun value word => ∀ s, scalar.encode? order s value = some word)
    values words)
include hwords

theorem length_words : words.flatten.length = values.length * scalar.width := by
  induction hwords with
  | nil => exact (Nat.zero_mul _).symm
  | cons hword _ ih =>
      rw [List.flatten_cons, List.length_append, ih, Scalar.length_encode? (hword .empty),
        List.length_cons, Nat.succ_mul, Nat.add_comm]

/-- Elements whose bytes do not depend on the store are written side by side. -/
theorem packScalars_words (rest : List Value) (s : Store) (p : Progress)
    (hfit : p.offset + values.length * scalar.width ≤ target.size) :
    packScalars scalar order target values.length (values ++ rest) s p =
      ⟨s.patch target.block (target.offset + p.offset) words.flatten,
        ⟨p.offset + values.length * scalar.width, p.consumed + values.length⟩, none⟩ := by
  induction hwords generalizing s p with
  | nil =>
      simp only [List.length_nil, packScalars, List.flatten_nil, Store.patch_nil, Nat.zero_mul,
        Nat.add_zero]
  | @cons value word values words hword hwords ih =>
      have hlength := Scalar.length_encode? (hword s)
      rw [List.length_cons, Nat.succ_mul] at hfit
      have hroom : p.offset + scalar.width ≤ target.size := by omega
      simp only [List.length_cons, List.cons_append, packScalars, hword s,
        View.field?_eq_some hroom]
      rw [ih _ _ (by simp only; omega), Store.write_slice s (by omega) hroom, List.flatten_cons,
        ← Store.patch_patch_append, hlength]
      simp only [Nat.succ_mul, Nat.add_assoc, Nat.add_comm 1, Nat.add_comm scalar.width]

end Words

/-- An item of integers holds the residues of the integers that its values count for. -/
theorem pack_residues {code : UInt8} {signed : Bool} {size : IntSize}
    (hcode : Code.ofByte? code = some (.scalar (.integer signed size))) {values : List Value}
    {ns : List ℤ}
    (hcounts : List.Forall₂ (fun value n =>
      value.CountsIn size n ∧ (size = .quad → -2 ^ 63 ≤ n ∧ n < 2 ^ 64)) values ns)
    (order : ByteOrder) (rest : List Value) (s : Store) {offset : ℕ}
    (hfit : offset + values.length * size.width ≤ target.size) :
    pack ⟨values.length, code⟩ order target (values ++ rest) s offset =
      ⟨s.write (target.slice offset (offset + values.length * size.width))
          (ns.flatMap fun n => order.encode size.width (n % 2 ^ (8 * size.width)).toNat),
        ⟨offset + values.length * size.width, values.length⟩, none⟩ := by
  have hwords : List.Forall₂ (fun value word => ∀ s,
      (Scalar.integer signed size).encode? order s value = some word) values
      (ns.map fun n => order.encode size.width (n % 2 ^ (8 * size.width)).toNat) := by
    rw [List.forall₂_map_right_iff]
    refine hcounts.imp fun value n h s => ?_
    rw [Scalar.encode?_integer h.1 h.2, ByteOrder.wordCount_eq]
    push_cast
    rfl
  have hrun := packScalars_words hwords rest s ⟨offset, 0⟩ hfit
  have hlength := length_words hwords
  rw [← List.flatMap_def] at hrun hlength
  rw [pack, show kind? ⟨values.length, code⟩ = _ from hcode, Store.write_slice s (by
    rw [hlength]
    rfl) hfit]
  simp only [hrun, Nat.zero_add]
  rfl

/-- A field of 64 bits refuses a double that is no integer in its range, and writes nothing. -/
theorem pack_wide_real {code : UInt8} (hcode : code ∈ wideCodes) (order : ByteOrder) (s : Store)
    {offset : ℕ} (hfit : offset + 8 ≤ target.size) (x : Binary64) (rest : List Value) :
    let step := pack ⟨1, code⟩ order target (.real x :: rest) s offset
    (step.fault = none ↔ ∃ n : ℤ, x.number? = some (n : ℚ) ∧ -2 ^ 63 ≤ n ∧ n < 2 ^ 64) ∧
      (step.fault ≠ none → step = ⟨s, ⟨offset, 0⟩, some (.pack .invalidArgument)⟩) := by
  obtain ⟨signed, hkind⟩ := exists_of_mem_wideCodes hcode
  have hsome := Scalar.isSome_encode? (.integer signed .quad) order s (.real x)
  have hwide := Value.isWide_iff (.real x)
  simp only [Scalar.accepts] at hsome
  rw [← hsome] at hwide
  simp only [pack, show kind? ⟨1, code⟩ = _ from hkind, packScalars]
  cases hword : (Scalar.integer signed .quad).encode? order s (.real x) with
  | none =>
      rw [hword] at hwide
      exact ⟨⟨fun h => by contradiction, fun h => by simpa using hwide.mpr h⟩, fun _ => rfl⟩
  | some word =>
      rw [hword] at hwide
      simp only [View.field?_eq_some (show offset + Scalar.width (.integer signed .quad) ≤ _
        from hfit)]
      exact ⟨⟨fun _ => hwide.mp rfl, fun _ => trivial⟩, fun h => absurd rfl h⟩

/-- Integers are written as their residues, whatever values stand for them. -/
theorem pack_integers (order : ByteOrder) (target : View) (s : Store) (offset : ℕ)
    (rest : List Value) :
    (∀ code ∈ wideCodes, ∀ (values : List Value) (ns : List ℤ),
        List.Forall₂ (fun value n => value.Denotes n ∧ -2 ^ 63 ≤ n ∧ n < 2 ^ 64) values ns →
        offset + values.length * 8 ≤ target.size →
        pack ⟨values.length, code⟩ order target (values ++ rest) s offset =
          ⟨s.write (target.slice offset (offset + values.length * 8))
              (ns.flatMap fun n => order.encode 8 (n % 2 ^ 64).toNat),
            ⟨offset + values.length * 8, values.length⟩, none⟩) ∧
      (∀ code ∈ narrowCodes, ∀ (values : List Value) (ns : List ℤ),
        List.Forall₂ (fun value n =>
          value.Denotes n ∧ ∀ x, value = .real x → |n| ≤ 2 ^ 53 - 1) values ns →
        offset + values.length * Code.widthOfByte code ≤ target.size →
        pack ⟨values.length, code⟩ order target (values ++ rest) s offset =
          ⟨s.write (target.slice offset (offset + values.length * Code.widthOfByte code))
              (ns.flatMap fun n => order.encode (Code.widthOfByte code)
                (n % 2 ^ (8 * Code.widthOfByte code)).toNat),
            ⟨offset + values.length * Code.widthOfByte code, values.length⟩, none⟩) ∧
      (∀ code ∈ wideCodes, ∀ x : Binary64, offset + 8 ≤ target.size →
        let step := pack ⟨1, code⟩ order target (.real x :: rest) s offset
        (step.fault = none ↔ ∃ n : ℤ, x.number? = some (n : ℚ) ∧ -2 ^ 63 ≤ n ∧ n < 2 ^ 64) ∧
          (step.fault ≠ none → step = ⟨s, ⟨offset, 0⟩, some (.pack .invalidArgument)⟩)) ∧
      ∀ code ∈ narrowCodes, ∀ xs : List Binary64,
        offset + xs.length * Code.widthOfByte code ≤ target.size →
        pack ⟨xs.length, code⟩ order target (xs.map .real ++ rest) s offset =
          ⟨s.write (target.slice offset (offset + xs.length * Code.widthOfByte code))
              (xs.flatMap fun x => order.encode (Code.widthOfByte code)
                (towardZero (x.clamped (2 ^ 53 - 1)) % 2 ^ (8 * Code.widthOfByte code)).toNat),
            ⟨offset + xs.length * Code.widthOfByte code, xs.length⟩, none⟩ := by
  refine ⟨?_, ?_, fun code hcode x hfit => pack_wide_real hcode order s hfit x rest, ?_⟩
  · intro code hcode values ns hvalues hfit
    obtain ⟨signed, hkind⟩ := exists_of_mem_wideCodes hcode
    exact pack_residues hkind (hvalues.imp fun _ _ h => ⟨h.1, fun _ => h.2⟩) order rest s hfit
  · intro code hcode values ns hvalues hfit
    obtain ⟨signed, size, hsize, hkind⟩ := exists_of_mem_narrowCodes hcode
    rw [Code.widthOfByte_integer hkind] at hfit ⊢
    refine pack_residues hkind (hvalues.imp fun value n h => ?_) order rest s hfit
    rw [Value.countsIn_narrow hsize]
    exact ⟨Value.cutsTo_of_denotes h.1 h.2, fun hquad => absurd hquad hsize⟩
  · intro code hcode xs hfit
    obtain ⟨signed, size, hsize, hkind⟩ := exists_of_mem_narrowCodes hcode
    rw [Code.widthOfByte_integer hkind] at hfit ⊢
    have hcuts : List.Forall₂ (fun value n =>
        value.CountsIn size n ∧ (size = .quad → -2 ^ 63 ≤ n ∧ n < 2 ^ 64)) (xs.map Value.real)
        (xs.map fun x => towardZero (x.clamped (2 ^ 53 - 1))) := by
      rw [List.forall₂_map_left_iff, List.forall₂_map_right_iff, List.forall₂_same]
      intro x _
      rw [Value.countsIn_narrow hsize]
      exact ⟨rfl, fun hquad => absurd hquad hsize⟩
    have hrun := pack_residues hkind hcuts order rest s (by rwa [List.length_map])
    rw [List.length_map, List.flatMap_map] at hrun
    exact hrun

/-- A negative integer, the greatest unsigned one and minus zero in fields of 64 bits, a truth
value and minus zero in narrow ones, two to the power of 64 that no field of 64 bits takes, and
an infinity that a narrow one cuts. -/
theorem pack_integers_kinds :
    let target : View := ⟨0, 1, 24⟩
    let s : Store := ⟨[List.replicate 26 7]⟩
    let minusZero : Binary64 := ⟨0x8000000000000000⟩
    let beyond : Binary64 := ⟨0x43F0000000000000⟩
    let infinity : Binary64 := ⟨0xFFF0000000000000⟩
    minusZero.number? = some ((0 : ℤ) : ℚ) ∧
      pack ⟨3, 'q'.toUInt8⟩ .big target [.int (-1), .uint 0xFFFFFFFFFFFFFFFF, .real minusZero] s 0 =
        ⟨⟨[7 :: List.replicate 16 255 ++ List.replicate 8 0 ++ [7]]⟩, ⟨24, 3⟩, none⟩ ∧
      pack ⟨2, 'h'.toUInt8⟩ .little target [.bool true, .real minusZero] s 0 =
        ⟨⟨[7 :: 1 :: List.replicate 3 0 ++ List.replicate 21 7]⟩, ⟨4, 2⟩, none⟩ ∧
      pack ⟨1, 'Q'.toUInt8⟩ .little target [.real beyond] s 0 =
        ⟨s, ⟨0, 0⟩, some (.pack .invalidArgument)⟩ ∧
      (pack ⟨1, 'i'.toUInt8⟩ .little target [.real infinity] s 0).store =
        s.write (target.slice 0 4)
          (ByteOrder.little.encode 4
            (towardZero (infinity.clamped (2 ^ 53 - 1)) % 2 ^ 32).toNat) := by
  intro target s minusZero beyond infinity
  have hzero : minusZero.number? = some ((0 : ℤ) : ℚ) :=
    (minusZero.wholeNumber?_eq_some_iff 0).mp (by decide +kernel)
  refine ⟨hzero, ?_, ?_, ?_, ?_⟩
  · have hvalues : List.Forall₂ (fun value n => Value.Denotes value n ∧ -2 ^ 63 ≤ n ∧ n < 2 ^ 64)
        [.int (-1), .uint 0xFFFFFFFFFFFFFFFF, .real minusZero] [-1, 2 ^ 64 - 1, 0] :=
      .cons ⟨rfl, by decide⟩ (.cons ⟨rfl, by decide⟩ (.cons ⟨hzero, by decide⟩ .nil))
    refine ((pack_integers .big target s 0 []).1 _ (by decide) _ _ hvalues (by decide)).trans ?_
    decide
  · have hvalues : List.Forall₂ (fun value n =>
        Value.Denotes value n ∧ ∀ x, value = .real x → |n| ≤ 2 ^ 53 - 1)
        [.bool true, .real minusZero] [1, 0] :=
      .cons ⟨rfl, fun _ h => by contradiction⟩ (.cons ⟨hzero, fun _ _ => by decide⟩ .nil)
    refine ((pack_integers .little target s 0 []).2.1 _ (by decide) _ _ hvalues
      (by decide)).trans ?_
    decide
  · exact ((pack_integers .little target s 0 []).2.2.1 'Q'.toUInt8 (by decide) beyond (by decide)).2
      (by decide +kernel)
  · exact congrArg ItemPacked.store
      ((pack_integers .little target s 0 []).2.2.2 'i'.toUInt8 (by decide) [infinity] (by decide))

end Item

end PackedRecord
