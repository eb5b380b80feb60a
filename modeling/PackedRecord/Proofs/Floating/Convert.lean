import PackedRecord.Proofs.Floating.Significand

/-!
Conversions between layouts.

A pattern is finite, infinite, or not a number, and a sign bit lies above it. A
layout that is wide enough holds every magnitude of a narrower one, so widening
a finite pattern is exact and narrowing it again gives the pattern back. What
is not a number comes back with its quiet bit set.
-/

namespace PackedRecord

/-- The sign of what a pattern stands for. -/
def FloatDatum.negative : FloatDatum → Bool
  | finite negative _ | infinite negative | nan negative _ => negative

namespace FloatLayout

theorem signBit_eq (L : FloatLayout) : L.signBit = 2 ^ (L.exponentBits + L.fractionBits) := rfl

theorem quietBit_eq (L : FloatLayout) : L.quietBit = 2 ^ (L.fractionBits - 1) := rfl

theorem infinity_add (L : FloatLayout) : L.infinity + 2 ^ L.fractionBits = L.signBit := by
  have hpos := Nat.two_pow_pos L.exponentBits
  rw [infinity_eq, signBit_eq, Nat.pow_add, ← Nat.succ_mul]
  congr 1
  omega

theorem infinity_lt_signBit (L : FloatLayout) : L.infinity < L.signBit := by
  have hadd := L.infinity_add
  have hpos := Nat.two_pow_pos L.fractionBits
  omega

section Classify

variable (L : FloatLayout) (negative : Bool) {pattern : Nat}

theorem withSign_lt (h : pattern < L.signBit) : L.withSign negative pattern < 2 * L.signBit := by
  cases negative with
  | false => exact Nat.lt_of_lt_of_le h (by omega)
  | true =>
      simp only [withSign, if_true]
      omega

/-- A word is a sign above a pattern. -/
theorem exists_withSign {bits : Nat} (h : bits < 2 * L.signBit) :
    ∃ negative pattern, pattern < L.signBit ∧ bits = L.withSign negative pattern := by
  by_cases hbits : bits < L.signBit
  · exact ⟨false, bits, hbits, rfl⟩
  · refine ⟨true, bits - L.signBit, by omega, ?_⟩
    simp only [withSign, if_true]
    omega

theorem classify_withSign (h : pattern < L.signBit) :
    L.classify (L.withSign negative pattern) =
      if pattern < L.infinity then .finite negative (L.units pattern)
      else if pattern = L.infinity then .infinite negative
      else .nan negative (pattern - L.infinity) := by
  have hpos : 0 < L.signBit := Nat.two_pow_pos _
  have hsign : ((L.withSign negative pattern / L.signBit) % 2 == 1) = negative := by
    cases negative with
    | false => simp [withSign, Nat.div_eq_of_lt h]
    | true => simp [withSign, Nat.add_div_left _ hpos, Nat.div_eq_of_lt h]
  have hpattern : L.withSign negative pattern % L.signBit = pattern := by
    cases negative with
    | false => exact Nat.mod_eq_of_lt h
    | true => simp [withSign, Nat.mod_eq_of_lt h]
  simp only [classify, hsign, hpattern]

theorem classify_finite (h : pattern < L.infinity) :
    L.classify (L.withSign negative pattern) = .finite negative (L.units pattern) := by
  have hlt := L.infinity_lt_signBit
  rw [classify_withSign L negative (by omega), if_pos h]

theorem classify_infinity :
    L.classify (L.withSign negative L.infinity) = .infinite negative := by
  rw [classify_withSign L negative L.infinity_lt_signBit, if_neg (by omega), if_pos rfl]

theorem classify_nan {payload : Nat} (hpos : 0 < payload)
    (hlt : payload < 2 ^ L.fractionBits) :
    L.classify (L.withSign negative (L.infinity + payload)) = .nan negative payload := by
  have hadd := L.infinity_add
  rw [classify_withSign L negative (by omega), if_neg (by omega), if_neg (by omega),
    Nat.add_sub_cancel_left]

/-- The sign is the topmost bit. -/
theorem negative_classify (bits : Nat) :
    (L.classify bits).negative = (bits / L.signBit % 2 == 1) := by
  simp only [classify]
  split
  · rfl
  · split <;> rfl

/-- The words of a layout: finite, infinite, and not a number. -/
theorem word_cases {bits : Nat} (h : bits < 2 * L.signBit) :
    ∃ negative,
      (∃ pattern, pattern < L.infinity ∧ bits = L.withSign negative pattern) ∨
      bits = L.withSign negative L.infinity ∨
      ∃ payload, 0 < payload ∧ payload < 2 ^ L.fractionBits ∧
        bits = L.withSign negative (L.infinity + payload) := by
  obtain ⟨negative, pattern, hpattern, hbits⟩ := L.exists_withSign h
  have hadd := L.infinity_add
  refine ⟨negative, ?_⟩
  rcases Nat.lt_trichotomy pattern L.infinity with hlt | heq | hgt
  · exact .inl ⟨pattern, hlt, hbits⟩
  · exact .inr (.inl (by rw [hbits, heq]))
  · refine .inr (.inr ⟨pattern - L.infinity, by omega, by omega, ?_⟩)
    rw [Nat.add_sub_cancel' (Nat.le_of_lt hgt)]
    exact hbits

end Classify

/-- A word that is not a number with its quiet bit set; any other as it is. -/
def quieted (L : FloatLayout) (bits : Nat) : Nat :=
  match L.classify bits with
  | .nan _ _ => bits ||| L.quietBit
  | _ => bits

/-- The fraction lies below the exponent and the sign. -/
theorem exists_withSign_add (L : FloatLayout) (negative : Bool) :
    ∃ top, ∀ fraction, fraction < 2 ^ L.fractionBits →
      L.withSign negative (L.infinity + fraction) = 2 ^ L.fractionBits * top ||| fraction := by
  cases negative with
  | false =>
      refine ⟨2 ^ L.exponentBits - 1, ?_⟩
      intro fraction h
      rw [← Nat.two_pow_add_eq_or_of_lt h, Nat.mul_comm]
      rfl
  | true =>
      refine ⟨2 ^ L.exponentBits + (2 ^ L.exponentBits - 1), ?_⟩
      intro fraction h
      rw [← Nat.two_pow_add_eq_or_of_lt h, Nat.mul_comm, Nat.add_mul, ← Nat.pow_add,
        Nat.add_assoc]
      rfl

section Quiet

variable {L : FloatLayout} (hfraction : 0 < L.fractionBits) {payload : Nat}
  (h : payload < 2 ^ L.fractionBits)
include hfraction h

theorem quiet_payload :
    0 < L.quietBit ||| payload ∧ L.quietBit ||| payload < 2 ^ L.fractionBits := by
  have hquiet : L.quietBit < 2 ^ L.fractionBits := Nat.pow_lt_pow_right (by decide) (by omega)
  exact ⟨Nat.lt_of_lt_of_le (Nat.two_pow_pos _) Nat.left_le_or, Nat.or_lt_two_pow hquiet h⟩

theorem quiet_lt_signBit : L.quiet payload < L.signBit := by
  have hquiet := (quiet_payload hfraction h).2
  have hadd := L.infinity_add
  rw [quiet]
  omega

theorem withSign_quiet (negative : Bool) :
    L.withSign negative (L.quiet payload) =
      L.withSign negative (L.infinity + payload) ||| L.quietBit := by
  obtain ⟨top, htop⟩ := L.exists_withSign_add negative
  rw [quiet, htop _ (quiet_payload hfraction h).2, htop _ h, Nat.or_assoc,
    Nat.or_comm L.quietBit]

end Quiet

theorem payload_lt {L : FloatLayout} {bits payload : Nat} {negative : Bool}
    (h : L.classify bits = .nan negative payload) : payload < 2 ^ L.fractionBits := by
  have hlt := Nat.mod_lt bits (show 0 < L.signBit from Nat.two_pow_pos _)
  have hadd := L.infinity_add
  simp only [classify] at h
  split at h
  · contradiction
  · split at h
    · contradiction
    · obtain ⟨-, rfl⟩ := FloatDatum.nan.inj h
      omega

/-- A payload at the width of another fraction. -/
theorem payload_scaled_lt {source : FloatLayout} {payload : Nat}
    (h : payload < 2 ^ source.fractionBits) (target : FloatLayout) :
    payload * 2 ^ target.fractionBits / 2 ^ source.fractionBits < 2 ^ target.fractionBits := by
  rw [Nat.div_lt_iff_lt_mul (Nat.two_pow_pos _), Nat.mul_comm]
  exact Nat.mul_lt_mul_of_pos_left h (Nat.two_pow_pos _)

theorem convert_of_nan {source : FloatLayout} {bits payload : Nat} {negative : Bool}
    (h : source.classify bits = .nan negative payload) (target : FloatLayout) :
    source.convert target bits =
      target.withSign negative
        (target.quiet (payload * 2 ^ target.fractionBits / 2 ^ source.fractionBits)) := by
  simp only [convert, h]
  rfl

/-- A conversion keeps the sign. -/
theorem exists_convert_eq (source target : FloatLayout) (hfraction : 0 < target.fractionBits)
    (bits : Nat) :
    ∃ magnitude, magnitude < target.signBit ∧
      source.convert target bits = target.withSign (source.classify bits).negative magnitude := by
  have hinfinity := target.infinity_lt_signBit
  cases hdatum : source.classify bits with
  | finite negative u =>
      refine ⟨target.nearest (u * target.unitsPerOne) source.unitsPerOne,
        Nat.lt_of_le_of_lt (Nat.min_le_right _ _) hinfinity, ?_⟩
      simp only [convert, hdatum]
      rfl
  | infinite negative =>
      refine ⟨_, hinfinity, ?_⟩
      simp only [convert, hdatum]
      rfl
  | nan negative payload =>
      have hpayload := payload_scaled_lt (payload_lt hdatum) target
      exact ⟨_, quiet_lt_signBit hfraction hpayload, convert_of_nan hdatum target⟩

theorem convert_lt (source target : FloatLayout) (hfraction : 0 < target.fractionBits)
    (bits : Nat) : source.convert target bits < 2 * target.signBit := by
  obtain ⟨magnitude, hmagnitude, hconvert⟩ := exists_convert_eq source target hfraction bits
  rw [hconvert]
  exact target.withSign_lt _ hmagnitude

/-- The power of two by which units count the number one. -/
def unitExponent (L : FloatLayout) : Nat :=
  2 ^ (L.exponentBits - 1) - 2 + L.fractionBits

theorem unitsPerOne_eq (L : FloatLayout) : L.unitsPerOne = 2 ^ L.unitExponent := rfl

/-- Every finite number of the narrow layout is one of the wide layout. -/
structure Embeds (narrow wide : FloatLayout) : Prop where
  positive : 0 < narrow.fractionBits
  fraction : narrow.fractionBits ≤ wide.fractionBits
  scale : narrow.unitExponent ≤ wide.unitExponent
  range : 2 ^ narrow.exponentBits + (wide.unitExponent - narrow.unitExponent) <
      2 ^ wide.exponentBits

theorem binary16_embeds : binary16.Embeds binary64 := ⟨by decide, by decide, by decide, by decide⟩

theorem binary32_embeds : binary32.Embeds binary64 := ⟨by decide, by decide, by decide, by decide⟩

namespace Embeds

variable {narrow wide : FloatLayout} (h : narrow.Embeds wide)
include h

theorem exists_units {pattern : Nat} (hfinite : pattern < narrow.infinity) :
    ∃ widened, widened < wide.infinity ∧
      wide.units widened =
        narrow.units pattern * 2 ^ (wide.unitExponent - narrow.unitExponent) := by
  obtain ⟨shift, m, hnormal, rfl⟩ := narrow.exists_normal pattern
  have hrange := h.range
  generalize wide.unitExponent - narrow.unitExponent = scale at hrange ⊢
  have hfraction := h.fraction
  have hshift : shift < 2 ^ narrow.exponentBits - 1 :=
    Nat.lt_of_mul_lt_mul_right (Nat.lt_of_le_of_lt (Nat.le_add_right _ _) hfinite)
  rw [hnormal.units, Nat.mul_assoc, ← Nat.pow_add]
  by_cases hzero : m = 0
  · refine wide.exists_units_eq ?_ ?_ <;> rw [hzero, Nat.zero_mul]
    · exact Nat.dvd_zero _
    · rw [Nat.log2_zero]
      omega
  · have hlog : (m * 2 ^ (shift + scale)).log2 < narrow.fractionBits + 1 + (shift + scale) := by
      rw [Nat.log2_lt (Nat.mul_ne_zero hzero (Nat.pos_iff_ne_zero.mp (Nat.two_pow_pos _))),
        Nat.pow_add 2 (narrow.fractionBits + 1)]
      exact Nat.mul_lt_mul_of_pos_right hnormal.lt (Nat.two_pow_pos _)
    refine wide.exists_units_eq ?_ (by omega)
    exact Nat.dvd_trans (Nat.pow_dvd_pow 2 (by omega)) (Nat.dvd_mul_left _ _)

/-- A finite pattern can be widened and narrowed without change. -/
theorem convert_finite (negative : Bool) {pattern : Nat} (hfinite : pattern < narrow.infinity) :
    ∃ widened, widened < wide.infinity ∧
      narrow.convert wide (narrow.withSign negative pattern) = wide.withSign negative widened ∧
      wide.convert narrow (wide.withSign negative widened) =
        narrow.withSign negative pattern := by
  obtain ⟨widened, hwidened, hunits⟩ := h.exists_units hfinite
  have hscale : 2 ^ (wide.unitExponent - narrow.unitExponent) * narrow.unitsPerOne =
      wide.unitsPerOne := by
    rw [unitsPerOne_eq, unitsPerOne_eq, ← Nat.pow_add, Nat.sub_add_cancel h.scale]
  refine ⟨widened, hwidened, ?_, ?_⟩
  · have hnearest := wide.nearest_mul (wide.units widened) 1 narrow.unitsPerOne_pos
    rw [wide.nearest_units hwidened, hunits, Nat.mul_assoc, hscale, Nat.one_mul] at hnearest
    simp only [convert, narrow.classify_finite negative hfinite, hnearest]
  · have hnearest := narrow.nearest_mul (narrow.units pattern) 1 wide.unitsPerOne_pos
    rw [narrow.nearest_units hfinite, ← hscale, ← Nat.mul_assoc, ← hunits, Nat.one_mul, hscale]
      at hnearest
    simp only [convert, wide.classify_finite negative hwidened, hnearest]

/-- The payload of a word that is not a number, widened and narrowed. -/
theorem convert_nan (negative : Bool) {payload : Nat} (hpos : 0 < payload)
    (hlt : payload < 2 ^ narrow.fractionBits) :
    wide.convert narrow
        (narrow.convert wide (narrow.withSign negative (narrow.infinity + payload))) =
      narrow.withSign negative (narrow.quiet payload) := by
  obtain ⟨extra, hextra⟩ := Nat.exists_eq_add_of_le h.fraction
  have hpositive := h.positive
  have hpow := Nat.two_pow_pos extra
  have hwiden : payload * 2 ^ wide.fractionBits / 2 ^ narrow.fractionBits =
      payload * 2 ^ extra := by
    rw [hextra, Nat.pow_add, Nat.mul_left_comm, Nat.mul_div_cancel_left _ (Nat.two_pow_pos _)]
  have hwidened : payload * 2 ^ extra < 2 ^ wide.fractionBits := by
    rw [hextra, Nat.pow_add]
    exact Nat.mul_lt_mul_of_pos_right hlt hpow
  have hquiet := quiet_payload (L := wide) (by omega) hwidened
  have hnarrow : (wide.quietBit ||| payload * 2 ^ extra) * 2 ^ narrow.fractionBits /
      2 ^ wide.fractionBits = narrow.quietBit ||| payload := by
    rw [hextra, Nat.pow_add, Nat.mul_comm, Nat.mul_div_mul_left _ _ (Nat.two_pow_pos _),
      ← Nat.shiftRight_eq_div_pow, Nat.shiftRight_or_distrib, Nat.shiftRight_eq_div_pow,
      Nat.shiftRight_eq_div_pow, Nat.mul_div_cancel _ hpow, quietBit_eq,
      show wide.fractionBits - 1 = narrow.fractionBits - 1 + extra by omega, Nat.pow_add,
      Nat.mul_div_cancel _ hpow]
    rfl
  have hwide : narrow.convert wide (narrow.withSign negative (narrow.infinity + payload)) =
      wide.withSign negative (wide.infinity + (wide.quietBit ||| payload * 2 ^ extra)) := by
    rw [convert_of_nan (narrow.classify_nan negative hpos hlt), hwiden, quiet]
  rw [hwide, convert_of_nan (wide.classify_nan negative hquiet.1 hquiet.2), hnarrow, quiet, quiet,
    ← Nat.or_assoc, Nat.or_self]

/-- Widening a word and narrowing it again. -/
theorem convert_convert {bits : Nat} (hbits : bits < 2 * narrow.signBit) :
    wide.convert narrow (narrow.convert wide bits) = narrow.quieted bits := by
  obtain ⟨negative, ⟨pattern, hfinite, rfl⟩ | rfl | ⟨payload, hpos, hlt, rfl⟩⟩ :=
    narrow.word_cases hbits
  · obtain ⟨widened, -, hwide, hnarrow⟩ := h.convert_finite negative hfinite
    rw [hwide, hnarrow]
    simp only [quieted, narrow.classify_finite negative hfinite]
  · simp only [convert, quieted, classify_infinity]
  · rw [h.convert_nan negative hpos hlt, withSign_quiet h.positive hlt]
    simp only [quieted, narrow.classify_nan negative hpos hlt]

end Embeds

end FloatLayout

end PackedRecord
