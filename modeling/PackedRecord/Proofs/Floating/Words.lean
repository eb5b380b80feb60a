import PackedRecord.Floating.Words
import PackedRecord.Proofs.Floating.Convert
import PackedRecord.Proofs.Floating.Half

/-!
Words widened and narrowed.

Every word of the narrow types survives being widened to a double and narrowed
again, except that what is not a number comes back quiet; a half-width word of
that kind keeps nothing but its sign.
-/

namespace PackedRecord

theorem Binary64.toNat_ofNatBits {n : Nat} (h : n < 2 * FloatLayout.binary64.signBit) :
    (ofNatBits n).bits.toNat = n := by
  rw [show 2 * FloatLayout.binary64.signBit = 2 ^ 64 by decide] at h
  exact UInt64.toNat_ofNat_of_lt' h

/-- A single-width word with its quiet bit set if it is not a number. -/
def Binary32.canonical (bits : Nat) : Nat :=
  match FloatLayout.binary32.classify bits with
  | .nan _ _ => bits ||| 0x00400000
  | _ => bits

/-- A half-width word with one pattern of each sign for all that is not a number. -/
def Binary16.canonical (bits : Nat) : Nat :=
  match FloatLayout.binary16.classify bits with
  | .nan negative _ => if negative then 0xFE00 else 0x7E00
  | _ => bits

theorem Binary32.toBinary32_toBinary64 (x : Binary32) :
    x.toBinary64.toBinary32.bits.toNat = canonical x.bits.toNat := by
  have hword : x.bits.toNat < 2 * FloatLayout.binary32.signBit := x.bits.toNat_lt
  have hwide := FloatLayout.convert_lt .binary32 .binary64 (by decide) x.bits.toNat
  have hback := FloatLayout.convert_lt .binary64 .binary32 (by decide)
    (FloatLayout.binary32.convert .binary64 x.bits.toNat)
  rw [show 2 * FloatLayout.binary32.signBit = 2 ^ 32 by decide] at hback
  simp only [toBinary64, Binary64.toBinary32, Binary64.toNat_ofNatBits hwide]
  rw [UInt32.toNat_ofNat_of_lt' hback]
  exact FloatLayout.binary32_embeds.convert_convert hword

theorem Binary16.toBinary16_toBinary64 (x : Binary16) :
    x.toBinary64.toBinary16.bits.toNat = canonical x.bits.toNat := by
  have hword : x.bits.toNat < 2 * FloatLayout.binary16.signBit := x.bits.toNat_lt
  have hwide := FloatLayout.convert_lt .binary16 .binary64 (by decide) x.bits.toNat
  have hconvert := FloatLayout.binary16_embeds.convert_convert hword
  cases hdatum : FloatLayout.binary16.classify x.bits.toNat with
  | finite negative u | infinite negative =>
      simp only [FloatLayout.quieted, hdatum] at hconvert
      simp only [toBinary64, canonical, hdatum, Binary64.toNat_toBinary16,
        Binary64.toNat_ofNatBits hwide]
      exact hconvert
  | nan negative payload =>
      simp only [toBinary64, canonical, hdatum]
      cases negative with
      | false => decide
      | true => decide

theorem Binary32.canonical_lt {bits : Nat} (h : bits < 2 ^ 32) : canonical bits < 2 ^ 32 := by
  rw [canonical]
  split
  · exact Nat.or_lt_two_pow h (by decide)
  · exact h

theorem Binary16.canonical_lt {bits : Nat} (h : bits < 2 ^ 16) : canonical bits < 2 ^ 16 := by
  rw [canonical]
  split
  · split <;> decide
  · exact h

theorem Binary32.canonical_canonical {bits : Nat} (h : bits < 2 ^ 32) :
    canonical (canonical bits) = canonical bits := by
  obtain ⟨negative, ⟨pattern, hfinite, rfl⟩ | rfl | ⟨payload, hpos, hlt, rfl⟩⟩ :=
    FloatLayout.binary32.word_cases h
  · simp only [canonical, FloatLayout.classify_finite _ _ hfinite]
  · simp only [canonical, FloatLayout.classify_infinity]
  · have hpayload := FloatLayout.quiet_payload (L := .binary32) (by decide) hlt
    have hstays := FloatLayout.classify_nan _ negative hpayload.1 hpayload.2
    have hquiet := FloatLayout.withSign_quiet (L := .binary32) (by decide) hlt negative
    rw [FloatLayout.quiet, show FloatLayout.binary32.quietBit = 0x00400000 by decide] at hquiet
    rw [show FloatLayout.binary32.quietBit = 0x00400000 by decide, hquiet] at hstays
    simp only [canonical, FloatLayout.classify_nan _ negative hpos hlt, hstays, Nat.or_assoc,
      Nat.or_self]

theorem Binary16.canonical_canonical (bits : Nat) :
    canonical (canonical bits) = canonical bits := by
  cases hdatum : FloatLayout.binary16.classify bits with
  | finite negative u | infinite negative => simp only [canonical, hdatum]
  | nan negative payload =>
      simp only [canonical, hdatum]
      cases negative with
      | false => decide
      | true => decide

end PackedRecord
