import PackedRecord.Value.Text

/-!
Texts of values are visible.

Numbers are written with digits, a sign, a point and a few letters, and a byte
that is not visible is escaped between quotes. So no text of a value breaks a
line.
-/

namespace PackedRecord

/-- A text of visible ASCII, space included. -/
def Bytes.Visible (bs : Bytes) : Prop :=
  ∀ b ∈ bs, isPrintable b

namespace Bytes

instance (bs : Bytes) : Decidable bs.Visible :=
  List.decidableBAll (fun b => isPrintable b) bs

theorem visible_append {bs cs : Bytes} : (bs ++ cs).Visible ↔ bs.Visible ∧ cs.Visible :=
  List.forall_mem_append

theorem visible_cons {b : UInt8} {bs : Bytes} :
    Visible (b :: bs) ↔ isPrintable b ∧ bs.Visible :=
  List.forall_mem_cons

theorem visible_replicate (n : Nat) {b : UInt8} (h : isPrintable b) :
    Visible (List.replicate n b) := by
  intro c hc
  rw [(List.mem_replicate.mp hc).2]
  exact h

theorem Visible.of_subset {bs cs : Bytes} (h : bs.Visible) (hsub : cs ⊆ bs) : cs.Visible :=
  fun b hb => h b (hsub hb)

theorem visible_intercalate {separator : Bytes} {texts : List Bytes} (hsep : separator.Visible)
    (h : ∀ text ∈ texts, text.Visible) : Visible (separator.intercalate texts) := by
  induction texts with
  | nil => exact fun b hb => absurd hb List.not_mem_nil
  | cons text rest ih =>
      obtain ⟨htext, hrest⟩ := List.forall_mem_cons.mp h
      cases rest with
      | nil => rwa [List.intercalate_singleton]
      | cons next rest =>
          rw [List.intercalate_cons_cons]
          exact visible_append.mpr ⟨visible_append.mpr ⟨htext, hsep⟩, ih hrest⟩

theorem isDigit_of_mem_decimal {n : Nat} {b : UInt8} (h : b ∈ decimal n) : isDigit b = true := by
  obtain ⟨c, hc, rfl⟩ := List.mem_map.mp h
  have hdigit := Nat.isDigit_of_mem_toDigits (by decide) (by decide) hc
  have hrange : 48 ≤ c.val.toNat ∧ c.val.toNat ≤ 57 := by
    simpa [Char.isDigit, UInt32.le_iff_toNat_le] using hdigit
  simp only [isDigit, Char.toUInt8, Bool.and_eq_true, decide_eq_true_eq,
    UInt8.le_iff_toNat_le, UInt32.toNat_toUInt8, UInt8.reduceToNat]
  omega

theorem visible_decimal (n : Nat) : (decimal n).Visible := by
  have hprintable : ∀ b, isDigit b = true → isPrintable b = true :=
    forall_byte (by decide)
  exact fun b hb => hprintable b (isDigit_of_mem_decimal hb)

theorem visible_signedDecimal (n : Int) : (signedDecimal n).Visible := by
  rw [signedDecimal]
  split
  · exact visible_cons.mpr ⟨by decide, visible_decimal _⟩
  · exact visible_decimal _

/-- A byte between quotes is itself visible or escaped by visible marks. -/
theorem visible_escape (b : UInt8) : (escape b).Visible := by
  revert b
  apply forall_byte
  decide

theorem visible_quoted (bs : Bytes) : (quoted bs).Visible := by
  have hinner : Visible (bs.flatMap escape) := by
    intro c hc
    obtain ⟨b, -, hb⟩ := List.mem_flatMap.mp hc
    exact visible_escape b c hb
  exact visible_append.mpr ⟨visible_append.mpr ⟨by decide, hinner⟩, by decide⟩

end Bytes

namespace Significant

open Bytes

theorem visible_fractionText {digits : Bytes} (h : digits.Visible) :
    (fractionText digits).Visible := by
  rw [fractionText]
  split
  · exact fun b hb => absurd hb List.not_mem_nil
  · refine visible_cons.mpr ⟨by decide, h.of_subset ?_⟩
    intro b hb
    have hkept := List.dropWhile_subset _ (List.mem_reverse.mp hb)
    exact List.mem_reverse.mp hkept

theorem visible_exponentText (x : Int) : (exponentText x).Visible := by
  have hsign : isPrintable (if x < 0 then '-' else '+').toUInt8 := by split <;> decide
  rw [exponentText, padZero]
  refine visible_cons.mpr ⟨by decide, visible_cons.mpr ⟨hsign, visible_append.mpr ⟨?_, ?_⟩⟩⟩
  · exact visible_replicate _ (by decide)
  · exact visible_decimal _

theorem visible_general (precision : Nat) (s : Significant) : (general precision s).Visible := by
  have hdigits := visible_decimal s.digits
  have htake (n : Nat) := hdigits.of_subset (List.take_subset n _)
  have hdrop (n : Nat) := visible_fractionText (hdigits.of_subset (List.drop_subset n _))
  rw [general]
  split
  · exact visible_append.mpr ⟨visible_append.mpr ⟨htake 1, hdrop 1⟩, visible_exponentText _⟩
  · split
    · refine visible_cons.mpr ⟨by decide, visible_fractionText (visible_append.mpr ⟨?_, hdigits⟩)⟩
      exact visible_replicate _ (by decide)
    · exact visible_append.mpr ⟨htake _, hdrop _⟩

end Significant

theorem Binary64.visible_text (x : Binary64) : x.text.Visible := by
  have hsign (negative : Bool) : Bytes.Visible (if negative then ['-'.toUInt8] else []) := by
    cases negative <;> decide
  rw [Binary64.text]
  split
  · exact Bytes.visible_append.mpr ⟨hsign _, by decide⟩
  · exact Bytes.visible_append.mpr ⟨hsign _, Significant.visible_general _ _⟩
  · exact Bytes.visible_append.mpr ⟨hsign _, by decide⟩
  · exact Bytes.visible_append.mpr ⟨hsign _, by decide⟩

theorem Value.visible_text (s : Store) (value : Value) : (value.text s).Visible := by
  cases value with
  | absent => exact show Bytes.Visible (Bytes.ofString "none") by decide
  | bool b =>
      show Bytes.Visible (Bytes.ofString (if b then "true" else "false"))
      cases b <;> decide
  | int n => exact Bytes.visible_signedDecimal _
  | uint n => exact Bytes.visible_append.mpr ⟨Bytes.visible_decimal _, by decide⟩
  | real x => exact x.visible_text
  | bytes v => exact Bytes.visible_quoted _

end PackedRecord
