import PackedRecord.Proofs.Text.Hex
import PackedRecord.Proofs.Value.Shown
import PackedRecord.Proofs.Value.Text

/-!
Texts of values are unambiguous.

A text tells the kind of its value by its first byte, and whether a number is
unsigned by a letter in it. Decimal text reads back by its digits. Between the
quotes of a byte text every escape stands for one byte and every other character
for itself, and there is only one way to read it so.
-/

namespace PackedRecord

/-- The text of what a value shows. -/
def Shown.text : Shown → Bytes
  | absent => Bytes.ofString "none"
  | bool b => Bytes.ofString (if b then "true" else "false")
  | int n => Bytes.signedDecimal n.toInt
  | uint n => Bytes.decimal n.toNat ++ Bytes.ofString "u"
  | real x => x.text
  | bytes bs => Bytes.quoted bs

theorem Value.text_shown (s : Store) (value : Value) : (value.shown s).text = value.text s := by
  cases value <;> rfl

namespace Bytes

section Decimal

/-- The characters of a decimal text are the digits of the number. -/
theorem chars_decimal (n : Nat) :
    (decimal n).map (fun b => Char.ofNat b.toNat) = Nat.toDigits 10 n := by
  have hchar : ∀ c ∈ Nat.toDigits 10 n, Char.ofNat c.toUInt8.toNat = c := by
    intro c hc
    have hdigit := Nat.isDigit_of_mem_toDigits (by decide) (by decide) hc
    have hrange : 48 ≤ c.val.toNat ∧ c.val.toNat ≤ 57 := by
      simpa [Char.isDigit, UInt32.le_iff_toNat_le] using hdigit
    have hbyte : c.toUInt8.toNat = c.toNat := by
      rw [Char.toUInt8, UInt32.toNat_toUInt8]
      exact Nat.mod_eq_of_lt (by omega)
    rw [hbyte, Char.ofNat_toNat]
  simp only [decimal, digits, ofChars, List.map_map]
  exact (List.map_congr_left hchar).trans (List.map_id _)

theorem decimal_injective {m n : Nat} (h : decimal m = decimal n) : m = n := by
  have hdigits := congrArg (List.map fun b => Char.ofNat b.toNat) h
  rw [chars_decimal, chars_decimal] at hdigits
  have hnumber := congrArg (fun cs => Nat.ofDigitChars 10 cs 0) hdigits
  simpa using hnumber

theorem exists_decimal_cons (n : Nat) : ∃ d rest, decimal n = d :: rest ∧ isDigit d = true := by
  have hne : decimal n ≠ [] := fun hnil => Nat.toDigits_ne_nil (List.map_eq_nil_iff.mp hnil)
  obtain ⟨d, rest, hcons⟩ := List.exists_cons_of_ne_nil hne
  exact ⟨d, rest, hcons, isDigit_of_mem_decimal (hcons ▸ List.mem_cons_self)⟩

theorem minus_notMem_decimal (n : Nat) : '-'.toUInt8 ∉ decimal n := by
  intro hmem
  have hdigit := isDigit_of_mem_decimal hmem
  contradiction

theorem signedDecimal_injective {m n : Int} (h : signedDecimal m = signedDecimal n) : m = n := by
  have hminus (k : Nat) := minus_notMem_decimal k
  simp only [signedDecimal] at h
  split at h <;> split at h
  · have habs := decimal_injective (List.cons.inj h).2
    omega
  · exact absurd (h ▸ List.mem_cons_self) (hminus n.natAbs)
  · exact absurd (h ▸ List.mem_cons_self) (hminus m.natAbs)
  · have habs := decimal_injective h
    omega

end Decimal

section Quoted

open Hex

/-- The text goes on with an escape. -/
def BeginsEscape (text : Bytes) : Prop :=
  ∃ m n high low rest, DigitOf m high ∧ DigitOf n low ∧
    text = '\\'.toUInt8 :: 'x'.toUInt8 :: high :: low :: rest

/-- The text between quotes stands for the bytes. -/
inductive Unquoted : (text bytes : Bytes) → Prop where
  | nil : Unquoted [] []
  | escape {m n : Nat} {high low : UInt8} {text bytes : Bytes} (hhigh : DigitOf m high)
      (hlow : DigitOf n low) (rest : Unquoted text bytes) :
      Unquoted ('\\'.toUInt8 :: 'x'.toUInt8 :: high :: low :: text)
        (UInt8.ofNat (16 * m + n) :: bytes)
  | plain {b : UInt8} {text bytes : Bytes} (hplain : ¬BeginsEscape (b :: text))
      (rest : Unquoted text bytes) : Unquoted (b :: text) (b :: bytes)

/-- A byte is written as itself or as an escape with its two digits. -/
theorem escape_cases (b : UInt8) :
    escape b = [b] ∧ b ≠ '"'.toUInt8 ∧ b ≠ '\\'.toUInt8 ∨
      ∃ high low, escape b = ['\\'.toUInt8, 'x'.toUInt8, high, low] ∧
        DigitOf (b.toNat / 16) high ∧ DigitOf (b.toNat % 16) low := by
  have hlt := b.toNat_lt
  rw [escape, hexPair_eq]
  split
  case isTrue h =>
    simp only [Bool.and_eq_true, bne_iff_ne] at h
    exact .inl ⟨rfl, h.1.2, h.2⟩
  case isFalse => exact .inr ⟨_, _, rfl, ⟨by omega, .inl rfl⟩, by omega, .inl rfl⟩

/-- What stands behind the written form of a byte is read by itself. -/
theorem unquoted_escape (b : UInt8) (text bytes : Bytes) :
    Unquoted (escape b ++ text) bytes ↔ ∃ rest, bytes = b :: rest ∧ Unquoted text rest := by
  rcases escape_cases b with ⟨hescape, -, hb⟩ | ⟨high, low, hescape, hhigh, hlow⟩
  · have hplain : ¬BeginsEscape (b :: text) := by
      rintro ⟨m, n, high, low, rest, -, -, htext⟩
      exact hb (List.cons.inj htext).1
    rw [hescape, List.singleton_append]
    constructor
    · intro h
      cases h with
      | escape hhigh hlow rest => exact absurd rfl hb
      | plain _ rest => exact ⟨_, rfl, rest⟩
    · rintro ⟨rest, rfl, hrest⟩
      exact .plain hplain hrest
  · have hbyte : UInt8.ofNat (16 * (b.toNat / 16) + b.toNat % 16) = b := by
      rw [Nat.div_add_mod, UInt8.ofNat_toNat]
    rw [hescape]
    constructor
    · intro h
      cases h with
      | escape hm hn rest =>
          rw [hm.unique hhigh, hn.unique hlow, hbyte]
          exact ⟨_, rfl, rest⟩
      | plain hplain _ => exact absurd ⟨_, _, _, _, _, hhigh, hlow, rfl⟩ hplain
    · rintro ⟨rest, rfl, hrest⟩
      have hwritten := Unquoted.escape hhigh hlow hrest
      rwa [hbyte] at hwritten

theorem unquoted_iff (bs bytes : Bytes) : Unquoted (bs.flatMap escape) bytes ↔ bytes = bs := by
  induction bs generalizing bytes with
  | nil =>
      constructor
      · rintro ⟨⟩
        rfl
      · rintro rfl
        exact .nil
  | cons b bs ih =>
      rw [List.flatMap_cons, unquoted_escape]
      simp only [ih, exists_eq_right]

theorem quoted_injective {bs cs : Bytes} (h : quoted bs = quoted cs) : bs = cs := by
  have hinner : bs.flatMap escape = cs.flatMap escape := by
    simpa only [quoted, List.append_assoc, List.append_cancel_left_eq,
      List.append_cancel_right_eq] using h
  exact (unquoted_iff cs bs).mp (hinner ▸ (unquoted_iff bs bs).mpr rfl)

/-- No quote stands between the quotes. -/
theorem quote_notMem_escapes (bs : Bytes) : '"'.toUInt8 ∉ bs.flatMap escape := by
  have hdigit (n : Nat) : ¬DigitOf n '"'.toUInt8 := by
    intro h
    have hread := digit?_eq_some h
    contradiction
  intro hmem
  obtain ⟨b, -, hb⟩ := List.mem_flatMap.mp hmem
  rcases escape_cases b with ⟨hescape, hquote, -⟩ | ⟨high, low, hescape, hhigh, hlow⟩
  · rw [hescape] at hb
    exact hquote (List.mem_singleton.mp hb).symm
  · rw [hescape] at hb
    simp only [List.mem_cons, List.not_mem_nil, or_false] at hb
    rcases hb with hb | hb | rfl | rfl
    · contradiction
    · contradiction
    · exact hdigit _ hhigh
    · exact hdigit _ hlow

end Quoted

end Bytes

namespace Shown

inductive Kind where
  | absent
  | bool
  | int
  | uint
  | real
  | bytes
  deriving DecidableEq, Repr

def kind : Shown → Kind
  | absent => .absent
  | bool _ => .bool
  | int _ => .int
  | uint _ => .uint
  | real _ => .real
  | bytes _ => .bytes

/-- The kind of a value that is no double, as its text tells it. -/
def kindOfText (text : Bytes) : Kind :=
  if text.head? = some 'n'.toUInt8 then .absent
  else if text.head? = some 't'.toUInt8 ∨ text.head? = some 'f'.toUInt8 then .bool
  else if text.head? = some 'b'.toUInt8 then .bytes
  else if 'u'.toUInt8 ∈ text then .uint
  else .int

/-- A byte of a signed decimal text. -/
def isNumeral (b : UInt8) : Bool :=
  isDigit b || b == '-'.toUInt8

theorem kindOfText_number {b : UInt8} (hb : isNumeral b = true) (rest : Bytes) :
    kindOfText (b :: rest) = if 'u'.toUInt8 ∈ b :: rest then .uint else .int := by
  have hletter {c : UInt8} (hc : isNumeral c = false) : b ≠ c := by
    rintro rfl
    rw [hb] at hc
    contradiction
  have hn : b ≠ 'n'.toUInt8 := hletter (by decide)
  have ht : b ≠ 't'.toUInt8 := hletter (by decide)
  have hf : b ≠ 'f'.toUInt8 := hletter (by decide)
  have hquoted : b ≠ 'b'.toUInt8 := hletter (by decide)
  simp only [kindOfText, List.head?_cons, Option.some_inj, hn, ht, hf, hquoted, or_self, if_false]

theorem kindOfText_signedDecimal (n : Int) : kindOfText (Bytes.signedDecimal n) = .int := by
  have hnumeral : ∀ b ∈ Bytes.signedDecimal n, isNumeral b = true := by
    intro b hb
    rw [Bytes.signedDecimal] at hb
    rw [isNumeral, Bool.or_eq_true, beq_iff_eq]
    split at hb
    · rcases List.mem_cons.mp hb with rfl | hb
      · exact .inr rfl
      · exact .inl (Bytes.isDigit_of_mem_decimal hb)
    · exact .inl (Bytes.isDigit_of_mem_decimal hb)
  have hu : 'u'.toUInt8 ∉ Bytes.signedDecimal n := by
    intro hmem
    have hnumber := hnumeral _ hmem
    contradiction
  obtain ⟨b, rest, hcons⟩ : ∃ b rest, Bytes.signedDecimal n = b :: rest := by
    obtain ⟨d, rest, hdecimal, -⟩ := Bytes.exists_decimal_cons n.natAbs
    rw [Bytes.signedDecimal, hdecimal]
    split <;> exact ⟨_, _, rfl⟩
  rw [hcons] at hnumeral hu ⊢
  rw [kindOfText_number (hnumeral b List.mem_cons_self), if_neg hu]

theorem kindOfText_decimal (n : Nat) :
    kindOfText (Bytes.decimal n ++ Bytes.ofString "u") = .uint := by
  obtain ⟨d, rest, hcons, hd⟩ := Bytes.exists_decimal_cons n
  have hu : 'u'.toUInt8 ∈ Bytes.ofString "u" := by decide
  have hnumeral : isNumeral d = true := by rw [isNumeral, hd, Bool.true_or]
  rw [hcons, List.cons_append, kindOfText_number hnumeral, if_pos]
  exact List.mem_cons_of_mem _ (List.mem_append_right _ hu)

/-- The text of a value that is no double tells its kind. -/
theorem kindOfText_text {x : Shown} (hx : x.kind ≠ .real) : kindOfText x.text = x.kind := by
  cases x with
  | absent => decide
  | bool b => cases b <;> decide
  | int n => exact kindOfText_signedDecimal _
  | uint n => exact kindOfText_decimal _
  | real x => contradiction
  | bytes bs =>
      have hhead : (Bytes.quoted bs).head? = some 'b'.toUInt8 := rfl
      simp only [kindOfText, text, hhead]
      rfl

/-- Values that are no doubles have different texts if they show different things. -/
theorem text_injective {x y : Shown} (hx : x.kind ≠ .real) (hy : y.kind ≠ .real)
    (h : x.text = y.text) : x = y := by
  have hkind := kindOfText_text hx
  rw [h, kindOfText_text hy] at hkind
  cases x <;> cases y <;> try contradiction
  case absent.absent => rfl
  case bool.bool a b => cases a <;> cases b <;> first | rfl | contradiction
  case int.int m n => exact congrArg int (Int64.toInt_inj.mp (Bytes.signedDecimal_injective h))
  case uint.uint m n =>
    have hdecimal := Bytes.decimal_injective (List.append_cancel_right h)
    exact congrArg uint (UInt64.toNat_inj.mp hdecimal)
  case bytes.bytes bs cs => exact congrArg bytes (Bytes.quoted_injective h)

end Shown

theorem Value.kind_shown_ne_real {value : Value} (h : ∀ x, value ≠ .real x) (s : Store) :
    (value.shown s).kind ≠ .real := by
  cases value with
  | real x => exact absurd rfl (h x)
  | absent | bool _ | int _ | uint _ | bytes _ => exact fun hkind => by contradiction

/-- Texts of values that are no doubles agree exactly when the values are equal. The text
of bytes is visible and stands between the only quotes in it, and what stands between
them is read as those bytes and no others. -/
theorem Value.text_unambiguous (s : Store) :
    (∀ v w : Value, (∀ x, v ≠ .real x) → (∀ x, w ≠ .real x) →
      (v.text s = w.text s ↔ v.equal s w = true)) ∧
    ∀ view : View, ∃ inner,
      (bytes view).text s = Bytes.ofString "b\"" ++ inner ++ Bytes.ofString "\"" ∧
        ((bytes view).text s).Visible ∧ '"'.toUInt8 ∉ inner ∧
        ∀ bs, Bytes.Unquoted inner bs ↔ bs = s.bytes view := by
  refine ⟨?_, ?_⟩
  · intro v w hv hw
    rw [equal_iff_shown, ← text_shown, ← text_shown]
    exact ⟨Shown.text_injective (kind_shown_ne_real hv s) (kind_shown_ne_real hw s),
      fun h => congrArg Shown.text h⟩
  · intro view
    exact ⟨(s.bytes view).flatMap Bytes.escape, rfl, Bytes.visible_quoted _,
      Bytes.quote_notMem_escapes _, Bytes.unquoted_iff _⟩

/-- A backslash, a quote and a text that looks like an escape. -/
theorem Value.text_unambiguous_like_escape :
    let s : Store := ⟨[[92, 120, 52, 49, 34], [65]]⟩
    (bytes ⟨0, 0, 5⟩).text s = Bytes.ofString "b\"\\x5cx41\\x22\"" ∧
      (bytes ⟨0, 0, 4⟩).text s ≠ (bytes ⟨1, 0, 1⟩).text s ∧
      (uint 1).text s ≠ (int 1).text s := by
  intro s
  have hagree := (text_unambiguous s).1
  refine ⟨by decide, ?_, ?_⟩
  · rw [Ne, hagree (bytes ⟨0, 0, 4⟩) (bytes ⟨1, 0, 1⟩) nofun nofun]
    decide
  · rw [Ne, hagree (uint 1) (int 1) nofun nofun]
    decide

end PackedRecord
