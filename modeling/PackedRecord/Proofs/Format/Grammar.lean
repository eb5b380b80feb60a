import Mathlib.Data.Nat.Digits.Defs
import PackedRecord.Record.Capacity

/-!
The grammar of format texts.

A text spells a format when it is an optional mark and one or more groups, each
of digits and a type code. Reading accepts these texts and no others. The reader
meets the digits of a group before the code that says what they count, so both
directions are proved with digits pending: the count that the reader carries is
the value of the digits that it has passed.
-/

namespace PackedRecord

namespace Bytes

/-- The number that a run of digits stands for, leading zeros included. -/
def decimalValue (digits : Bytes) : Nat :=
  Nat.ofDigits 10 (digits.reverse.map fun d => d.toNat - 48)

/-- The count that the reader carries behind a run of digits. -/
def pending (digits : Bytes) : Option Nat :=
  if digits = [] then none else some digits.decimalValue

theorem decimalValue_concat (digits : Bytes) (d : UInt8) :
    (digits ++ [d]).decimalValue = digits.decimalValue * 10 + (d.toNat - 48) := by
  simp only [decimalValue, List.reverse_append, List.reverse_singleton, List.singleton_append,
    List.map_cons, Nat.ofDigits_cons]
  omega

theorem pending_concat (digits : Bytes) (d : UInt8) :
    (digits ++ [d]).pending = some (digits.pending.getD 0 * 10 + (d.toNat - 48)) := by
  have hne : digits ++ [d] ≠ [] := List.append_ne_nil_of_right_ne_nil _ (List.cons_ne_nil _ _)
  rw [pending, if_neg hne, decimalValue_concat]
  cases digits with
  | nil => rfl
  | cons b bs => rfl

end Bytes

/-- The alphabet of type codes. -/
def typeCodes : Bytes :=
  Bytes.ofChars ['x', 'c', 'b', 'B', '?', 'h', 'H', 'i', 'I', 'l', 'L', 'q', 'Q', 'e', 'f', 'd',
    's', 'p']

/-- The code of a counted text. -/
def countedCode : UInt8 := 'p'.toUInt8

def orderMarks : Bytes :=
  Bytes.ofChars ['@', '=', '<', '>', '!']

/-- The byte order that a text has by its mark, if it has one. -/
def orderOf (mark : Option UInt8) : ByteOrder :=
  if mark = some '>'.toUInt8 ∨ mark = some '!'.toUInt8 then .big else .little

/-- A group of a format text: digits, of which there may be none, and a code. -/
structure Group where
  digits : Bytes
  code : UInt8
  deriving DecidableEq, Repr

namespace Group

def text (g : Group) : Bytes :=
  g.digits ++ [g.code]

/-- The number that is written, or one. -/
def number (g : Group) : Nat :=
  if g.digits = [] then 1 else g.digits.decimalValue

def item (g : Group) : Item :=
  ⟨if g.code = countedCode then min g.number maxCountedWidth else g.number, g.code⟩

structure WellFormed (g : Group) : Prop where
  digits : ∀ d ∈ g.digits, isDigit d = true
  code : g.code ∈ typeCodes
  number : g.code ≠ countedCode → g.number < 2 ^ 64

theorem number_eq_pending (g : Group) : g.number = g.digits.pending.getD 1 := by
  rw [number, Bytes.pending]
  split <;> rfl

end Group

/-- The text is written by the grammar and stands for the format. -/
def Format.SpelledBy (format : Format) (text : Bytes) : Prop :=
  ∃ (mark : Option UInt8) (groups : List Group),
    text = mark.toList ++ groups.flatMap Group.text ∧
    (∀ b ∈ mark, b ∈ orderMarks) ∧ groups ≠ [] ∧ (∀ g ∈ groups, g.WellFormed) ∧
    format = ⟨orderOf mark, groups.map Group.item⟩

section Alphabet

/-- What a parser takes each byte for. -/
theorem byte_kinds : ∀ b, ((Code.ofByte? b).isSome = true ↔ b ∈ typeCodes) ∧
    (Code.ofByte? b = some .counted ↔ b = countedCode) ∧
    ((Format.orderOfMark? b).isSome = true ↔ b ∈ orderMarks) ∧
    (b ∈ orderMarks → Format.orderOfMark? b = some (orderOf (some b)) ∧
      ¬(isDigit b = true ∨ b ∈ typeCodes)) ∧
    (b ∈ typeCodes → isDigit b = false) :=
  forall_byte (by decide +kernel)

theorem isSome_ofByte? (b : UInt8) : (Code.ofByte? b).isSome = true ↔ b ∈ typeCodes :=
  (byte_kinds b).1

theorem ofByte?_eq_counted (b : UInt8) : Code.ofByte? b = some .counted ↔ b = countedCode :=
  (byte_kinds b).2.1

theorem isSome_orderOfMark? (b : UInt8) :
    (Format.orderOfMark? b).isSome = true ↔ b ∈ orderMarks :=
  (byte_kinds b).2.2.1

theorem orderOfMark?_of_mem (b : UInt8) (h : b ∈ orderMarks) :
    Format.orderOfMark? b = some (orderOf (some b)) :=
  ((byte_kinds b).2.2.2.1 h).1

theorem isDigit_of_mem (b : UInt8) (h : b ∈ typeCodes) : isDigit b = false :=
  (byte_kinds b).2.2.2.2 h

/-- A group never begins as a mark does. -/
theorem orderOfMark?_eq_none {b : UInt8} (h : isDigit b = true ∨ b ∈ typeCodes) :
    Format.orderOfMark? b = none := by
  have hmarks (m : UInt8) (hm : m ∈ orderMarks) : ¬(isDigit m = true ∨ m ∈ typeCodes) :=
    ((byte_kinds m).2.2.2.1 hm).2
  cases horder : Format.orderOfMark? b with
  | none => rfl
  | some order => exact absurd h (hmarks b ((isSome_orderOfMark? b).mp (by rw [horder]; rfl)))

end Alphabet

/-- The count that a code allows, if it does. -/
theorem count?_eq_some_iff {b : UInt8} {code : Code} (h : Code.ofByte? b = some code)
    (n count : Nat) :
    code.count? n = some count ↔
      (b ≠ countedCode → n < 2 ^ 64) ∧
        (if b = countedCode then min n maxCountedWidth else n) = count := by
  by_cases hb : b = countedCode
  · rw [(ofByte?_eq_counted b).mpr hb] at h
    obtain rfl := Option.some.inj h
    simp [Code.count?, hb]
  · have hcode : code ≠ .counted := by
      rintro rfl
      exact hb ((ofByte?_eq_counted b).mp h)
    have hcount : code.count? n = if n < sizeLimit then some n else none := by
      cases code with
      | counted => contradiction
      | pad | scalar _ | string => rfl
    have hlimit : sizeLimit = 2 ^ 64 := rfl
    rw [hcount, hlimit, if_neg hb]
    split <;> simp_all

namespace Format

section Reading

variable {items : List Item}

/-- Passing over digits. -/
theorem readItems_digits (before digits rest : Bytes) (h : ∀ d ∈ digits, isDigit d = true) :
    readItems before.pending (digits ++ rest) = readItems (before ++ digits).pending rest := by
  induction digits generalizing before with
  | nil => rw [List.nil_append, List.append_nil]
  | cons d digits ih =>
      have hd := h d List.mem_cons_self
      have hrest := ih (before ++ [d]) fun e he => h e (List.mem_cons_of_mem _ he)
      rw [List.append_assoc, List.singleton_append] at hrest
      rw [← hrest, Bytes.pending_concat, List.cons_append]
      cases before.pending <;> simp only [readItems, hd, if_true]

theorem readItems_group {g : Group} (h : g.WellFormed) (rest : Bytes) :
    readItems none (g.text ++ rest) = (readItems none rest).map (g.item :: ·) := by
  have hdigits := readItems_digits [] g.digits (g.code :: rest) h.digits
  obtain ⟨code, hcode⟩ := Option.isSome_iff_exists.mp ((isSome_ofByte? g.code).mpr h.code)
  have hcount := (count?_eq_some_iff hcode g.number _).mpr ⟨h.number, rfl⟩
  rw [g.number_eq_pending] at hcount
  rw [Group.text, List.append_assoc, List.singleton_append]
  rw [List.nil_append] at hdigits
  rw [show (none : Option Nat) = Bytes.pending [] from rfl, hdigits]
  cases hpending : g.digits.pending <;>
    simp only [hpending] at hcount <;>
    simp only [readItems, isDigit_of_mem _ h.code, hcode, hcount, Bool.false_eq_true, if_false,
      Group.item, g.number_eq_pending, hpending] <;> rfl

/-- Groups are read one after the other. -/
theorem readItems_groups (groups : List Group) (h : ∀ g ∈ groups, g.WellFormed) :
    readItems none (groups.flatMap Group.text) = .ok (groups.map Group.item) := by
  induction groups with
  | nil => rfl
  | cons g groups ih =>
      rw [List.flatMap_cons, readItems_group (h g List.mem_cons_self),
        ih fun other hother => h other (List.mem_cons_of_mem _ hother)]
      rfl

/-- What reading does behind the digits of a group. -/
theorem exists_of_readItems_code {written : Option Nat} {b : UInt8} {rest : Bytes}
    (hb : isDigit b = false) (h : readItems written (b :: rest) = .ok items) :
    ∃ code count others, Code.ofByte? b = some code ∧
      code.count? (written.getD 1) = some count ∧
      readItems none rest = .ok others ∧ items = ⟨count, b⟩ :: others := by
  simp only [readItems, hb, Bool.false_eq_true, if_false] at h
  cases hcode : Code.ofByte? b with
  | none =>
      rw [hcode] at h
      contradiction
  | some code =>
      simp only [hcode] at h
      cases hcount : code.count? (written.getD 1) with
      | none =>
          rw [hcount] at h
          contradiction
      | some count =>
          rw [hcount] at h
          cases hrest : readItems none rest with
          | error e =>
              rw [hrest] at h
              contradiction
          | ok others =>
              rw [hrest] at h
              exact ⟨code, count, others, rfl, hcount, rfl, (Except.ok.inj h).symm⟩

/-- What is read was written as groups, the first of which began with the digits
that are pending. -/
theorem groups_of_readItems (before text : Bytes) (hbefore : ∀ d ∈ before, isDigit d = true)
    (h : readItems before.pending text = .ok items) :
    ∃ groups : List Group, before ++ text = groups.flatMap Group.text ∧
      (∀ g ∈ groups, g.WellFormed) ∧ items = groups.map Group.item := by
  induction text generalizing before items with
  | nil =>
      cases before with
      | nil =>
          obtain rfl := Except.ok.inj h
          exact ⟨[], rfl, fun g hg => absurd hg List.not_mem_nil, rfl⟩
      | cons d ds => contradiction
  | cons b rest ih =>
      cases hdigit : isDigit b with
      | true =>
          have hone : ∀ d ∈ [b], isDigit d = true := by simp [hdigit]
          have hmore : ∀ d ∈ before ++ [b], isDigit d = true := fun d hd =>
            (List.mem_append.mp hd).elim (hbefore d) (hone d)
          rw [← List.singleton_append, readItems_digits before [b] rest hone] at h
          have hgroups := ih (before ++ [b]) hmore h
          rwa [List.append_assoc, List.singleton_append] at hgroups
      | false =>
          obtain ⟨code, count, others, hcode, hcount, hothers, rfl⟩ :=
            exists_of_readItems_code hdigit h
          obtain ⟨groups, htext, hgroups, rfl⟩ :=
            ih [] (fun d hd => absurd hd List.not_mem_nil) hothers
          have hmem : b ∈ typeCodes := (isSome_ofByte? b).mp (by rw [hcode]; rfl)
          rw [← Group.number_eq_pending ⟨before, b⟩] at hcount
          obtain ⟨hnumber, hitem⟩ := (count?_eq_some_iff hcode _ _).mp hcount
          refine ⟨⟨before, b⟩ :: groups, ?_, ?_, ?_⟩
          · rw [List.flatMap_cons, ← htext, Group.text, List.append_assoc]
            rfl
          · intro g hg
            rcases List.mem_cons.mp hg with rfl | hg
            · exact ⟨hbefore, hmem, hnumber⟩
            · exact hgroups g hg
          · rw [List.map_cons, Group.item, hitem]

end Reading

/-- A text that begins with a group has no mark. -/
theorem splitMark_groups {groups : List Group} (h : ∀ g ∈ groups, g.WellFormed) :
    splitMark (groups.flatMap Group.text) = (.little, groups.flatMap Group.text) := by
  cases groups with
  | nil => rfl
  | cons g groups =>
      have hg := h g List.mem_cons_self
      obtain ⟨b, rest, htext, hb⟩ : ∃ b rest, g.text = b :: rest ∧
          (isDigit b = true ∨ b ∈ typeCodes) := by
        cases hdigits : g.digits with
        | nil => exact ⟨g.code, [], by rw [Group.text, hdigits]; rfl, .inr hg.code⟩
        | cons d ds =>
            refine ⟨d, ds ++ [g.code], by rw [Group.text, hdigits]; rfl, .inl (hg.digits d ?_)⟩
            rw [hdigits]
            exact List.mem_cons_self
      rw [List.flatMap_cons, htext, List.cons_append, splitMark, orderOfMark?_eq_none hb]

/-- A mark in front of a text that has none gives its order to the text. -/
theorem splitMark_marked {mark : Option UInt8} {body : Bytes} (hmark : ∀ b ∈ mark, b ∈ orderMarks)
    (hbody : splitMark body = (.little, body)) :
    splitMark (mark.toList ++ body) = (orderOf mark, body) := by
  cases mark with
  | none => exact hbody
  | some b =>
      rw [Option.toList_some, List.singleton_append, splitMark,
        orderOfMark?_of_mem b (hmark b rfl)]

theorem exists_mark (text : Bytes) :
    ∃ mark : Option UInt8, (∀ b ∈ mark, b ∈ orderMarks) ∧
      text = mark.toList ++ (splitMark text).2 ∧ (splitMark text).1 = orderOf mark := by
  cases text with
  | nil => exact ⟨none, fun b hb => by contradiction, rfl, rfl⟩
  | cons b rest =>
      rw [splitMark]
      cases horder : orderOfMark? b with
      | none => exact ⟨none, fun b hb => by contradiction, rfl, rfl⟩
      | some order =>
          have hb : b ∈ orderMarks := (isSome_orderOfMark? b).mp (by rw [horder]; rfl)
          have hsame := orderOfMark?_of_mem b hb
          rw [horder] at hsame
          refine ⟨some b, ?_, rfl, Option.some.inj hsame⟩
          rintro c ⟨rfl⟩
          exact hb

/-- Reading succeeds on the texts of the grammar. -/
theorem parse_eq_ok_iff (text : Bytes) (format : Format) :
    parse text = .ok format ↔ format.SpelledBy text := by
  constructor
  · intro h
    obtain ⟨mark, hmark, htext, horder⟩ := exists_mark text
    simp only [parse] at h
    split at h
    · contradiction
    · contradiction
    · rename_i items hne hread
      obtain ⟨groups, hbody, hgroups, rfl⟩ :=
        groups_of_readItems [] _ (fun d hd => by contradiction) hread
      obtain rfl := Except.ok.inj h
      rw [List.nil_append] at hbody
      refine ⟨mark, groups, ?_, hmark, ?_, hgroups, ?_⟩
      · rw [← hbody, ← htext]
      · rintro rfl
        exact hne rfl
      · rw [horder]
  · rintro ⟨mark, groups, rfl, hmark, hne, hgroups, rfl⟩
    obtain ⟨g, others, rfl⟩ := List.exists_cons_of_ne_nil hne
    simp only [parse, splitMark_marked hmark (splitMark_groups hgroups),
      readItems_groups _ hgroups]
    rfl

/-- A leading zero, a length that no byte can hold, and a missing count. -/
example : parse (Bytes.ofChars ['>', '0', '9', '9', '9', 'p', 'h']) =
    .ok ⟨.big, [⟨255, 'p'.toUInt8⟩, ⟨1, 'h'.toUInt8⟩]⟩ := rfl

end Format

/-- Reading a format text finds the format that the text spells, and fails on
every text that spells none, with a blank format and the code for a bad format. -/
theorem findFormat_spelled (text : Bytes) :
    (∀ format : Format, findFormat text = ⟨format, none⟩ ↔ format.SpelledBy text) ∧
      ((∀ format : Format, ¬format.SpelledBy text) ↔
        ∃ failure, findFormat text = ⟨⟨.big, []⟩, some failure⟩ ∧
          failure.fault = .pack .invalidFormat) := by
  have hfound : ∀ format : Format,
      findFormat text = ⟨format, none⟩ ↔ format.SpelledBy text := by
    intro format
    rw [← Format.parse_eq_ok_iff, findFormat, Format.ofText]
    cases Format.parse text <;> simp
  refine ⟨hfound, ?_⟩
  constructor
  · intro hnone
    cases hparse : Format.parse text with
    | error e =>
        refine ⟨.badFormat text e, ?_, rfl⟩
        simp only [findFormat, Format.ofText, hparse, Format.blank]
    | ok format => exact absurd ((Format.parse_eq_ok_iff text format).mp hparse) (hnone format)
  · rintro ⟨failure, hfailure, -⟩ format hspelled
    rw [(hfound format).mpr hspelled] at hfailure
    cases hfailure

end PackedRecord
