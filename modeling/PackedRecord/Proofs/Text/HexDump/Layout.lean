import Mathlib.Algebra.Order.Floor.Div
import PackedRecord.Proofs.Text.HexDump
import PackedRecord.Proofs.Value.Text

/-!
The layout of a hex dump.

Behind its offset a line has three columns for each byte, two digits and a space.
A short line is filled up to the width of a full one, so the characters of the
bytes begin in the same column on every line. The offset has at least four digits
and no zeros in front but those that make them four. All of this is visible, so
a line ends with the only newline in it and the lines can be told apart.
-/

namespace PackedRecord

namespace HexDump

/-- The digit of a number below sixteen, in lower case. -/
def digit (n : Nat) : UInt8 :=
  (Nat.digitChar n).toUInt8

/-- The number is written with at least four digits, and with no more than it takes. -/
structure WritesOffset (n : Nat) (text : Bytes) : Prop where
  four : 4 ≤ text.length
  fits : n < 16 ^ text.length
  least : 4 < text.length → 16 ^ (text.length - 1) ≤ n
  digits : ∀ rank < text.length, text.reverse[rank]? = some (digit (n / 16 ^ rank % 16))

theorem getElem?_reverse_toDigits {n rank : Nat} (h : rank < (Nat.toDigits 16 n).length) :
    (Nat.toDigits 16 n).reverse[rank]? = some (Nat.digitChar (n / 16 ^ rank % 16)) := by
  induction n using Nat.strongRecOn generalizing rank with
  | _ n ih =>
      by_cases hsmall : n < 16
      · rw [Nat.toDigits_of_lt_base hsmall] at h ⊢
        obtain rfl : rank = 0 := Nat.lt_one_iff.mp h
        rw [Nat.pow_zero, Nat.div_one, Nat.mod_eq_of_lt hsmall]
        rfl
      · -- All digits but the last are those of the number divided by sixteen, one rank higher.
        have hlarge : 16 ≤ n := Nat.le_of_not_lt hsmall
        rw [Nat.toDigits_of_base_le (by decide) hlarge] at h ⊢
        rw [List.reverse_concat]
        cases rank with
        | zero => rw [Nat.pow_zero, Nat.div_one, List.getElem?_cons_zero]
        | succ rank =>
            rw [List.length_append, List.length_singleton, Nat.succ_lt_succ_iff] at h
            rw [List.getElem?_cons_succ, ih (n / 16) (by omega) h, Nat.div_div_eq_div_mul,
              ← Nat.pow_succ']

theorem writesOffset_padZero (n : Nat) :
    WritesOffset n (Bytes.padZero 4 (Bytes.digits 16 n)) := by
  have hlength : (Bytes.digits 16 n).length = (Nat.toDigits 16 n).length := Bytes.length_ofChars _
  have hpadded := Bytes.length_padZero 4 (Bytes.digits 16 n)
  refine ⟨?_, ?_, ?_, ?_⟩
  · omega
  · refine (Nat.length_toDigits_le_iff (by decide) (by omega)).mp ?_
    omega
  · intro hmore
    by_contra hlt
    have hle := (Nat.length_toDigits_le_iff (b := 16) (by decide) (by omega)).mpr
      (Nat.lt_of_not_le hlt)
    omega
  · intro rank hrank
    have hreverse : (Bytes.padZero 4 (Bytes.digits 16 n)).reverse =
        (Bytes.digits 16 n).reverse ++
          List.replicate (4 - (Bytes.digits 16 n).length) '0'.toUInt8 := by
      rw [Bytes.padZero, List.reverse_append, List.reverse_replicate]
    rw [hreverse]
    by_cases hdigit : rank < (Nat.toDigits 16 n).length
    · rw [List.getElem?_append_left (by rw [List.length_reverse]; omega), Bytes.digits,
        Bytes.ofChars, ← List.map_reverse, List.getElem?_map, getElem?_reverse_toDigits hdigit]
      rfl
    · have hpos := Nat.length_toDigits_pos (b := 16) (n := n)
      have hlow : n < 16 ^ rank :=
        (Nat.length_toDigits_le_iff (by decide) (by omega)).mp (by omega)
      rw [List.getElem?_append_right (by rw [List.length_reverse]; omega),
        List.getElem?_replicate, if_pos (by rw [List.length_reverse]; omega),
        Nat.div_eq_of_lt hlow]
      rfl

/-- The digits of bytes, apart by one space. -/
def spaced (bs : Bytes) : Bytes :=
  [space].intercalate (bs.map Bytes.hexPair)

/-- What stands on a line behind its offset. Every byte has three columns, for its two digits
and a space; the characters begin two columns behind those of a full line. -/
structure Columns (width : Nat) (showAscii : Bool) (bs row : Bytes) : Prop where
  high : ∀ j b, bs[j]? = some b → row[3 * j]? = some (digit (b.toNat / 16))
  low : ∀ j b, bs[j]? = some b → row[3 * j + 1]? = some (digit (b.toNat % 16))
  apart : ∀ j, j + 1 < bs.length → row[3 * j + 2]? = some space
  bare : showAscii = false → row.length = 3 * bs.length - 1
  padding : showAscii = true → ∀ column, 3 * bs.length - 1 ≤ column → column < 3 * width + 2 →
    row[column]? = some space
  characters : showAscii = true → row.drop (3 * width + 2) =
    bs.map fun b => if 32 ≤ b ∧ b ≤ 126 then b else '.'.toUInt8

theorem spaced_cons_cons (b c : UInt8) (bs : Bytes) :
    spaced (b :: c :: bs) =
      digit (b.toNat / 16) :: digit (b.toNat % 16) :: space :: spaced (c :: bs) := by
  rw [spaced, List.map_cons, List.map_cons, List.intercalate_cons_cons, Bytes.hexPair_eq]
  rfl

theorem spaced_singleton (b : UInt8) :
    spaced [b] = [digit (b.toNat / 16), digit (b.toNat % 16)] := by
  rw [spaced, List.map_singleton, List.intercalate_singleton, Bytes.hexPair_eq]
  rfl

theorem length_spaced (bs : Bytes) : (spaced bs).length = 3 * bs.length - 1 := by
  induction bs with
  | nil => rfl
  | cons b bs ih =>
      cases bs with
      | nil => rw [spaced_singleton]; rfl
      | cons c bs =>
          rw [spaced_cons_cons]
          simp only [List.length_cons] at ih ⊢
          omega

theorem getElem?_spaced {bs : Bytes} {j : Nat} {b : UInt8} (h : bs[j]? = some b) :
    (spaced bs)[3 * j]? = some (digit (b.toNat / 16)) ∧
      (spaced bs)[3 * j + 1]? = some (digit (b.toNat % 16)) ∧
      (j + 1 < bs.length → (spaced bs)[3 * j + 2]? = some space) := by
  induction bs generalizing j with
  | nil => contradiction
  | cons c bs ih =>
      cases bs with
      | nil =>
          obtain rfl : j = 0 := Nat.lt_one_iff.mp (List.getElem?_eq_some_iff.mp h).1
          obtain rfl := Option.some.inj h
          rw [spaced_singleton]
          exact ⟨rfl, rfl, fun hmore => absurd hmore (Nat.lt_irrefl 1)⟩
      | cons e bs =>
          rw [spaced_cons_cons]
          cases j with
          | zero =>
              obtain rfl := Option.some.inj h
              exact ⟨rfl, rfl, fun _ => rfl⟩
          | succ j =>
              obtain ⟨hhigh, hlow, hspace⟩ := ih (j := j) h
              refine ⟨hhigh, hlow, ?_⟩
              intro hmore
              exact hspace (Nat.lt_of_succ_lt_succ hmore)

theorem glyph_eq (b : UInt8) : glyph b = if 32 ≤ b ∧ b ≤ 126 then b else '.'.toUInt8 := by
  simp only [glyph, isPrintable, Bool.and_eq_true, decide_eq_true_eq]

/-- What the line of some bytes has behind its offset. -/
def row (d : HexDump) (bs : Bytes) : Bytes :=
  spaced bs ++ if d.showAscii then List.replicate (d.gap bs.length) space ++ bs.map glyph else []

section Row

variable {d : HexDump} {bs : Bytes}

/-- The gap makes up for the bytes that the line is short of. -/
theorem gap_eq (hwidth : 3 * d.width + 1 < sizeLimit) (count : Nat) :
    d.gap count = 3 * (d.width - count) + 3 := by
  rw [gap, Nat.mod_eq_of_lt (by omega)]
  omega

theorem columns_row (hwidth : 3 * d.width + 1 < sizeLimit) (hpos : 0 < bs.length)
    (hfull : bs.length ≤ d.width) : Columns d.width d.showAscii bs (d.row bs) := by
  have hlength := length_spaced bs
  have hgap := gap_eq hwidth bs.length
  have hdigits {j : Nat} (hj : j < 3 * bs.length - 1) : (d.row bs)[j]? = (spaced bs)[j]? :=
    List.getElem?_append_left (by omega)
  constructor
  case high =>
    intro j b hb
    have hj := (List.getElem?_eq_some_iff.mp hb).1
    rw [hdigits (by omega)]
    exact (getElem?_spaced hb).1
  case low =>
    intro j b hb
    have hj := (List.getElem?_eq_some_iff.mp hb).1
    rw [hdigits (by omega)]
    exact (getElem?_spaced hb).2.1
  case apart =>
    intro j hj
    have hb := List.getElem?_eq_getElem (Nat.lt_of_succ_lt hj)
    rw [hdigits (by omega)]
    exact (getElem?_spaced hb).2.2 hj
  case bare =>
    intro hascii
    rw [row, hascii]
    exact (congrArg List.length (List.append_nil _)).trans hlength
  case padding =>
    intro hascii column hge hlt
    rw [row, hascii, if_pos rfl, List.getElem?_append_right (by omega),
      List.getElem?_append_left (by rw [List.length_replicate]; omega), List.getElem?_replicate,
      if_pos (by omega)]
  case characters =>
    intro hascii
    have hcolumn : (spaced bs ++ List.replicate (d.gap bs.length) space).length =
        3 * d.width + 2 := by
      rw [List.length_append, List.length_replicate]
      omega
    rw [row, hascii, if_pos rfl, ← List.append_assoc, List.drop_left' hcolumn]
    exact List.map_congr_left fun b _ => glyph_eq b

end Row

section Visible

theorem isPrintable_digit {n : Nat} (h : n < 16) : isPrintable (digit n) = true := by
  have hdigits : ∀ i : Fin 16, isPrintable (digit i) = true := by decide
  exact hdigits ⟨n, h⟩

theorem isPrintable_glyph (b : UInt8) : isPrintable (glyph b) = true := by
  rw [glyph]
  split
  case isTrue h => exact h
  case isFalse => rfl

theorem visible_hexPair (b : UInt8) : (Bytes.hexPair b).Visible := by
  have hlt := b.toNat_lt
  rw [Bytes.hexPair_eq]
  refine Bytes.visible_cons.mpr ⟨isPrintable_digit (by omega), ?_⟩
  exact List.forall_mem_singleton.mpr (isPrintable_digit (by omega))

theorem visible_row (d : HexDump) (bs : Bytes) : (d.row bs).Visible := by
  refine Bytes.visible_append.mpr ⟨Bytes.visible_intercalate (by decide) ?_, ?_⟩
  · intro text htext
    obtain ⟨b, -, rfl⟩ := List.mem_map.mp htext
    exact visible_hexPair b
  · split
    case isTrue =>
      refine Bytes.visible_append.mpr ⟨Bytes.visible_replicate _ (by decide), ?_⟩
      intro c hc
      obtain ⟨b, -, rfl⟩ := List.mem_map.mp hc
      exact isPrintable_glyph b
    case isFalse => exact fun b hb => absurd hb List.not_mem_nil

theorem WritesOffset.visible {n : Nat} {text : Bytes} (h : WritesOffset n text) : text.Visible := by
  intro b hb
  obtain ⟨rank, hrank⟩ := List.mem_iff_getElem?.mp (List.mem_reverse.mpr hb)
  have hlt := (List.getElem?_eq_some_iff.mp hrank).1
  rw [List.length_reverse] at hlt
  rw [h.digits rank hlt] at hrank
  obtain rfl := Option.some.inj hrank
  exact isPrintable_digit (Nat.mod_lt _ (by decide))

end Visible

/-- What a line has in front of its columns. -/
def Starts (showOffset : Bool) (offset : Nat) (start : Bytes) : Prop :=
  if showOffset then ∃ number, start = number ++ Bytes.ofString ": " ∧ WritesOffset offset number
  else start = []

/-- The line of some bytes, with a newline at its end and nowhere else. -/
def Shows (width : Nat) (showOffset showAscii : Bool) (offset : Nat) (bs line : Bytes) : Prop :=
  ∃ start row, line = start ++ row ++ [newline] ∧ (start ++ row).Visible ∧
    Starts showOffset offset start ∧ Columns width showAscii bs row

theorem shows_line {d : HexDump} {bs : Bytes} (hwidth : 3 * d.width + 1 < sizeLimit)
    (hpos : 0 < bs.length) (hfull : bs.length ≤ d.width) (offset : Nat) :
    Shows d.width d.showOffset d.showAscii offset bs (d.line offset bs) := by
  have hcolumns := columns_row hwidth hpos hfull
  have hvisible := visible_row d bs
  have hnumber := writesOffset_padZero offset
  cases hoffset : d.showOffset with
  | false =>
      refine ⟨[], d.row bs, ?_, hvisible, rfl, hcolumns⟩
      simp only [line, hoffset, Bool.false_eq_true, if_false, List.nil_append, row, spaced]
  | true =>
      refine ⟨_, d.row bs, ?_, ?_, ⟨_, rfl, hnumber⟩, hcolumns⟩
      · simp only [line, hoffset, if_true, row, spaced, List.append_assoc]
      · refine Bytes.visible_append.mpr ⟨Bytes.visible_append.mpr ⟨?_, by decide⟩, hvisible⟩
        exact hnumber.visible

theorem lineCount_eq (d : HexDump) (count : Nat) : d.lineCount count = count ⌈/⌉ d.width := by
  rw [lineCount, Nat.ceilDiv_eq_add_pred_div, Nat.add_sub_assoc d.width_pos]

theorem getElem?_linesFrom (d : HexDump) (bs : Bytes) (k : Nat) :
    (d.linesFrom bs 0)[k]? =
      if k < d.lineCount bs.length then some (d.line (k * d.width) (cut bs (k * d.width) d.width))
      else none := by
  rw [linesFrom, List.getElem?_map, Nat.sub_zero, ← List.range_eq_range']
  split
  case isTrue h => rw [List.getElem?_range h, Option.map_some]
  case isFalse h =>
    rw [List.getElem?_eq_none (by rw [List.length_range]; omega), Option.map_none]

/-- Every line of a dump shows its bytes at its offset. -/
theorem shows_linesFrom {d : HexDump} (hwidth : 3 * d.width + 1 < sizeLimit) {bs : Bytes}
    {m k : Nat} (hm : m ≤ bs.length) {line : Bytes}
    (h : (d.linesFrom (bs.take m) 0)[k]? = some line) :
    Shows d.width d.showOffset d.showAscii (k * d.width)
      (cut bs (k * d.width) (min (k * d.width + d.width) m - k * d.width)) line := by
  rw [getElem?_linesFrom, List.length_take_of_le hm] at h
  split at h
  case isTrue hk =>
    obtain rfl := Option.some.inj h
    have hlt := (d.lt_lineCount_iff m k).mp hk
    have hpos := d.width_pos
    have hlength : (cut bs (k * d.width) (min (k * d.width + d.width) m - k * d.width)).length =
        min (k * d.width + d.width) m - k * d.width := length_cut (by omega)
    rw [cut_take]
    exact shows_line hwidth (by omega) (by omega) _
  case isFalse => contradiction

/-- The text of a dump. Its lines are as many as the bytes that are shown take; each shows the
next bytes, in columns that are the same on every line, and ends with the only newline
in it. A last line tells how many bytes there are if not all are shown. Bytes in memory are
no more than half of the offsets there are, so the offset of a line does not wrap. -/
theorem render_layout (bs : Bytes) (hlength : bs.length ≤ 2 ^ 63) (perLine limit : UInt64)
    (showOffset showAscii : Bool) :
    let d : HexDump := ⟨perLine.toNat, limit.toNat, showOffset, showAscii⟩
    let p := if perLine = 0 then 16 else perLine.toNat
    let m := if limit = 0 then bs.length else min bs.length limit.toNat
    3 * p + 1 < 2 ^ 64 →
      ∃ lines : List Bytes,
        d.render? bs = some (d.render bs) ∧
        d.render bs = lines.flatten ++
          (if limit ≠ 0 ∧ limit.toNat < bs.length then
            Bytes.ofString "... (truncated, total=" ++ Bytes.decimal bs.length ++
              Bytes.ofString " bytes)\n"
          else []) ∧
        lines.length = m ⌈/⌉ p ∧
        ∀ k line, lines[k]? = some line →
          Shows p showOffset showAscii (k * p) (cut bs (k * p) (min (k * p + p) m - k * p))
            line := by
  intro d p m hp
  have hwidth : d.width = p := by
    simp only [width, d, p, ← UInt64.toNat_inj, UInt64.toNat_zero]
  have hshown : d.shown bs.length = m := by
    simp only [shown, d, m, ← UInt64.toNat_inj, UInt64.toNat_zero]
  have hm : m ≤ bs.length := by
    simp only [m]
    split <;> omega
  have hnote : d.truncationNote bs.length = if limit ≠ 0 ∧ limit.toNat < bs.length then
      Bytes.ofString "... (truncated, total=" ++ Bytes.decimal bs.length ++
        Bytes.ofString " bytes)\n" else [] := by
    simp only [truncationNote, d, ne_eq, ← UInt64.toNat_inj, UInt64.toNat_zero]
  rw [← hwidth] at hp ⊢
  have hrender := render?_eq (d := d) (Nat.lt_of_le_of_lt (by omega) hp) hlength
  rw [hshown, hnote] at hrender
  refine ⟨d.linesFrom (bs.take m) 0, ?_, ?_, ?_, ?_⟩
  · rw [render, hrender]
    rfl
  · rw [render, hrender]
    rfl
  · rw [linesFrom, List.length_map, List.length_range', List.length_take_of_le hm, Nat.sub_zero,
      lineCount_eq]
  · intro k line hline
    exact shows_linesFrom hp hm hline

/-- Two bytes on a line, of which the second line has one only, and a byte that is not shown. -/
theorem render_layout_short_line :
    let bs : Bytes := [0x01, 0x41, 0xFF, 0x42]
    let d : HexDump := ⟨2, 3, true, true⟩
    bs.length ≤ 2 ^ 63 ∧ 3 * d.width + 1 < 2 ^ 64 ∧ ∃ lines : List Bytes,
      d.render bs = lines.flatten ++ Bytes.ofString "... (truncated, total=4 bytes)\n" ∧
      lines.length = 2 ∧
      ∃ start row, lines[1]? = some (start ++ row ++ [newline]) ∧
        row[0]? = some 'f'.toUInt8 ∧ row[2]? = some space ∧ row.drop 8 = ['.'.toUInt8] := by
  intro bs d
  have hlength : bs.length ≤ 2 ^ 63 := by decide
  have hwidth : 3 * d.width + 1 < 2 ^ 64 := by decide
  obtain ⟨lines, -, hrender, hcount, hlines⟩ := render_layout bs hlength 2 3 true true hwidth
  have htwo : lines.length = 2 := hcount.trans (by decide)
  have hlast := List.getElem?_eq_getElem (show 1 < lines.length by omega)
  obtain ⟨start, row, hline, -, -, hcolumns⟩ := hlines 1 _ hlast
  refine ⟨hlength, hwidth, lines, hrender.trans ?_, htwo, start, row, hline ▸ hlast, ?_, ?_, ?_⟩
  · exact congrArg (lines.flatten ++ ·) (by decide)
  · exact hcolumns.high 0 0xFF (by decide)
  · exact hcolumns.padding rfl 2 (by decide) (by decide)
  · exact (hcolumns.characters rfl).trans (by decide)

end HexDump

end PackedRecord
