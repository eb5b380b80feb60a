import Mathlib.Algebra.Ring.Nat
import PackedRecord.Proofs.Store.Patch
import PackedRecord.Proofs.Text.Hex
import PackedRecord.Text.Encoding
import PackedRecord.Text.HexDump

/-!
Hex dumps.

The offset of a line is a word, and the loop over the lines adds to it until it
is past the bytes. For bytes in memory no sum wraps: an offset that is not zero
is at least the step, and it is below the number of bytes. So the loop comes to
an end, and line by line it shows all bytes. In general it need not, but offsets
come round again, so the rounds it is given suffice if any do. A dump with nothing
but digits is read back, as every line spells its bytes.
-/

namespace PackedRecord

namespace HexDump

/-- The number of lines for so many bytes. -/
def lineCount (d : HexDump) (count : Nat) : Nat :=
  (count + (d.width - 1)) / d.width

/-- The lines of some bytes from the line of an index on, their offsets in exact arithmetic. -/
def linesFrom (d : HexDump) (bs : Bytes) (first : Nat) : List Bytes :=
  (List.range' first (d.lineCount bs.length - first)).map fun k =>
    d.line (k * d.width) (cut bs (k * d.width) d.width)

section Lines

variable (d : HexDump)

theorem width_pos : 0 < d.width := by
  rw [width]
  split <;> omega

theorem lt_lineCount_iff (count k : Nat) : k < d.lineCount count ↔ k * d.width < count := by
  have hpos := d.width_pos
  rw [lineCount, Nat.lt_iff_add_one_le, Nat.le_div_iff_mul_le hpos, Nat.succ_mul]
  omega

theorem lineCount_le (count : Nat) : d.lineCount count ≤ count := by
  by_contra h
  have hlt := (d.lt_lineCount_iff count count).mp (Nat.lt_of_not_le h)
  exact Nat.not_lt.mpr (Nat.le_mul_of_pos_right count d.width_pos) hlt

theorem linesFrom_of_lt {bs : Bytes} {k : Nat} (h : k < d.lineCount bs.length) :
    d.linesFrom bs k =
      d.line (k * d.width) (cut bs (k * d.width) d.width) :: d.linesFrom bs (k + 1) := by
  obtain ⟨n, hn⟩ := Nat.exists_eq_add_of_lt h
  have hhere : d.lineCount bs.length - k = n + 1 := by omega
  have hrest : d.lineCount bs.length - (k + 1) = n := by omega
  rw [linesFrom, linesFrom, hhere, hrest, List.range'_succ, List.map_cons]

theorem linesFrom_of_le {bs : Bytes} {k : Nat} (h : d.lineCount bs.length ≤ k) :
    d.linesFrom bs k = [] := by
  rw [linesFrom, Nat.sub_eq_zero_of_le h]
  rfl

theorem linesFrom?_of_le (bytes : Array UInt8) {stop offset : UInt64} (h : stop ≤ offset)
    (rounds : Nat) : d.linesFrom? bytes stop (rounds + 1) offset = some [] := by
  rw [linesFrom?, if_neg (UInt64.not_lt.mpr h)]

/-- The bytes of a line are those from its offset on, as far as the stop. -/
theorem linesFrom?_of_lt (bs : Bytes) {stop offset : UInt64} (h : offset < stop) (rounds : Nat) :
    d.linesFrom? bs.toArray stop (rounds + 1) offset =
      (d.linesFrom? bs.toArray stop rounds (offset + UInt64.ofNat d.width)).map
        (d.line offset.toNat (cut (bs.take stop.toNat) offset.toNat d.width) :: ·) := by
  have hpiece (n : Nat) : (bs.toArray.extract offset.toNat (offset.toNat + n)).toList =
      (bs.drop offset.toNat).take n := by
    rw [Array.toList_extract, List.extract_eq_take_drop, Nat.add_sub_cancel_left]
  rw [linesFrom?, if_pos h, cut, List.drop_take, List.take_take,
    ← UInt64.toNat_sub_of_le _ _ (UInt64.le_of_lt h), ← hpiece]

/-- The lines are still going on exactly when all offsets so far are below the stop. -/
theorem linesFrom?_eq_none_iff (bytes : Array UInt8) (stop offset : UInt64) (rounds : Nat) :
    d.linesFrom? bytes stop rounds offset = none ↔
      ∀ k < rounds, offset + UInt64.ofNat (k * d.width) < stop := by
  induction rounds generalizing offset with
  | zero => exact ⟨fun _ _ h => absurd h (Nat.not_lt_zero _), fun _ => rfl⟩
  | succ rounds ih =>
      have hzero : offset + UInt64.ofNat (0 * d.width) = offset := by
        rw [Nat.zero_mul]
        exact UInt64.add_zero offset
      have hsucc (k : Nat) : offset + UInt64.ofNat ((k + 1) * d.width) =
          offset + UInt64.ofNat d.width + UInt64.ofNat (k * d.width) := by
        rw [Nat.succ_mul, Nat.add_comm, UInt64.ofNat_add, UInt64.add_assoc]
      rw [Nat.forall_lt_succ_left, hzero]
      simp only [hsucc, ← ih]
      by_cases h : offset < stop
      · rw [linesFrom?, if_pos h, Option.map_eq_none_iff]
        exact (and_iff_right h).symm
      · rw [linesFrom?, if_neg h]
        exact ⟨fun hnone => by contradiction, fun hboth => absurd hboth.1 h⟩

/-- Offsets come round again after as many rounds as there are words, so lines that have not come
to an end by then never do. -/
theorem linesFrom?_endless {bytes : Array UInt8} {stop offset : UInt64}
    (h : d.linesFrom? bytes stop sizeLimit offset = none) (rounds : Nat) :
    d.linesFrom? bytes stop rounds offset = none := by
  rw [linesFrom?_eq_none_iff] at h ⊢
  intro k _
  have hround : UInt64.ofNat (k * d.width) = UInt64.ofNat (k % sizeLimit * d.width) := by
    apply UInt64.toNat_inj.mp
    rw [UInt64.toNat_ofNat', UInt64.toNat_ofNat']
    exact (Nat.mod_mul_mod k d.width sizeLimit).symm
  rw [hround]
  exact h _ (Nat.mod_lt k (by decide))

variable {d} (hwidth : d.width < sizeLimit)
include hwidth

/-- The step behind an offset of a line does not wrap: the first offset is zero, and each later one
is at least the step. -/
theorem succ_mul_width_lt {k stop : Nat} (hk : k * d.width < stop) (hstop : stop ≤ 2 ^ 63) :
    (k + 1) * d.width < sizeLimit := by
  rw [Nat.succ_mul]
  rcases Nat.eq_zero_or_pos k with rfl | hpos
  · rwa [Nat.zero_mul, Nat.zero_add]
  · have hle := Nat.le_mul_of_pos_left d.width hpos
    have hlimit : sizeLimit = 2 ^ 63 + 2 ^ 63 := rfl
    omega

theorem linesFrom?_eq {bs : Bytes} {stop : UInt64} (hlength : bs.length = stop.toNat)
    (hstop : stop.toNat ≤ 2 ^ 63) (more : Bytes) {k rounds : Nat} (hk : k * d.width < sizeLimit)
    (hrounds : d.lineCount bs.length - k < rounds) :
    d.linesFrom? (bs ++ more).toArray stop rounds (UInt64.ofNat (k * d.width)) =
      some (d.linesFrom bs k) := by
  have htake : (bs ++ more).take stop.toNat = bs := List.take_left' hlength
  have hoffset : (UInt64.ofNat (k * d.width)).toNat = k * d.width := UInt64.toNat_ofNat_of_lt' hk
  induction rounds generalizing k with
  | zero => exact absurd hrounds (Nat.not_lt_zero _)
  | succ rounds ih =>
      by_cases hmore : k < d.lineCount bs.length
      · have hlt : k * d.width < stop.toNat := hlength ▸ (d.lt_lineCount_iff _ _).mp hmore
        have hsucc := succ_mul_width_lt hwidth hlt hstop
        have hnext : UInt64.ofNat (k * d.width) + UInt64.ofNat d.width =
            UInt64.ofNat ((k + 1) * d.width) := by
          rw [Nat.succ_mul, UInt64.ofNat_add]
        rw [d.linesFrom?_of_lt _ (by rwa [UInt64.lt_iff_toNat_lt, hoffset]), hoffset, hnext, htake,
          ih hsucc (by omega) (UInt64.toNat_ofNat_of_lt' hsucc), d.linesFrom_of_lt hmore]
        rfl
      · have hle : stop.toNat ≤ k * d.width :=
          hlength ▸ Nat.le_of_not_lt (mt (d.lt_lineCount_iff _ _).mpr hmore)
        rw [d.linesFrom?_of_le _ (by rwa [UInt64.le_iff_toNat_le, hoffset]),
          d.linesFrom_of_le (Nat.le_of_not_lt hmore)]

end Lines

/-- A dump of bytes that lie in memory ends, and shows them in lines of the full width but
for the last. -/
theorem render?_eq {d : HexDump} (hwidth : d.width < sizeLimit) {bs : Bytes}
    (h : bs.length ≤ 2 ^ 63) :
    d.render? bs = some
      ((d.linesFrom (bs.take (d.shown bs.length)) 0).flatten ++ d.truncationNote bs.length) := by
  have hshown : d.shown bs.length ≤ bs.length := by
    rw [shown]
    split <;> omega
  have hstop : (UInt64.ofNat (d.shown bs.length)).toNat = d.shown bs.length :=
    UInt64.toNat_ofNat_of_lt' (by rw [UInt64.size]; omega)
  have hlength : (bs.take (d.shown bs.length)).length =
      (UInt64.ofNat (d.shown bs.length)).toNat := by
    rw [hstop, List.length_take_of_le hshown]
  have hrounds : d.lineCount (bs.take (d.shown bs.length)).length - 0 < sizeLimit := by
    have hcount := d.lineCount_le (bs.take (d.shown bs.length)).length
    have hlimit : sizeLimit = 2 ^ 63 + 2 ^ 63 := rfl
    omega
  have hlines := linesFrom?_eq hwidth hlength (by omega) (bs.drop (d.shown bs.length))
    (by rw [Nat.zero_mul]; decide) hrounds
  rw [List.take_append_drop, Nat.zero_mul] at hlines
  rw [render?, show (0 : UInt64) = UInt64.ofNat 0 from rfl, hlines]
  rfl

/-- The single spaces between digits make no difference. -/
theorem spells_spaced (bs : Bytes) :
    Hex.Spells ([space].intercalate (bs.map Bytes.hexPair)) bs := by
  have hspace : space ∈ Hex.breaks := by decide
  induction bs with
  | nil => exact .nil
  | cons b bs ih =>
      cases bs with
      | nil =>
          rw [List.map_singleton, List.intercalate_singleton]
          exact Hex.spells_hexPair b
      | cons c bs =>
          rw [List.map_cons, List.map_cons, List.intercalate_cons_cons, List.append_assoc]
          exact (Hex.spells_hexPair b).append (.separator hspace ih)

/-- Nothing but the digits of the bytes. -/
structure Bare (d : HexDump) : Prop where
  showOffset : d.showOffset = false
  showAscii : d.showAscii = false

/-- No byte is left out. -/
def Whole (d : HexDump) (total : Nat) : Prop :=
  d.limit = 0 ∨ total ≤ d.limit

section Whole

variable {d : HexDump} {total : Nat} (h : d.Whole total)
include h

theorem shown_of_whole : d.shown total = total := by
  rw [shown]
  split
  case isTrue => rfl
  case isFalse hne => exact Nat.min_eq_left (h.resolve_left hne)

theorem truncationNote_of_whole : d.truncationNote total = [] := by
  rw [truncationNote, if_neg]
  rintro ⟨hne, hlt⟩
  exact Nat.not_lt.mpr (h.resolve_left hne) hlt

end Whole

section Bare

variable {d : HexDump} (h : d.Bare)
include h

theorem spells_line (offset : Nat) (bs : Bytes) : Hex.Spells (d.line offset bs) bs := by
  have hend : Hex.Spells [newline] [] := .separator (by decide) .nil
  have hline := (spells_spaced bs).append hend
  rw [List.append_nil] at hline
  simpa only [line, h.showOffset, h.showAscii, Bool.false_eq_true, if_false, List.nil_append,
    List.append_nil] using hline

theorem spells_linesFrom (bs : Bytes) (k : Nat) :
    Hex.Spells (d.linesFrom bs k).flatten (bs.drop (k * d.width)) := by
  induction hn : d.lineCount bs.length - k generalizing k with
  | zero =>
      have hdone : d.lineCount bs.length ≤ k := Nat.le_of_sub_eq_zero hn
      have hle : bs.length ≤ k * d.width :=
        Nat.le_of_not_lt (mt (d.lt_lineCount_iff _ _).mpr (Nat.not_lt.mpr hdone))
      rw [d.linesFrom_of_le hdone, List.drop_eq_nil_of_le hle]
      exact .nil
  | succ n ih =>
      have hmore : k < d.lineCount bs.length := by omega
      have hsplit : bs.drop (k * d.width) =
          cut bs (k * d.width) d.width ++ bs.drop ((k + 1) * d.width) := by
        rw [Nat.succ_mul, ← List.drop_drop, cut, List.take_append_drop]
      rw [d.linesFrom_of_lt hmore, List.flatten_cons, hsplit]
      exact (spells_line h _ _).append (ih (k + 1) (by omega))

end Bare

/-- All bytes are read back from their dump. -/
theorem parse_render {d : HexDump} (hbare : d.Bare) (hwidth : d.width < sizeLimit) {bs : Bytes}
    (hlength : bs.length ≤ 2 ^ 63) (hwhole : d.Whole bs.length) :
    d.render? bs = some (d.render bs) ∧ Hex.parse (d.render bs) = .ok bs := by
  have hrender := render?_eq hwidth hlength
  rw [shown_of_whole hwhole, truncationNote_of_whole hwhole, List.take_length,
    List.append_nil] at hrender
  have hspells := spells_linesFrom hbare bs 0
  rw [Nat.zero_mul, List.drop_zero] at hspells
  rw [render, hrender]
  exact ⟨rfl, (Hex.parse_eq_ok_iff _ _).mpr hspells⟩

end HexDump

/-- Bytes are read back from their digits, and from a dump of all of them that has nothing but
digits. A dump comes to an end whatever the number of bytes on a line: bytes in memory are no more
than half of what a word can count, since the difference of two addresses has a sign. -/
theorem Hex.parse_written (bs : Bytes) :
    Hex.parse (Hex.render bs) = .ok bs ∧
      Encoding.hex.decode (Encoding.hex.encode bs) = .ok bs ∧
      (bs.length ≤ 2 ^ 63 → ∀ perLine limit : UInt64, limit = 0 ∨ bs.length ≤ limit.toNat →
        let d : HexDump := ⟨perLine.toNat, limit.toNat, false, false⟩
        d.render? bs = some (d.render bs) ∧ Hex.parse (d.render bs) = .ok bs) := by
  have hdigits := (parse_eq_ok_iff _ _).mpr (spells_render bs)
  refine ⟨hdigits, hdigits, ?_⟩
  intro hlength perLine limit hlimit d
  have hwidth : d.width < sizeLimit := by
    have hstep := perLine.toNat_lt
    simp only [HexDump.width, d, sizeLimit]
    split <;> omega
  exact HexDump.parse_render ⟨rfl, rfl⟩ hwidth hlength (hlimit.imp_left (congrArg UInt64.toNat))

/-- The greatest number of bytes on a line, and a limit that just takes all bytes. -/
theorem Hex.parse_written_greatest_step :
    let bs : Bytes := [0x00, 0x0A, 0xFF]
    let d : HexDump := ⟨0xFFFFFFFFFFFFFFFF, 3, false, false⟩
    bs.length ≤ 2 ^ 63 ∧ bs.length ≤ d.limit ∧ Hex.parse (Hex.render bs) = .ok bs ∧
      d.render? bs = some (d.render bs) ∧ Hex.parse (d.render bs) = .ok bs := by
  intro bs d
  obtain ⟨hdigits, -, hdump⟩ := parse_written bs
  obtain ⟨hrender, hparse⟩ := hdump (by decide) 0xFFFFFFFFFFFFFFFF 3 (.inr (by decide))
  exact ⟨by decide, by decide, hdigits, hrender, hparse⟩

end PackedRecord
