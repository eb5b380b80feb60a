import PackedRecord.Proofs.Record.Read
import PackedRecord.Record.Windows

/-!
Walking over windows.

The cursor behind `k` steps stands at window `k`, whatever the bytes are: its
place depends on the stride alone, and a parsed format can be read at every
place that leaves room for it. `cursorAt` is that cursor, with the store in which
it arrived there, and one step takes it to the next. Everything that is shown of
a walk follows from this step.
-/

namespace PackedRecord

namespace Windows

/-- The buffer from a window on. -/
def rest (w : Windows) (k : Nat) : View :=
  w.buffer.drop (k * w.stride)

/-- The cells of a window. -/
def window (w : Windows) (k : Nat) : View :=
  w.buffer.slice (k * w.stride) ((k + 1) * w.stride)

/-- The cursor that arrives at a window in a store, or is done behind the last. -/
def cursorAt (w : Windows) (s : Store) (k : Nat) : Cursor :=
  if k < w.count then ⟨w.rest k, (unpack w.format s (w.rest k)).values, none, false⟩
  else ⟨w.rest w.count, [], none, true⟩

/-- The cursor that was started in a store and took a number of steps in it. -/
def cursorAfter (w : Windows) (s : Store) : (steps : Nat) → Cursor
  | 0 => (w.start s).1
  | steps + 1 => (w.next s (w.cursorAfter s steps)).1

theorem done_cursorAt (w : Windows) (s : Store) (k : Nat) :
    (w.cursorAt s k).done = true ↔ w.count ≤ k := by
  rw [cursorAt]
  split <;> simp <;> omega

theorem fault_cursorAt (w : Windows) (s : Store) (k : Nat) : (w.cursorAt s k).fault = none := by
  rw [cursorAt]
  split <;> rfl

theorem size_rest (w : Windows) (k : Nat) :
    (w.rest k).size = w.buffer.size - k * w.stride :=
  View.size_drop _ _

theorem rest_zero {w : Windows} (h : 0 < w.buffer.size) : w.rest 0 = w.buffer := by
  rw [rest, Nat.zero_mul, View.drop, View.slice_of_lt h (Nat.le_refl _)]
  rfl

theorem drop_rest (w : Windows) (k : Nat) : (w.rest k).drop w.stride = w.rest (k + 1) := by
  rw [rest, rest, View.drop_drop, Nat.succ_mul]

section Walk

variable {w : Windows} {s : Store} {n : Nat}
  (hdone : ∀ k, (w.cursorAfter s k).done = true ↔ n ≤ k)
include hdone

/-- A walk from a step on, with fuel for the steps that are left. -/
theorem walkFrom_cursorAfter {fuel k : Nat} (hk : k ≤ n) (hfuel : n ≤ k + fuel) :
    w.walkFrom s fuel (w.cursorAfter s k) =
      ⟨(List.range' k (n - k)).map fun i => (w.cursorAfter s i).values,
        (w.cursorAfter s n).fault,
        (List.range' k (n - k)).flatMap fun i => (w.next s (w.cursorAfter s i)).2⟩ := by
  induction fuel generalizing k with
  | zero =>
      obtain rfl : k = n := by omega
      rw [Nat.sub_self]
      rfl
  | succ fuel ih =>
      by_cases hlt : k < n
      · have hlive : (w.cursorAfter s k).done = false :=
          Bool.not_eq_true _ ▸ mt (hdone k).mp (Nat.not_le.mpr hlt)
        have hnext : (w.next s (w.cursorAfter s k)).1 = w.cursorAfter s (k + 1) := rfl
        rw [walkFrom, hlive, show n - k = n - (k + 1) + 1 by omega, List.range'_succ,
          List.map_cons, List.flatMap_cons]
        simp only [Bool.false_eq_true, if_false, hnext, ih hlt (by omega)]
      · obtain rfl : k = n := by omega
        rw [walkFrom, if_pos ((hdone k).mpr (Nat.le_refl k)), Nat.sub_self]
        rfl

/-- A walk shows what the cursor holds until it is done. -/
theorem walk_cursorAfter (hn : n ≤ w.buffer.size + 1) :
    w.walk s =
      ⟨(List.range n).map fun k => (w.cursorAfter s k).values, (w.cursorAfter s n).fault,
        (w.start s).2 ++ (List.range n).flatMap fun k => (w.next s (w.cursorAfter s k)).2⟩ := by
  have hrun := walkFrom_cursorAfter hdone (Nat.zero_le n)
    (show n ≤ 0 + (w.buffer.size + 1) by omega)
  rw [Nat.sub_zero, ← List.range_eq_range'] at hrun
  exact congrArg (fun rest : Walk => { rest with log := (w.start s).2 ++ rest.log }) hrun

end Walk

/-- Windows of a format that takes room, in a buffer that holds one of them. -/
structure Fits (w : Windows) (format : Format) : Prop where
  parse : Format.parse w.format = .ok format
  stride : w.stride = totalSize format.items
  bounded : w.stride < sizeLimit
  pos : 0 < w.stride
  room : w.stride ≤ w.buffer.size

/-- Windows that were found are those of the buffer, and fit. -/
theorem exists_fits {text : Bytes} {buffer : View}
    (h : (unpackWindows text buffer).failure = none) :
    ∃ format, (unpackWindows text buffer).windows = ⟨buffer, text, totalSize format.items⟩ ∧
      Fits ⟨buffer, text, totalSize format.items⟩ format := by
  rw [unpackWindows, Format.ofText] at h ⊢
  cases hparse : Format.parse text with
  | error e =>
      rw [hparse] at h
      contradiction
  | ok format =>
      simp only [hparse] at h ⊢
      cases hfits : (checkCapacity format.items buffer.size).2 with
      | some failure =>
          have hcheck : checkCapacity format.items buffer.size =
              ((checkCapacity format.items buffer.size).1, some failure) := Prod.ext rfl hfits
          rw [hcheck] at h
          contradiction
      | none =>
          obtain ⟨hcheck, hroom, hlimit⟩ := checkCapacity_of_fits hfits
          simp only [hcheck] at h ⊢
          by_cases hzero : totalSize format.items = 0
          · rw [if_pos hzero] at h
            contradiction
          · rw [if_neg hzero]
            exact ⟨format, rfl, hparse, rfl, hlimit, Nat.pos_of_ne_zero hzero, hroom⟩

section Steps

variable {w : Windows} {format : Format} (h : w.Fits format)
include h

theorem lt_count_iff (k : Nat) : k < w.count ↔ (k + 1) * w.stride ≤ w.buffer.size := by
  rw [count, ← Nat.succ_le_iff, Nat.le_div_iff_mul_le h.pos]

theorem count_pos : 0 < w.count :=
  (lt_count_iff h 0).mpr (by rw [Nat.zero_add, Nat.one_mul]; exact h.room)

theorem stride_le_size_rest_iff (k : Nat) : w.stride ≤ (w.rest k).size ↔ k < w.count := by
  have hpos := h.pos
  rw [lt_count_iff h, size_rest, Nat.succ_mul]
  omega

/-- The values of a window are read from its cells. -/
theorem readSlots_rest (s : Store) {k : Nat} (hk : k < w.count) :
    readSlots format.order s (w.rest k) (slotsOf format.items) 0 =
      readSlots format.order s w.buffer (slotsOf format.items) (k * w.stride) := by
  have hroom := (lt_count_iff h k).mp hk
  rw [Nat.succ_mul] at hroom
  refine readSlots_slice _ _ _ 0 ?_ (Nat.le_refl _)
  rw [slotsWidth_slotsOf, ← h.stride]
  exact hroom

theorem unpack_rest (s : Store) {k : Nat} (hk : k < w.count) :
    unpack w.format s (w.rest k) =
      ⟨readSlots format.order s w.buffer (slotsOf format.items) (k * w.stride),
        ⟨w.stride, (w.rest k).size⟩, none, []⟩ := by
  have hroom := (stride_le_size_rest_iff h k).mpr hk
  rw [h.stride] at hroom
  rw [unpack_of_parse h.parse
    (by rw [checkCapacity_of_le hroom (h.stride ▸ h.bounded)]), readSlots_rest h s hk, h.stride]

theorem size_window {k : Nat} (hk : k < w.count) : (w.window k).size = w.stride := by
  have hroom := (lt_count_iff h k).mp hk
  rw [window, View.size_slice, Nat.min_eq_left hroom, Nat.succ_mul,
    Nat.min_eq_left (by rw [Nat.succ_mul] at hroom; omega), Nat.add_sub_cancel_left]

theorem unpack_window (s : Store) {k : Nat} (hk : k < w.count) :
    unpack w.format s (w.window k) =
      ⟨readSlots format.order s w.buffer (slotsOf format.items) (k * w.stride),
        ⟨w.stride, w.stride⟩, none, []⟩ := by
  have hroom := (lt_count_iff h k).mp hk
  have hsize := size_window h hk
  have hread := readSlots_slice format.order s (slotsOf format.items) 0
    (show k * w.stride + 0 + slotsWidth (slotsOf format.items) ≤ (k + 1) * w.stride by
      rw [slotsWidth_slotsOf, ← h.stride, Nat.succ_mul, Nat.add_zero]) hroom
  rw [unpack_of_parse h.parse (by rw [hsize, h.stride, checkCapacity_of_le (Nat.le_refl _)
    (h.stride ▸ h.bounded)]), hsize, ← h.stride]
  exact congrArg (fun values => Unpacked.mk values _ _ _) hread

/-- A cursor can be loaded at every window. -/
theorem load_rest (s : Store) {k : Nat} (hk : k < w.count) :
    w.load s (w.rest k) = (w.cursorAt s k, []) := by
  have hroom := (stride_le_size_rest_iff h k).mpr hk
  rw [h.stride] at hroom
  rw [cursorAt, if_pos hk, unpack_rest h s hk, ← readSlots_rest h s hk]
  simp only [load, h.parse, Format.readFrom_of_parse h.parse hroom]

theorem start_eq (s : Store) : w.start s = (w.cursorAt s 0, []) := by
  have hload := load_rest h s (count_pos h)
  have hpos := h.pos
  have hroom := h.room
  rw [rest_zero (by omega)] at hload
  rw [start, if_neg (by omega), hload]

/-- A step takes a cursor to the next window, as it is in the store at that
time, and leaves a cursor that is done as it is. -/
theorem next_cursorAt (s t : Store) (k : Nat) :
    w.next t (w.cursorAt s k) = (w.cursorAt t (k + 1), []) := by
  by_cases hk : k < w.count
  · rw [cursorAt, if_pos hk, next, if_neg (by simp)]
    simp only [drop_rest]
    by_cases hnext : k + 1 < w.count
    · rw [if_neg (Nat.not_lt.mpr ((stride_le_size_rest_iff h _).mpr hnext)), load_rest h t hnext]
    · have hlast : k + 1 = w.count := by omega
      rw [if_pos (Nat.not_le.mp (mt (stride_le_size_rest_iff h _).mp hnext)), cursorAt,
        if_neg hnext, hlast]
  · have hlater : ¬k + 1 < w.count := by omega
    rw [cursorAt, if_neg hk, cursorAt, if_neg hlater, next, if_pos rfl]

theorem cursorAfter_eq (s : Store) (k : Nat) : w.cursorAfter s k = w.cursorAt s k := by
  induction k with
  | zero => rw [cursorAfter, start_eq h]
  | succ k ih => rw [cursorAfter, ih, next_cursorAt h]

theorem walk_eq (s : Store) :
    w.walk s =
      ⟨(List.range w.count).map fun i => (unpack w.format s (w.window i)).values, none, []⟩ := by
  have hcount : w.count ≤ w.buffer.size + 1 :=
    Nat.le_succ_of_le (Nat.div_le_self _ _)
  have hdone (k : Nat) : (w.cursorAfter s k).done = true ↔ w.count ≤ k := by
    rw [cursorAfter_eq h, done_cursorAt]
  rw [walk_cursorAfter hdone hcount, start_eq h, Walk.mk.injEq]
  refine ⟨?_, ?_, ?_⟩
  · apply List.map_congr_left
    intro k hk
    have hlt := List.mem_range.mp hk
    rw [cursorAfter_eq h, cursorAt, if_pos hlt, unpack_window h s hlt, unpack_rest h s hlt]
  · rw [cursorAfter_eq h, fault_cursorAt]
  · simp only [cursorAfter_eq h, next_cursorAt h, List.nil_append]
    exact List.flatMap_eq_nil_iff.mpr fun _ _ => rfl

/-- What a window holds is all that its values depend on. -/
theorem values_congr {s t : Store} {k : Nat} (hk : k < w.count)
    (hbytes : t.bytes (w.buffer.slice 0 (w.count * w.stride)) =
      s.bytes (w.buffer.slice 0 (w.count * w.stride))) :
    (unpack w.format t (w.window k)).values = (unpack w.format s (w.window k)).values := by
  have hend : k * w.stride + w.stride ≤ w.count * w.stride := by
    rw [← Nat.succ_mul]
    exact Nat.mul_le_mul_right _ hk
  have hcut := congrArg (fun data => cut data (k * w.stride) w.stride) hbytes
  simp only [Store.bytes_slice, Nat.sub_zero] at hcut
  rw [cut_cut hend, cut_cut hend, Nat.zero_add] at hcut
  rw [unpack_window h t hk, unpack_window h s hk]
  apply readSlots_congr
  rw [slotsWidth_slotsOf, ← h.stride]
  exact hcut

end Steps

end Windows

/-- Walking over the windows of a buffer ends after as many steps as there are
windows, and yields of each what unpacking it alone does. Nothing else of the
buffer is read, so a walk that starts again is the same walk. -/
theorem walk_windows {text : Bytes} {buffer : View}
    (h : (unpackWindows text buffer).failure = none) (s : Store) :
    let w := (unpackWindows text buffer).windows
    let window (k : Nat) := buffer.slice (k * w.stride) ((k + 1) * w.stride)
    packedSizeOfText text = .ok w.stride ∧ 1 ≤ w.stride ∧ w.stride ≤ buffer.size ∧
      w.count = buffer.size / w.stride ∧
      (∀ k, ((w.cursorAfter s k).done = true ↔ w.count ≤ k) ∧ (w.cursorAfter s k).fault = none ∧
        (w.next s (w.cursorAfter s k)).2 = []) ∧
      (∀ k, k < w.count → (unpack text s (window k)).failure = none ∧
        (w.cursorAfter s k).values = (unpack text s (window k)).values) ∧
      w.walk s = ⟨(List.range w.count).map fun k => (unpack text s (window k)).values,
        none, []⟩ ∧
      ∀ t : Store, t.bytes (buffer.slice 0 (w.count * w.stride)) =
        s.bytes (buffer.slice 0 (w.count * w.stride)) → w.walk t = w.walk s := by
  obtain ⟨format, hw, hfits⟩ := Windows.exists_fits h
  rw [hw]
  intro w window
  have hsize : packedSizeOfText text = .ok w.stride := by
    have hpacked := (packedSize_eq_ok_iff format.items w.stride).mpr ⟨rfl, hfits.bounded⟩
    have hparse : Format.parse text = .ok format := hfits.parse
    rw [packedSizeOfText, hparse]
    exact hpacked
  refine ⟨hsize, hfits.pos, hfits.room, rfl, ?_, ?_, Windows.walk_eq hfits s, ?_⟩
  · intro k
    rw [Windows.cursorAfter_eq hfits, Windows.next_cursorAt hfits]
    exact ⟨w.done_cursorAt s k, w.fault_cursorAt s k, rfl⟩
  · intro k hk
    have hunpack := Windows.unpack_window hfits s hk
    rw [Windows.cursorAfter_eq hfits, Windows.cursorAt, if_pos hk, Windows.unpack_rest hfits s hk]
    exact ⟨congrArg Unpacked.failure hunpack, (congrArg Unpacked.values hunpack).symm⟩
  · intro t hbytes
    rw [Windows.walk_eq hfits, Windows.walk_eq hfits, Windows.Walk.mk.injEq]
    refine ⟨List.map_congr_left ?_, rfl, rfl⟩
    intro k hk
    exact Windows.values_congr hfits (List.mem_range.mp hk) hbytes

/-- Three half-words and a byte that is left over. -/
theorem walk_windows_left_over :
    let s : Store := ⟨[[0, 1, 0, 2, 0, 3, 255]]⟩
    let text := Bytes.ofChars ['>', 'h']
    (unpackWindows text ⟨0, 0, 7⟩).failure = none ∧
      ((unpackWindows text ⟨0, 0, 7⟩).windows.walk s).values = [[.int 1], [.int 2], [.int 3]] := by
  intro s text
  have hfound : (unpackWindows text ⟨0, 0, 7⟩).failure = none := by decide
  obtain ⟨_, _, _, _, _, _, hwalk, _⟩ := walk_windows hfound s
  refine ⟨hfound, (congrArg Windows.Walk.values hwalk).trans ?_⟩
  decide +kernel

end PackedRecord
