import PackedRecord.Proofs.Record.Windows

/-!
Windows of any stride.

A record is read at the beginning of each window and may reach beyond it. Then windows
at the end of the buffer leave no room for a record, and the first of them ends the
walk with a fault. Where the record is no longer than the stride, the buffer ends first.
-/

namespace PackedRecord

section Short

variable (order : ByteOrder) (s : Store) {source : View}

namespace Item

theorem unpackScalars_of_short (scalar : Scalar) (count : Nat) {offset : Nat}
    (hoffset : offset ≤ source.size) (hshort : source.size < offset + count * scalar.width) :
    (unpackScalars scalar order s source count offset).fault = some (.core .outOfRange) := by
  induction count generalizing offset with
  | zero => omega
  | succ count ih =>
      rw [unpackScalars]
      cases hfield : source.field? offset scalar.width with
      | none => rfl
      | some field =>
          obtain ⟨-, hroom⟩ := View.eq_slice_of_field hfield
          rw [Nat.succ_mul] at hshort
          exact ih hroom (by omega)

/-- An item that begins within the source and ends beyond it cannot be read. -/
theorem unpack_of_short {item : Item} (hknown : item.kind?.isSome) {offset : Nat}
    (hoffset : offset ≤ source.size) (hshort : source.size < offset + item.size) :
    (item.unpack order s source offset).fault = some (.core .outOfRange) := by
  obtain ⟨code, hkind⟩ := Option.isSome_iff_exists.mp hknown
  rw [size_of_kind hkind] at hshort
  simp only [unpack, hkind]
  cases code with
  | scalar scalar => exact unpackScalars_of_short order s scalar item.count hoffset hshort
  | pad | string | counted =>
      rw [Code.width, Nat.mul_one] at hshort
      simp only [unpackField, (View.field?_eq_none_iff _ _ _).mpr hshort]

end Item

/-- Items that do not all lie within the source are read as far as they do. -/
theorem unpackItems_of_short {items : List Item} (hknown : ∀ item ∈ items, item.kind?.isSome)
    {offset : Nat} (hoffset : offset ≤ source.size)
    (hshort : source.size < offset + totalSize items) :
    ∃ item, (unpackItems order s source items offset).2 =
      some (.itemFailed item (.core .outOfRange)) := by
  induction items generalizing offset with
  | nil =>
      rw [totalSize_nil] at hshort
      omega
  | cons item items ih =>
      rw [totalSize_cons] at hshort
      obtain ⟨hitem, hitems⟩ := List.forall_mem_cons.mp hknown
      by_cases hfit : offset + item.size ≤ source.size
      · have hread := item.unpack_read order s source hitem hfit
        obtain ⟨failed, hfailed⟩ := ih hitems hfit (by omega)
        refine ⟨failed, ?_⟩
        simp only [unpackItems, hread, hfailed]
      · have hfault := item.unpack_of_short order s hitem hoffset (Nat.not_le.mp hfit)
        refine ⟨item, ?_⟩
        simp only [unpackItems, hfault]
        rfl

end Short

theorem Format.readFrom_of_short {text : Bytes} {format : Format} {source : View}
    (hparse : parse text = .ok format) (hshort : source.size < totalSize format.items)
    (s : Store) :
    ∃ item values,
      format.readFrom s source = (values, some (.itemFailed item (.core .outOfRange))) := by
  obtain ⟨item, hitem⟩ := unpackItems_of_short format.order s (isSome_kind?_of_parse hparse)
    (Nat.zero_le _) (by rw [Nat.zero_add]; exact hshort)
  exact ⟨item, _, Prod.ext rfl hitem⟩

namespace Windows

/-- The number of windows at which the buffer has room for both the stride and a record. -/
def roomFor (w : Windows) (required : Nat) : Nat :=
  if w.buffer.size < max w.stride required then 0
  else (w.buffer.size - max w.stride required) / w.stride + 1

theorem lt_roomFor_iff {w : Windows} (hpos : 0 < w.stride) (required k : Nat) :
    k < w.roomFor required ↔ k * w.stride + max w.stride required ≤ w.buffer.size := by
  rw [roomFor]
  split
  case isTrue hshort => omega
  case isFalse hroom =>
    rw [Nat.lt_succ_iff, Nat.le_div_iff_mul_le hpos]
    omega

/-- A walk stands at each of a number of windows in turn, and then ends, perhaps with a fault. -/
structure Yields (w : Windows) (s : Store) (n : Nat) (fault : Option Fault) : Prop where
  readable : ∀ k < n, (unpack w.format s (w.rest k)).failure = none
  live : ∀ k < n, w.cursorAfter s k =
    ⟨w.rest k, (unpack w.format s (w.rest k)).values, none, false⟩
  ended : ∃ rest, w.cursorAfter s n = ⟨rest, [], fault, true⟩

namespace Yields

variable {w : Windows} {s : Store} {n : Nat} {fault : Option Fault} (h : w.Yields s n fault)
include h

/-- Further steps change nothing. -/
theorem cursorAfter_of_le {k : Nat} (hk : n ≤ k) : w.cursorAfter s k = w.cursorAfter s n := by
  obtain ⟨rest, hend⟩ := h.ended
  induction k, hk using Nat.le_induction with
  | base => rfl
  | succ k hk ih =>
      rw [cursorAfter, ih, hend, next, if_pos rfl]

theorem done_iff (k : Nat) : (w.cursorAfter s k).done = true ↔ n ≤ k := by
  obtain ⟨rest, hend⟩ := h.ended
  rcases Nat.lt_or_ge k n with hlt | hge
  · simp [h.live k hlt, hlt]
  · simp [h.cursorAfter_of_le hge, hend, hge]

theorem walk_eq (hn : n ≤ w.buffer.size + 1) :
    (w.walk s).values = (List.range n).map (fun k => (unpack w.format s (w.rest k)).values) ∧
      (w.walk s).fault = fault := by
  obtain ⟨rest, hend⟩ := h.ended
  rw [walk_cursorAfter h.done_iff hn]
  refine ⟨?_, by rw [hend]⟩
  apply List.map_congr_left
  intro k hk
  rw [h.live k (List.mem_range.mp hk)]

theorem cursorAfter_cases (k : Nat) :
    let c := w.cursorAfter s k
    let unpacked := unpack w.format s (w.rest k)
    (c.done = true ↔ n ≤ k) ∧
      (k < n → unpacked.failure = none ∧ c.values = unpacked.values ∧ c.fault = none) ∧
      (n ≤ k → c.values = [] ∧ c.fault = fault ∧ ∀ t, w.next t c = (c, [])) := by
  intro c unpacked
  refine ⟨h.done_iff k, ?_, ?_⟩
  · intro hk
    have hlive : c = _ := h.live k hk
    rw [hlive]
    exact ⟨h.readable k hk, rfl, rfl⟩
  · intro hk
    obtain ⟨rest, hend⟩ := h.ended
    have hlast : c = ⟨rest, [], fault, true⟩ := (h.cursorAfter_of_le hk).trans hend
    rw [hlast]
    exact ⟨rfl, rfl, fun _ => rfl⟩

end Yields

/-- Windows in a buffer that begins with one, at each of which a format can be read. -/
structure Opens (w : Windows) (format : Format) : Prop where
  parse : Format.parse w.format = .ok format
  pos : 0 < w.stride
  room : w.stride ≤ w.buffer.size
  bounded : w.buffer.size < sizeLimit

/-- The cursor that arrives at a place of a walk. -/
def arrive (w : Windows) (s : Store) (k : Nat) : Cursor :=
  if (w.rest k).size < w.stride then ⟨w.rest k, [], none, true⟩ else (w.load s (w.rest k)).1

section Opens

variable {w : Windows} {format : Format} (h : w.Opens format) (s : Store)
include h

theorem room_rest {k : Nat} (hk : k < w.roomFor (totalSize format.items)) :
    w.stride ≤ (w.rest k).size ∧ totalSize format.items ≤ (w.rest k).size := by
  have hroom := (lt_roomFor_iff h.pos _ _).mp hk
  rw [size_rest]
  omega

theorem unpack_rest_of_room {k : Nat} (hk : k < w.roomFor (totalSize format.items)) :
    unpack w.format s (w.rest k) =
      ⟨(format.readFrom s (w.rest k)).1, ⟨totalSize format.items, (w.rest k).size⟩, none, []⟩ := by
  obtain ⟨-, hroom⟩ := room_rest h hk
  have hsize := w.size_rest k
  have hbounded := h.bounded
  rw [unpack_of_parse h.parse (by rw [checkCapacity_of_le hroom (by omega)]),
    Format.readFrom_of_parse h.parse hroom]

theorem arrive_of_room {k : Nat} (hk : k < w.roomFor (totalSize format.items)) :
    w.arrive s k = ⟨w.rest k, (unpack w.format s (w.rest k)).values, none, false⟩ := by
  obtain ⟨hstride, hroom⟩ := room_rest h hk
  rw [arrive, if_neg (Nat.not_lt.mpr hstride), unpack_rest_of_room h s hk]
  simp only [load, h.parse, Format.readFrom_of_parse h.parse hroom]

theorem arrive_of_short {k : Nat} (hk : w.roomFor (totalSize format.items) ≤ k) :
    w.arrive s k = ⟨w.rest k, [],
      if (k + 1) * w.stride ≤ w.buffer.size then some (.core .outOfRange) else none, true⟩ := by
  have hshort := mt (lt_roomFor_iff h.pos _ _).mpr (Nat.not_lt.mpr hk)
  have hsize := w.size_rest k
  have hpos := h.pos
  rw [arrive, Nat.succ_mul]
  by_cases hend : (w.rest k).size < w.stride
  · rw [if_pos hend, if_neg (by omega)]
  · obtain ⟨item, values, hread⟩ := Format.readFrom_of_short h.parse
      (show (w.rest k).size < totalSize format.items by omega) s
    rw [if_neg hend, if_pos (by omega)]
    simp only [load, h.parse, hread]
    rfl

/-- Up to the end of a walk, its cursor is at each place the one that arrives there. -/
theorem cursorAfter_eq_arrive {k : Nat} (hk : k ≤ w.roomFor (totalSize format.items)) :
    w.cursorAfter s k = w.arrive s k := by
  have hpos := h.pos
  have hroom := h.room
  induction k with
  | zero =>
      rw [cursorAfter, start, if_neg (by omega), arrive, rest_zero (by omega), if_neg (by omega)]
  | succ k ih =>
      rw [cursorAfter, ih (by omega), arrive_of_room h s (by omega), next, if_neg (by simp), arrive,
        drop_rest]
      simp only [apply_ite Prod.fst]

theorem yields_of_opens :
    let n := w.roomFor (totalSize format.items)
    w.Yields s n
      (if (n + 1) * w.stride ≤ w.buffer.size then some (.core .outOfRange) else none) := by
  refine ⟨?_, ?_, w.rest (w.roomFor (totalSize format.items)), ?_⟩
  · intro k hk
    rw [unpack_rest_of_room h s hk]
  · intro k hk
    rw [cursorAfter_eq_arrive h s (Nat.le_of_lt hk), arrive_of_room h s hk]
  · rw [cursorAfter_eq_arrive h s (Nat.le_refl _), arrive_of_short h s (Nat.le_refl _)]

/-- There are no more windows than cells. -/
theorem roomFor_le : w.roomFor (totalSize format.items) ≤ w.buffer.size := by
  by_contra hmore
  have hroom := (lt_roomFor_iff h.pos _ _).mp (Nat.not_le.mp hmore)
  have hpos := h.pos
  have hle := Nat.le_mul_of_pos_right w.buffer.size hpos
  omega

end Opens

theorem yields_of_empty {w : Windows} (h : w.stride = 0 ∨ w.buffer.size < w.stride) (s : Store) :
    w.Yields s 0 none :=
  ⟨fun _ hk => absurd hk (Nat.not_lt_zero _), fun _ hk => absurd hk (Nat.not_lt_zero _), w.buffer,
    by rw [cursorAfter, start, if_pos h]⟩

theorem yields_of_unreadable {w : Windows} {e : FormatError} (hpos : 0 < w.stride)
    (hroom : w.stride ≤ w.buffer.size) (hparse : Format.parse w.format = .error e) (s : Store) :
    w.Yields s 0 (some (.pack .invalidFormat)) := by
  refine ⟨fun _ hk => absurd hk (Nat.not_lt_zero _), fun _ hk => absurd hk (Nat.not_lt_zero _),
    w.buffer, ?_⟩
  rw [cursorAfter, start, if_neg (by omega)]
  simp only [load, hparse]

end Windows

/-- Windows of any stride over any buffer that sizes can describe: how many of them a walk
yields, what it yields of each, and the fault that it ends with. -/
theorem walk_strides (w : Windows) (hbounded : w.buffer.size < sizeLimit) (s : Store) :
    ∃ n fault,
      (w.stride = 0 ∨ w.buffer.size < w.stride → n = 0 ∧ fault = none) ∧
      (0 < w.stride → w.stride ≤ w.buffer.size →
        match Format.parse w.format with
        | .error _ => n = 0 ∧ fault = some (.pack .invalidFormat)
        | .ok format =>
            (∀ k, k < n ↔
              k * w.stride + max w.stride (totalSize format.items) ≤ w.buffer.size) ∧
            (fault = if (n + 1) * w.stride ≤ w.buffer.size then some (.core .outOfRange)
              else none) ∧
            (fault ≠ none → w.stride < totalSize format.items)) ∧
      (w.walk s).fault = fault ∧
      (w.walk s).values = (List.range n).map (fun k =>
        (unpack w.format s (w.buffer.drop (k * w.stride))).values) ∧
      ∀ k,
        let c := w.cursorAfter s k
        let unpacked := unpack w.format s (w.buffer.drop (k * w.stride))
        (c.done = true ↔ n ≤ k) ∧
          (k < n → unpacked.failure = none ∧ c.values = unpacked.values ∧ c.fault = none) ∧
          (n ≤ k → c.values = [] ∧ c.fault = fault ∧ ∀ t, w.next t c = (c, [])) := by
  by_cases hstart : w.stride = 0 ∨ w.buffer.size < w.stride
  · have hyields := Windows.yields_of_empty hstart s
    obtain ⟨hvalues, hfault⟩ := hyields.walk_eq (Nat.zero_le _)
    exact ⟨0, none, fun _ => ⟨rfl, rfl⟩, by omega, hfault, hvalues, hyields.cursorAfter_cases⟩
  · have hpos : 0 < w.stride := by omega
    have hroom : w.stride ≤ w.buffer.size := by omega
    cases hparse : Format.parse w.format with
    | error e =>
        have hyields := Windows.yields_of_unreadable hpos hroom hparse s
        obtain ⟨hvalues, hfault⟩ := hyields.walk_eq (Nat.zero_le _)
        exact ⟨0, _, fun h => absurd h hstart, fun _ _ => ⟨rfl, rfl⟩, hfault, hvalues,
          hyields.cursorAfter_cases⟩
    | ok format =>
        have hopens : w.Opens format := ⟨hparse, hpos, hroom, hbounded⟩
        have hyields := Windows.yields_of_opens hopens s
        have hlast := mt (Windows.lt_roomFor_iff hpos (totalSize format.items) _).mpr
          (Nat.lt_irrefl (w.roomFor (totalSize format.items)))
        obtain ⟨hvalues, hfault⟩ := hyields.walk_eq (Nat.le_succ_of_le (Windows.roomFor_le hopens))
        refine ⟨_, _, fun h => absurd h hstart, fun _ _ => ⟨Windows.lt_roomFor_iff hpos _, rfl, ?_⟩,
          hfault, hvalues, hyields.cursorAfter_cases⟩
        -- a whole stride is left, so what there is no room for is the record
        intro hsome
        rw [Nat.succ_mul] at hsome
        have hmore : w.roomFor (totalSize format.items) * w.stride + w.stride ≤ w.buffer.size := by
          by_contra hless
          exact hsome (if_neg hless)
        omega

/-- Words of four bytes at every second byte of five: the second begins with a whole stride
but ends beyond the buffer. -/
theorem walk_strides_overlapping :
    let s : Store := ⟨[[1, 0, 0, 0, 2]]⟩
    let w : Windows := ⟨⟨0, 0, 5⟩, Bytes.ofChars ['<', 'i'], 2⟩
    w.buffer.size < sizeLimit ∧ (w.walk s).values = [[.int 1]] ∧
      (w.walk s).fault = some (.core .outOfRange) := by
  intro s w
  have hbounded : w.buffer.size < sizeLimit := by decide
  obtain ⟨n, fault, -, hopens, hfault, hvalues, -⟩ := walk_strides w hbounded s
  have hparse : Format.parse w.format = .ok ⟨.little, [⟨1, 'i'.toUInt8⟩]⟩ := by decide
  have hcases := hopens (by decide) (by decide)
  rw [hparse] at hcases
  obtain ⟨hcount, hend, -⟩ := hcases
  have hfirst := (hcount 0).mpr (by decide)
  have hsecond := mt (hcount 1).mp (by decide)
  obtain rfl : n = 1 := by omega
  refine ⟨hbounded, hvalues.trans ?_, (hfault.trans hend).trans (if_pos (by decide))⟩
  decide +kernel

end PackedRecord
