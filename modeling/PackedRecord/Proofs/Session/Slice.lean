import PackedRecord.Proofs.Session.Confined

/-!
Cuts of cuts.

A cut denotes an interval of the cells of the view it was made from, and a cut
of a cut a smaller interval of the same cells. A view is cut in words of 64 bits,
where the sum of its offset and a bound could wrap. It never does: the bound is
clamped to the size first, and a view ends below the size limit. So a chain of
cuts, however long and with whatever bounds, denotes the interval that exact
arithmetic gives, and an empty cut on the way leaves an empty one.
-/

namespace PackedRecord

namespace View

/-- A cut made in words of 64 bits. -/
def sliceWord (v : View) (start stop : UInt64) : View :=
  let first := min start (UInt64.ofNat v.size)
  let last := min stop (UInt64.ofNat v.size)
  if last ≤ first then empty
  else ⟨v.block, (UInt64.ofNat v.offset + first).toNat, (last - first).toNat⟩

/-- One cut after the other, each with its two bounds. -/
def sliceWords (v : View) (cuts : List (UInt64 × UInt64)) : View :=
  cuts.foldl (fun w bounds => w.sliceWord bounds.1 bounds.2) v

/-- What a cut leaves of an interval of indices. The bounds count from its beginning. -/
def narrow (interval : Nat × Nat) (bounds : UInt64 × UInt64) : Nat × Nat :=
  (min (interval.1 + bounds.1.toNat) interval.2, min (interval.1 + bounds.2.toNat) interval.2)

/-- The cells of the view are those of another at the indices of an interval. -/
structure Denotes (w v : View) (first last : Nat) : Prop where
  size : w.size = last - first
  cell : ∀ k < w.size, w.cell k = v.cell (first + k)

theorem denotes_self (v : View) : v.Denotes v 0 v.size :=
  ⟨rfl, fun k _ => by rw [Nat.zero_add]⟩

theorem denotes_slice (v : View) (start stop : Nat) :
    (v.slice start stop).Denotes v start (min stop v.size) := by
  have hsize := v.size_slice start stop
  refine ⟨by omega, ?_⟩
  intro k hk
  rw [slice, if_neg (by omega), Nat.min_eq_left (by omega), cell, cell, Nat.add_assoc]

section Denotes

variable {w v : View} {first last : Nat} (h : w.Denotes v first last)
include h

/-- A cut of an interval denotes what the cut leaves of it. -/
theorem Denotes.slice (start stop : UInt64) :
    (w.slice start.toNat stop.toNat).Denotes v (narrow (first, last) (start, stop)).1
      (narrow (first, last) (start, stop)).2 := by
  have hcut := w.denotes_slice start.toNat stop.toNat
  have hw := h.size
  have hsize := hcut.size
  simp only [narrow]
  refine ⟨by omega, ?_⟩
  intro k hk
  rw [hcut.cell k hk, h.cell (start.toNat + k) (by omega), Nat.min_eq_left (by omega),
    Nat.add_assoc]

theorem Denotes.getElem?_bytes (hlast : last ≤ v.size) (s : Store) (k : Nat) :
    (s.bytes w)[k]? = if k < last - first then (s.bytes v)[first + k]? else none := by
  have hw := h.size
  split
  case isTrue hk =>
    rw [Store.getElem?_bytes s (by omega), Store.getElem?_bytes s (by omega), h.cell k (by omega)]
  case isFalse hk => rw [Store.bytes_eq_cut, getElem?_cut, if_neg (by omega)]

end Denotes

section Words

variable {v : View} (h : v.offset + v.size < sizeLimit)
include h

theorem toNat_clamped (bound : UInt64) :
    (min bound (UInt64.ofNat v.size)).toNat = min bound.toNat v.size := by
  have hsize : (UInt64.ofNat v.size).toNat = v.size :=
    UInt64.toNat_ofNat_of_lt' (Nat.lt_of_le_of_lt (Nat.le_add_left _ _) h)
  rw [UInt64.toNat_min, hsize]

/-- The place where a cut begins does not wrap. -/
theorem toNat_offset_add (start : UInt64) :
    (UInt64.ofNat v.offset + min start (UInt64.ofNat v.size)).toNat =
      v.offset + min start.toNat v.size := by
  have hoffset : (UInt64.ofNat v.offset).toNat = v.offset :=
    UInt64.toNat_ofNat_of_lt' (Nat.lt_of_le_of_lt (Nat.le_add_right _ _) h)
  rw [UInt64.toNat_add, hoffset, toNat_clamped h]
  exact Nat.mod_eq_of_lt (Nat.lt_of_le_of_lt (by omega) h)

theorem sliceWord_eq (start stop : UInt64) :
    v.sliceWord start stop = v.slice start.toNat stop.toNat := by
  have hlast := toNat_clamped h stop
  have hfirst := toNat_clamped h start
  simp only [sliceWord, slice, UInt64.le_iff_toNat_le, hfirst, hlast]
  split
  case isTrue => rfl
  case isFalse hlt =>
    have hle : min start (UInt64.ofNat v.size) ≤ min stop (UInt64.ofNat v.size) := by
      rw [UInt64.le_iff_toNat_le, hfirst, hlast]
      omega
    rw [toNat_offset_add h, UInt64.toNat_sub_of_le _ _ hle, hfirst, hlast]

end Words

end View

theorem Store.Holds.limit {s : Store} {v : View} (h : s.Holds v) :
    v.offset + v.size < sizeLimit := by
  cases h with
  | nowhere => exact Nat.zero_lt_succ _
  | stored h => exact h.limit

/-- A chain of cuts denotes what they leave of the interval of the first view. All views on the
way hold, so words are exact for each cut. -/
theorem View.Denotes.sliceWords {s : Store} {w v : View} (hw : s.Holds w) {first last : Nat}
    (h : w.Denotes v first last) (hlast : last ≤ v.size) (cuts : List (UInt64 × UInt64)) :
    let interval := cuts.foldl narrow (first, last)
    (w.sliceWords cuts).Denotes v interval.1 interval.2 ∧ interval.2 ≤ v.size ∧
      s.Holds (w.sliceWords cuts) := by
  induction cuts generalizing w first last with
  | nil => exact ⟨h, hlast, hw⟩
  | cons bounds cuts ih =>
      have hcut := h.slice bounds.1 bounds.2
      have hholds := hw.slice bounds.1.toNat bounds.2.toNat
      rw [← sliceWord_eq hw.limit] at hcut hholds
      exact ih hholds hcut (Nat.le_trans (Nat.min_le_right _ _) hlast)

namespace Session

/-- Cuts of any live view, with any bounds. A cut shows the bytes between its two bounds, each
clamped to the size. A cut of a cut has the cells between its bounds moved to where the outer
cut begins, as far as the outer cut and the view go; and whatever the cuts, a
chain of them denotes one interval of cells of the view. It lies within the storage, and the sum by
which the next cut finds its beginning is exact. -/
theorem slice_intervals (actions : List Action) (i : Nat) :
    let σ := run actions
    let v := σ.view i
    (σ.store.bytes v).length = v.size ∧
      (∀ a b : UInt64,
        σ.step (.slice i a b) = σ.keep [v.sliceWord a b] ∧
          ∀ k, (σ.store.bytes (v.sliceWord a b))[k]? =
            if k < min b.toNat v.size - min a.toNat v.size then
              (σ.store.bytes v)[min a.toNat v.size + k]? else none) ∧
      (∀ a b c d : UInt64,
        ((v.sliceWord a b).sliceWord c d).Denotes v (min a.toNat v.size + c.toNat)
          (min (min (min a.toNat v.size + d.toNat) b.toNat) v.size)) ∧
      ∀ cuts,
        let w := v.sliceWords cuts
        let interval := cuts.foldl View.narrow (0, v.size)
        w.Denotes v interval.1 interval.2 ∧ interval.2 ≤ v.size ∧ σ.store.Holds w ∧
          ∀ start : UInt64, (UInt64.ofNat w.offset + min start (UInt64.ofNat w.size)).toNat =
            w.offset + min start.toNat w.size := by
  intro σ v
  have hv : σ.store.Holds v := (sound_run actions).view i
  refine ⟨Store.length_bytes hv.valid, ?_, ?_, ?_⟩
  · intro a b
    have hcut := v.denotes_self.slice a b
    simp only [View.narrow, Nat.zero_add] at hcut
    rw [View.sliceWord_eq hv.limit]
    exact ⟨rfl, hcut.getElem?_bytes (Nat.min_le_right _ _) σ.store⟩
  · intro a b c d
    rw [View.sliceWord_eq hv.limit, View.sliceWord_eq (hv.slice _ _).limit, View.slice_slice]
    exact v.denotes_slice _ _
  · intro cuts w interval
    obtain ⟨hdenotes, hlast, hw⟩ := v.denotes_self.sliceWords hv (Nat.le_refl _) cuts
    exact ⟨hdenotes, hlast, hw, View.toNat_offset_add hw.limit⟩

/-- Cuts of the last four of six bytes, without an end, past the end, and with the bounds in the
wrong order. -/
theorem slice_intervals_without_end :
    let σ := run [.make [10, 11, 12, 13, 14, 15] (by decide), .slice 0 2 0xFFFFFFFFFFFFFFFF]
    let v := σ.view 1
    let inner := (v.sliceWord 1 0xFFFFFFFFFFFFFFFF).sliceWord 1 0xFFFFFFFFFFFFFFFF
    (σ.store.bytes (v.sliceWord 1 3))[1]? = some 14 ∧
      inner.size = 2 ∧ inner.cell 0 = (0, 4) ∧
      (v.sliceWords [(1, 9), (0xFFFFFFFFFFFFFFFF, 2), (0, 9)]).size = 0 := by
  intro σ v inner
  obtain ⟨-, hbytes, hinner, hchain⟩ :=
    slice_intervals [.make [10, 11, 12, 13, 14, 15] (by decide), .slice 0 2 0xFFFFFFFFFFFFFFFF] 1
  obtain ⟨hsize, hcell⟩ := hinner 1 0xFFFFFFFFFFFFFFFF 1 0xFFFFFFFFFFFFFFFF
  have htwo : inner.size = 2 := hsize.trans (by decide)
  refine ⟨((hbytes 1 3).2 1).trans (by decide), htwo, ?_, ?_⟩
  · exact (hcell 0 (by rw [hsize]; decide)).trans (by decide)
  · exact (hchain [(1, 9), (0xFFFFFFFFFFFFFFFF, 2), (0, 9)]).1.size.trans (by decide)

end Session

end PackedRecord
