import PackedRecord.Proofs.Session.Confined
import PackedRecord.Proofs.Store.Word

/-!
Copies between views.

A copy moves as many bytes as the source has between its bounds and the target
has room for. It is one patch of the target with a cut of what the source showed
before, so it makes no difference whether the two views share cells: the target
shows the bytes that were there to be copied, and no other cell changes.
-/

namespace PackedRecord

/-- The number of bytes that a copy moves, by the sizes of the two views. -/
def copyCount (sourceSize targetSize targetStart sourceStart sourceStop : Nat) : Nat :=
  if min sourceStop sourceSize ≤ sourceStart ∨ targetSize ≤ targetStart then 0
  else min (min sourceStop sourceSize - sourceStart) (targetSize - targetStart)

theorem copyCount_eq (sourceSize targetSize targetStart sourceStart sourceStop : Nat) :
    copyCount sourceSize targetSize targetStart sourceStart sourceStop =
      min (min sourceStop sourceSize - sourceStart) (targetSize - targetStart) := by
  rw [copyCount]
  split
  case isTrue h => omega
  case isFalse => rfl

namespace Store

section Copy

variable (s : Store) (source target : View) (targetStart sourceStart sourceStop : Nat)

/-- What a cut shows as far as there is room for it. -/
theorem take_bytes_slice (room : Nat) :
    (s.bytes (source.slice sourceStart sourceStop)).take room =
      cut (s.bytes source) sourceStart (min (min sourceStop source.size - sourceStart) room) := by
  have hshown := s.length_bytes_le source
  apply List.ext_getElem?
  intro k
  rw [List.getElem?_take, bytes_slice, getElem?_cut, getElem?_cut]
  by_cases hk : sourceStart + k < source.size
  · by_cases hroom : k < min (min sourceStop source.size - sourceStart) room
    · rw [if_pos hroom, if_pos (by omega), if_pos (by omega)]
    · rw [if_neg hroom]
      split
      · rw [if_neg (by omega)]
      · rfl
  · have hnone : (s.bytes source)[sourceStart + k]? = none := List.getElem?_eq_none (by omega)
    simp only [hnone, ite_self]

/-- A copy is a patch of the target with what the source showed. -/
theorem copy_eq_patch :
    let n := copyCount source.size target.size targetStart sourceStart sourceStop
    s.copy source target targetStart sourceStart sourceStop =
      (s.patch target.block (target.offset + targetStart) (cut (s.bytes source) sourceStart n),
        n) := by
  intro n
  have hn : n = min (min sourceStop source.size - sourceStart) (target.size - targetStart) :=
    copyCount_eq ..
  have hcount : min (source.slice sourceStart sourceStop).size (target.drop targetStart).size =
      n := by
    rw [View.size_slice, View.size_drop]
    omega
  rw [copy, hcount, Prod.mk.injEq]
  refine ⟨?_, rfl⟩
  by_cases hroom : targetStart < target.size
  · rw [View.drop, View.slice_of_lt hroom (Nat.le_refl _), hn, ← take_bytes_slice]
    rfl
  · -- The two patches are of different blocks here, so it takes that both are empty.
    have hzero : n = 0 := by omega
    rw [View.drop, View.slice_of_le (Nat.le_of_not_lt hroom), hzero, cut_zero, patch_nil]
    exact s.patch_nil _ _

end Copy

section Copied

variable {s : Store} {source target : View} {targetStart sourceStart sourceStop n : Nat}
  (hsource : s.Valid source) (htarget : s.Valid target)
  (hn : n = copyCount source.size target.size targetStart sourceStart sourceStop)
include hn

theorem copyCount_within (hpos : 0 < n) :
    sourceStart + n ≤ source.size ∧ targetStart + n ≤ target.size := by
  rw [copyCount_eq] at hn
  omega

include hsource

theorem length_copied : (cut (s.bytes source) sourceStart n).length = n := by
  rcases Nat.eq_zero_or_pos n with rfl | hpos
  · rfl
  · apply length_cut
    rw [length_bytes hsource]
    exact (copyCount_within hn hpos).1

theorem confined_copied :
    s.Confined
      (s.patch target.block (target.offset + targetStart) (cut (s.bytes source) sourceStart n))
      (target.slice targetStart (targetStart + n)) := by
  rcases Nat.eq_zero_or_pos n with rfl | hpos
  · rw [cut_zero, patch_nil]
    exact .refl s _
  · have hlength := length_copied hsource hn
    have hroom := (copyCount_within hn hpos).2
    rw [← hlength] at hroom
    have hpatch := s.confined_patch target hroom
    rwa [hlength] at hpatch

include htarget

/-- The target has each byte that the source had, whatever cells they share. -/
theorem getElem?_copied {k : Nat} (hk : k < n) :
    ∃ b, (s.bytes source)[sourceStart + k]? = some b ∧
      ((s.patch target.block (target.offset + targetStart)
        (cut (s.bytes source) sourceStart n)).bytes target)[targetStart + k]? = some b := by
  obtain ⟨hfrom, hto⟩ := copyCount_within hn (Nat.zero_lt_of_lt hk)
  have hthere : sourceStart + k < (s.bytes source).length := by
    rw [length_bytes hsource]
    omega
  have hcut := cut_bytes_patch htarget (length_copied hsource hn) hto
  have hbyte := congrArg (fun bs : Bytes => bs[k]?) hcut
  simp only [getElem?_cut, if_pos hk] at hbyte
  have hread := List.getElem?_eq_getElem hthere
  exact ⟨_, hread, hbyte.trans hread⟩

end Copied

end Store

namespace Session

/-- The session after a copy from one live view to another, and the number of bytes copied. -/
def copy (σ : Session) (i j : Nat) (targetStart sourceStart sourceStop : UInt64) : Session × Nat :=
  (σ.step (.change j (.copy i targetStart sourceStart sourceStop)),
    (σ.store.copy (σ.view i) (σ.view j) targetStart.toNat sourceStart.toNat sourceStop.toNat).2)

/-- A copy between any two live views, also of the same storage. It moves as many bytes as lie
between the bounds of the source and fit into the target, and leaves in the target what the
source showed before; every other cell is as it was. -/
theorem copy_snapshot (actions : List Action) (i j : Nat)
    (targetStart sourceStart sourceStop : UInt64) :
    let σ := run actions
    let source := σ.view i
    let target := σ.view j
    let stop := min sourceStop.toNat source.size
    let τ := (σ.copy i j targetStart sourceStart sourceStop).1
    let n := (σ.copy i j targetStart sourceStart sourceStop).2
    (n = if stop ≤ sourceStart.toNat ∨ target.size ≤ targetStart.toNat then 0
        else min (stop - sourceStart.toNat) (target.size - targetStart.toNat)) ∧
      (∀ k < n, ∃ b, (σ.store.bytes source)[sourceStart.toNat + k]? = some b ∧
        (τ.store.bytes target)[targetStart.toNat + k]? = some b) ∧
      σ.store.Confined τ.store (target.slice targetStart.toNat (targetStart.toNat + n)) ∧
      τ = { σ with store := τ.store } := by
  intro σ source target stop τ n
  have hσ : σ.Sound := sound_run actions
  have hsource : σ.store.Valid source := (hσ.view i).valid
  have htarget : σ.store.Valid target := (hσ.view j).valid
  have hcopy := σ.store.copy_eq_patch source target targetStart.toNat sourceStart.toNat
    sourceStop.toNat
  have hn : n = copyCount source.size target.size targetStart.toNat sourceStart.toNat
      sourceStop.toNat := congrArg Prod.snd hcopy
  have hstore : τ.store = σ.store.patch target.block (target.offset + targetStart.toNat)
      (cut (σ.store.bytes source) sourceStart.toNat n) := by
    rw [hn]
    exact congrArg Prod.fst hcopy
  rw [hstore]
  refine ⟨hn, ?_, Store.confined_copied hsource hn, ?_⟩
  · intro k hk
    exact Store.getElem?_copied hsource htarget hn hk
  · rw [← hstore]
    rfl

/-- Bytes moved two places up within one buffer, where a move from the first byte on would read
what it has written, and a copy with its bounds in the wrong order. -/
theorem copy_snapshot_overlapping :
    let σ := run [.make [10, 11, 12, 13, 14, 15] (by decide), .slice 0 2 0xFFFFFFFFFFFFFFFF]
    let up := σ.copy 0 1 0 0 0xFFFFFFFFFFFFFFFF
    let none := σ.copy 0 1 0 4 2
    up.2 = 4 ∧ (up.1.store.bytes (σ.view 1))[3]? = some 13 ∧
      (up.1.store.block 0)[1]? = some 11 ∧ none.2 = 0 := by
  intro σ up none
  obtain ⟨hcount, hbytes, hconfined, -⟩ :=
    copy_snapshot [.make [10, 11, 12, 13, 14, 15] (by decide), .slice 0 2 0xFFFFFFFFFFFFFFFF]
      0 1 0 0 0xFFFFFFFFFFFFFFFF
  have hfour : up.2 = 4 := hcount.trans (by decide)
  obtain ⟨b, hread, hwritten⟩ := hbytes 3 (by decide)
  refine ⟨hfour, hwritten.trans (hread.symm.trans (by decide)), ?_, ?_⟩
  · exact (hconfined.outside 0 1 (by decide)).trans (by decide)
  · exact (copy_snapshot [.make [10, 11, 12, 13, 14, 15] (by decide),
      .slice 0 2 0xFFFFFFFFFFFFFFFF] 0 1 0 4 2).1.trans (by decide)

end Session

end PackedRecord
