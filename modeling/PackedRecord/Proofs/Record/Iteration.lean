import PackedRecord.Proofs.Field.Live
import PackedRecord.Proofs.Record.Windows

/-!
Walks that are interleaved with writes.

Any number of cursors walk over the same windows, each at its own pace, while
the store is written to in between. Where a cursor stands and when it is done
depends on its steps alone. What it holds is what unpacking gave when it
arrived: numbers stay as they are, texts show what their fields hold now.
-/

namespace PackedRecord

namespace Windows

/-- What happens while windows are walked over: a write through some view, a
new cursor at the first window, or a step of one of the cursors. -/
inductive Action where
  | write (v : View) (data : Bytes)
  | start
  | step (i : Nat)
  deriving DecidableEq, Repr

/-- A cursor on its way, with the number of its steps and the store in which it
took the last of them. -/
structure Visit where
  cursor : Cursor
  steps : Nat
  arrival : Store
  deriving DecidableEq, Repr

structure Iteration where
  store : Store
  visits : List Visit
  log : List LogEntry
  deriving DecidableEq, Repr

def Visit.next (w : Windows) (s : Store) (visit : Visit) : Visit :=
  ⟨(w.next s visit.cursor).1, visit.steps + 1, s⟩

def act (w : Windows) (it : Iteration) : Action → Iteration
  | .write v data => { it with store := it.store.write v data }
  | .start =>
      let (cursor, log) := w.start it.store
      { it with visits := it.visits ++ [⟨cursor, 0, it.store⟩], log := it.log ++ log }
  | .step i =>
      let log := it.visits[i]?.elim [] fun visit => (w.next it.store visit.cursor).2
      { it with visits := it.visits.modify i (Visit.next w it.store), log := it.log ++ log }

def run (w : Windows) (s : Store) (actions : List Action) : Iteration :=
  actions.foldl w.act ⟨s, [], []⟩

/-- The cursor stands where its steps have brought it. -/
def Visit.OnTrack (w : Windows) (visit : Visit) : Prop :=
  visit.arrival.Valid w.buffer ∧ visit.cursor = w.cursorAt visit.arrival visit.steps

structure Iteration.OnTrack (w : Windows) (it : Iteration) : Prop where
  valid : it.store.Valid w.buffer
  visits : ∀ visit ∈ it.visits, visit.OnTrack w
  quiet : it.log = []

section Runs

variable {w : Windows} {format : Format} (h : w.Fits format)
include h

theorem onTrack_next {s : Store} (hvalid : s.Valid w.buffer) {visit : Visit}
    (hvisit : visit.OnTrack w) :
    (visit.next w s).OnTrack w ∧ (w.next s visit.cursor).2 = [] := by
  have hnext := next_cursorAt h visit.arrival s visit.steps
  rw [← hvisit.2] at hnext
  exact ⟨⟨hvalid, congrArg Prod.fst hnext⟩, congrArg Prod.snd hnext⟩

theorem onTrack_act {it : Iteration} (hit : it.OnTrack w) (action : Action) :
    (w.act it action).OnTrack w := by
  cases action with
  | write v data => exact ⟨Store.valid_write.mpr hit.valid, hit.visits, hit.quiet⟩
  | start =>
      rw [act, start_eq h]
      refine ⟨hit.valid, ?_, by rw [hit.quiet]; rfl⟩
      intro visit hmem
      obtain hmem | hmem := List.mem_append.mp hmem
      · exact hit.visits visit hmem
      · rw [List.mem_singleton.mp hmem]
        exact ⟨hit.valid, rfl⟩
  | step i =>
      have hvisit {j : Nat} {visit : Visit} (hj : it.visits[j]? = some visit) :
          visit.OnTrack w :=
        hit.visits visit (List.mem_of_getElem? hj)
      refine ⟨hit.valid, ?_, ?_⟩
      · intro visit hmem
        obtain ⟨j, hj⟩ := List.mem_iff_getElem?.mp hmem
        simp only [act, List.getElem?_modify, Option.map_eq_map, Option.map_eq_some_iff] at hj
        obtain ⟨before, hbefore, rfl⟩ := hj
        split
        · exact (onTrack_next h hit.valid (hvisit hbefore)).1
        · exact hvisit hbefore
      · simp only [act, hit.quiet, List.nil_append]
        cases hi : it.visits[i]? with
        | none => rfl
        | some visit => exact (onTrack_next h hit.valid (hvisit hi)).2

theorem onTrack_run {s : Store} (hvalid : s.Valid w.buffer) (actions : List Action) :
    (w.run s actions).OnTrack w := by
  have hfold {it : Iteration} (hit : it.OnTrack w) : (actions.foldl w.act it).OnTrack w := by
    induction actions generalizing it with
    | nil => exact hit
    | cons action actions ih => exact ih (onTrack_act h hit action)
  exact hfold ⟨hvalid, fun _ hmem => absurd hmem List.not_mem_nil, rfl⟩

/-- What the values of a window show in a store of a later time. -/
theorem shown_values_later (s t : Store) (hvalid : s.Valid w.buffer) {k : Nat}
    (hk : k < w.count) :
    (unpack w.format s (w.rest k)).values.map (·.shown t) =
      laterSlots format.order (slotsOf format.items) (s.bytes (w.rest k))
        (t.bytes (w.rest k)) := by
  rw [unpack_rest h s hk, ← readSlots_rest h s hk]
  exact shown_readSlots_later _ (Store.valid_slice hvalid _ _) _ 0

end Runs

end Windows

/-- Cursors that walk over windows while the store is written to. -/
theorem run_windows {text : Bytes} {buffer : View}
    (h : (unpackWindows text buffer).failure = none) {s : Store} (hvalid : s.Valid buffer)
    (actions : List Windows.Action) :
    let w := (unpackWindows text buffer).windows
    let it := w.run s actions
    it.log = [] ∧ w.count = buffer.size / w.stride ∧
      ∃ format, Format.parse text = .ok format ∧ w.stride = totalSize format.items ∧
        ∀ visit ∈ it.visits,
          let field := buffer.drop (visit.steps * w.stride)
          visit.cursor.fault = none ∧
          (visit.cursor.done = true ↔ w.count ≤ visit.steps) ∧
          (visit.cursor.done = true → visit.cursor.values = [] ∧
            ∀ t, w.next t visit.cursor = (visit.cursor, [])) ∧
          (visit.steps < w.count → visit.cursor.rest = field ∧
            (unpack text visit.arrival field).failure = none ∧
            visit.cursor.values = (unpack text visit.arrival field).values ∧
            visit.cursor.values.map (·.shown it.store) =
              laterSlots format.order (slotsOf format.items) (visit.arrival.bytes field)
                (it.store.bytes field)) := by
  obtain ⟨format, hw, hfits⟩ := Windows.exists_fits h
  rw [hw]
  intro w it
  have htrack := Windows.onTrack_run hfits hvalid actions
  refine ⟨htrack.quiet, rfl, format, hfits.parse, rfl, ?_⟩
  intro visit hmem field
  obtain ⟨harrival, hcursor⟩ := htrack.visits visit hmem
  rw [hcursor]
  have hdone := w.done_cursorAt visit.arrival visit.steps
  refine ⟨w.fault_cursorAt _ _, hdone, ?_, ?_⟩
  · intro hend
    have hlast := Nat.not_lt.mpr (hdone.mp hend)
    rw [Windows.cursorAt, if_neg hlast]
    exact ⟨rfl, fun _ => rfl⟩
  · intro hk
    rw [Windows.cursorAt, if_pos hk]
    exact ⟨rfl, congrArg Unpacked.failure (Windows.unpack_rest hfits visit.arrival hk), rfl,
      Windows.shown_values_later hfits visit.arrival it.store harrival hk⟩

/-- A byte and a text of which both cells are written to after the arrival. -/
theorem run_windows_write_behind :
    let s : Store := ⟨[[1, 65, 66, 2, 67, 68]]⟩
    let text := Bytes.ofChars ['B', '2', 's']
    let w := (unpackWindows text ⟨0, 0, 6⟩).windows
    let it := w.run s [.start, .step 0, .write ⟨0, 3, 3⟩ [9, 97, 98]]
    (unpackWindows text ⟨0, 0, 6⟩).failure = none ∧ s.Valid ⟨0, 0, 6⟩ ∧
      it.visits.map (fun visit => visit.cursor.values.map (·.shown it.store)) =
        [[.uint 2, .bytes [97, 98]]] := by
  intro s text w it
  have hfound : (unpackWindows text ⟨0, 0, 6⟩).failure = none := by decide
  have hvalid : s.Valid ⟨0, 0, 6⟩ := by decide
  obtain ⟨-, -, format, hparse, -, hvisits⟩ := run_windows hfound hvalid
    [.start, .step 0, .write ⟨0, 3, 3⟩ [9, 97, 98]]
  have hformat : Format.parse text =
      .ok ⟨.little, [⟨1, 'B'.toUInt8⟩, ⟨2, 's'.toUInt8⟩]⟩ := by decide
  rw [hformat, Except.ok.injEq] at hparse
  subst hparse
  have hvisit : it.visits = [(Windows.Visit.mk (w.start s).1 0 s).next w s] := rfl
  obtain ⟨-, -, -, hlater⟩ := hvisits _ (hvisit ▸ List.mem_singleton_self _)
  refine ⟨hfound, hvalid, ?_⟩
  rw [hvisit, List.map_singleton, (hlater (by decide)).2.2.2]
  decide +kernel

end PackedRecord
