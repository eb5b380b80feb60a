import PackedRecord.Proofs.Record.Confined
import PackedRecord.Proofs.Session.Basic

/-!
Sessions keep to their views.

Whatever a session does, every view that it still holds on to lies within its
storage, and every action changes cells of one view only. All other views see
the change exactly where they share those cells, and a new buffer shares no cell
with any view there has been.
-/

namespace PackedRecord

namespace Value

theorem holds_of_mem_buffers {s : Store} {values : List Value}
    (h : ∀ value ∈ values, value.Holds s) : ∀ v ∈ buffers values, s.Holds v := by
  intro v hv
  obtain ⟨value, hmem, hbuffer⟩ := List.mem_filterMap.mp hv
  have hvalue := h value hmem
  cases value with
  | bytes u =>
      obtain rfl := Option.some.inj hbuffer
      exact hvalue
  | absent | bool _ | int _ | uint _ | real _ => contradiction

theorem Holds.mono {s t : Store} (hkeeps : s.Keeps t) {value : Value} (h : value.Holds s) :
    value.Holds t := by
  cases value with
  | bytes v => exact hkeeps v h
  | absent | bool _ | int _ | uint _ | real _ => trivial

end Value

theorem Cursor.Holds.mono {s t : Store} (hkeeps : s.Keeps t) {c : Cursor} (h : c.Holds s) :
    c.Holds t :=
  ⟨hkeeps _ h.rest, fun value hvalue => (h.values value hvalue).mono hkeeps⟩

theorem Store.confined_put {s t : Store} {v : View} {order : ByteOrder} {offset : Nat}
    {datum : Datum} (h : s.put v order offset datum = .ok t) : s.Confined t v := by
  cases datum with
  | integer size n => exact s.confined_writeWord v h
  | half x | single x | double x => exact s.confined_writeWord v h

namespace Layout

theorem confined_packInto (layout : Layout) (s : Store) (target : View) (values : List Value) :
    s.Confined (layout.packInto s target values).store target := by
  cases layout with
  | text written => exact PackedRecord.confined_packInto s target values written
  | items format => exact Format.confined_packInto s target values format

theorem holds_unpack (layout : Layout) {s : Store} {source : View} (h : s.Holds source) :
    ∀ value ∈ (layout.unpack s source).values, value.Holds s := by
  cases layout with
  | text written => exact PackedRecord.holds_unpack h written
  | items format => exact Format.holds_unpack h format

end Layout

theorem holds_unpackWindows {s : Store} {buffer : View} (h : s.Holds buffer) (text : Bytes) :
    s.Holds (unpackWindows text buffer).windows.buffer := by
  rw [unpackWindows]
  split
  · exact .nowhere
  · split
    · exact .nowhere
    · split
      · exact .nowhere
      · exact h

namespace Session

/-- The buffer of an iterator holds, and so does all that its cursor has. -/
structure Iterator.Holds (s : Store) (it : Iterator) : Prop where
  buffer : s.Holds it.windows.buffer
  cursor : it.cursor.Holds s

namespace Iterator

variable {s : Store}

theorem holds_start {w : Windows} (h : s.Holds w.buffer) : (start w s).Holds s :=
  ⟨h, w.holds_start h⟩

theorem Holds.next {it : Iterator} (h : it.Holds s) : (it.next s).Holds s :=
  ⟨h.buffer, it.windows.holds_next h.cursor⟩

theorem Holds.restart {it : Iterator} (h : it.Holds s) : (it.restart s).Holds s :=
  holds_start h.buffer

theorem Holds.live {it : Iterator} (h : it.Holds s) : ∀ v ∈ it.live, s.Holds v := by
  have hvalues := Value.holds_of_mem_buffers h.cursor.values
  exact List.forall_mem_cons.mpr ⟨h.buffer, List.forall_mem_cons.mpr ⟨h.cursor.rest, hvalues⟩⟩

theorem Holds.mono {t : Store} (hkeeps : s.Keeps t) {it : Iterator} (h : it.Holds s) :
    it.Holds t :=
  ⟨hkeeps _ h.buffer, h.cursor.mono hkeeps⟩

end Iterator

/-- Every view that a session can still use holds. -/
structure Sound (σ : Session) : Prop where
  views : ∀ v ∈ σ.views, σ.store.Holds v
  iterators : ∀ it ∈ σ.iterators, it.Holds σ.store

namespace Sound

variable {σ : Session} (h : σ.Sound)
include h

theorem live : ∀ v ∈ σ.live, σ.store.Holds v := by
  refine List.forall_mem_append.mpr ⟨h.views, ?_⟩
  intro v hv
  obtain ⟨it, hit, hlive⟩ := List.mem_flatMap.mp hv
  exact (h.iterators it hit).live v hlive

theorem view (i : Nat) : σ.store.Holds (σ.view i) := by
  rw [Session.view, List.getD_eq_getElem?_getD]
  cases hi : σ.live[i]? with
  | none => exact .nowhere
  | some v => exact h.live v (List.mem_of_getElem? hi)

theorem keep {views : List View} (hviews : ∀ v ∈ views, σ.store.Holds v) :
    (σ.keep views).Sound :=
  ⟨List.forall_mem_append.mpr ⟨h.views, hviews⟩, h.iterators⟩

/-- A session stays sound in a store that keeps all that held. -/
theorem mono {t : Store} (hkeeps : σ.store.Keeps t) : Sound { σ with store := t } :=
  ⟨fun v hv => hkeeps v (h.views v hv), fun it hit => (h.iterators it hit).mono hkeeps⟩

theorem adopt {made : Store × View} (hkeeps : σ.store.Keeps made.1)
    (hholds : made.1.Holds made.2) : (σ.adopt made).Sound :=
  (h.mono hkeeps).keep (List.forall_mem_singleton.mpr hholds)

theorem iterate {w : Windows} (hbuffer : σ.store.Holds w.buffer) : (σ.iterate w).Sound := by
  have hnew := List.forall_mem_singleton.mpr (Iterator.holds_start hbuffer)
  exact ⟨h.views, List.forall_mem_append.mpr ⟨h.iterators, hnew⟩⟩

theorem modify (i : Nat) {f : Iterator → Iterator}
    (hf : ∀ it, it.Holds σ.store → (f it).Holds σ.store) :
    Sound { σ with iterators := σ.iterators.modify i f } := by
  refine ⟨h.views, ?_⟩
  intro it hit
  obtain ⟨j, hj⟩ := List.mem_iff_getElem?.mp hit
  simp only [List.getElem?_modify, Option.map_eq_map, Option.map_eq_some_iff] at hj
  obtain ⟨before, hbefore, rfl⟩ := hj
  have hholds := h.iterators before (List.mem_of_getElem? hbefore)
  split
  · exact hf before hholds
  · exact hholds

end Sound

/-- A change through a view is confined to the view. -/
theorem confined_changed (σ : Session) (target : View) (change : Change) :
    σ.store.Confined (σ.changed target change) target := by
  cases change with
  | copy source targetStart sourceStart sourceStop => exact σ.store.confined_copy target _ _ _ _
  | fill value => exact σ.store.confined_fill target value
  | set index value => exact (σ.store.confined_write _ _).mono (target.within_slice _ _)
  | put order offset datum =>
      simp only [changed]
      cases hput : σ.store.put target order offset.toNat datum with
      | ok t => exact Store.confined_put hput
      | error e => exact .refl σ.store target
  | packItem order item offset operands => exact item.confined_pack order target σ.store _ _
  | packInto layout operands => exact layout.confined_packInto σ.store target _

/-- An action adds its target to the store, or leaves all but the cells of its target. -/
theorem step_cases (σ : Session) (action : Action) :
    (∃ data, ((σ.step action).store, σ.target action) = σ.store.insert data) ∨
      σ.store.Confined (σ.step action).store (σ.target action) := by
  cases action with
  | alloc size => exact .inl ⟨_, rfl⟩
  | make data fits => exact .inl ⟨data, rfl⟩
  | change i change => exact .inr (σ.confined_changed (σ.view i) change)
  | share _ | slice _ _ _ | drop _ | unpack _ _ | unpackItem _ _ _ _ | unpackWindows _ _
  | range _ _ _ | next _ | restart _ => exact .inr (.refl σ.store _)

/-- An action changes no cell but those of its target. -/
theorem agreesOutside_step (σ : Session) (action : Action) :
    σ.store.AgreesOutside (σ.step action).store (σ.target action) := by
  obtain ⟨data, hinsert⟩ | hconfined := σ.step_cases action
  · have hagrees := σ.store.agreesOutside_insert data
    rwa [← hinsert] at hagrees
  · exact hconfined.outside

theorem keeps_step (σ : Session) (action : Action) : σ.store.Keeps (σ.step action).store := by
  obtain ⟨data, hinsert⟩ | hconfined := σ.step_cases action
  · have hkeeps := σ.store.keeps_insert data
    rwa [← hinsert] at hkeeps
  · exact hconfined.keeps

theorem sound_step {σ : Session} (h : σ.Sound) (action : Action) : (σ.step action).Sound := by
  cases action with
  | alloc size =>
      apply h.adopt (σ.store.keeps_insert _)
      apply σ.store.holds_insert
      rw [List.length_replicate]
      exact size.toNat_lt
  | make data fits => exact h.adopt (σ.store.keeps_insert data) (σ.store.holds_insert fits)
  | share i => exact h.keep (List.forall_mem_singleton.mpr (h.view i))
  | slice i start stop => exact h.keep (List.forall_mem_singleton.mpr ((h.view i).slice _ _))
  | drop i => exact ⟨fun v hv => h.views v (List.mem_of_mem_eraseIdx hv), h.iterators⟩
  | change i change => exact h.mono (σ.confined_changed (σ.view i) change).keeps
  | unpack i layout => exact h.keep (Value.holds_of_mem_buffers (layout.holds_unpack (h.view i)))
  | unpackItem i order item offset =>
      exact h.keep (Value.holds_of_mem_buffers (item.holds_unpack order (h.view i) offset.toNat))
  | unpackWindows i text => exact h.iterate (holds_unpackWindows (h.view i) text)
  | range i text stride => exact h.iterate (h.view i)
  | next i => exact h.modify i fun _ hit => hit.next
  | restart i => exact h.modify i fun _ hit => hit.restart

/-- A new buffer is live, and has no cell of a view that held before. -/
theorem target_of_isNew (σ : Session) {action : Action} (hnew : action.isNew) :
    σ.target action ∈ (σ.step action).live ∧
      ∀ v, σ.store.Holds v → v.Apart (σ.target action) := by
  have hlive (made : Store × View) : made.2 ∈ (σ.adopt made).live :=
    List.mem_append_left _ (List.mem_append_right _ (List.mem_singleton_self _))
  cases action with
  | alloc size => exact ⟨hlive _, fun v hv => Store.apart_insert _ hv.valid⟩
  | make data fits => exact ⟨hlive _, fun v hv => Store.apart_insert data hv.valid⟩
  | share _ | slice _ _ _ | drop _ | change _ _ | unpack _ _ | unpackItem _ _ _ _
  | unpackWindows _ _ | range _ _ _ | next _ | restart _ => contradiction

section Runs

variable (σ : Session) (actions : List Action)

theorem sound_foldl (h : σ.Sound) : (actions.foldl step σ).Sound := by
  induction actions generalizing σ with
  | nil => exact h
  | cons action actions ih => exact ih _ (sound_step h action)

theorem keeps_foldl : σ.store.Keeps (actions.foldl step σ).store := by
  induction actions generalizing σ with
  | nil => exact fun _ h => h
  | cons action actions ih => exact fun v h => ih _ v (σ.keeps_step action v h)

theorem sound_run : (run actions).Sound :=
  sound_foldl empty actions ⟨List.forall_mem_nil _, List.forall_mem_nil _⟩

/-- A view that was live at any time holds ever after. -/
theorem holds_of_live_earlier {earlier : List Action} (h : earlier <+: actions) {v : View}
    (hv : v ∈ (run earlier).live) : (run actions).store.Holds v := by
  obtain ⟨later, rfl⟩ := h
  rw [run, List.foldl_append]
  exact keeps_foldl _ later v ((sound_run earlier).live v hv)

end Runs

/-- Views in any session. Each of them lies within its storage or has none; an action
changes no cell but those of its target; a view sees a change of its bytes where
it shares a cell that the target sees changed, and nowhere else; and a new
buffer shares no cell with a view of any earlier time. -/
theorem run_confined (actions : List Action) (action : Action) :
    let σ := run actions
    let τ := σ.step action
    let target := σ.target action
    (∀ v ∈ σ.live, σ.store.Holds v) ∧
      σ.store.AgreesOutside τ.store target ∧
      (∀ v k, k < v.size →
        ((τ.store.bytes v)[k]? ≠ (σ.store.bytes v)[k]? ↔
          ∃ j, j < target.size ∧ target.cell j = v.cell k ∧
            (τ.store.bytes target)[j]? ≠ (σ.store.bytes target)[j]?)) ∧
      (action.isNew → target ∈ τ.live ∧
        ∀ earlier, earlier <+: actions → ∀ v ∈ (run earlier).live, v.Apart target) := by
  intro σ τ target
  have houtside := σ.agreesOutside_step action
  refine ⟨(sound_run actions).live, houtside, ?_, ?_⟩
  · intro v k hk
    exact houtside.changes_iff v hk
  · intro hnew
    obtain ⟨hlive, hapart⟩ := σ.target_of_isNew hnew
    refine ⟨hlive, ?_⟩
    intro earlier hearlier v hv
    exact hapart v (holds_of_live_earlier actions hearlier hv)

/-- A byte that is written through a cut of a cut, with an end far beyond the buffer. -/
theorem run_confined_nested_cuts :
    let actions : List Action := [.alloc 4, .slice 0 1 0xFFFFFFFFFFFFFFFF, .slice 1 1 2]
    let fill : Action := .change 2 (.fill 7)
    let σ := run actions
    let τ := run (actions ++ [fill])
    σ.live = [⟨0, 0, 4⟩, ⟨0, 1, 3⟩, ⟨0, 2, 1⟩] ∧ σ.store.Holds ⟨0, 2, 1⟩ ∧
      (τ.store.bytes ⟨0, 0, 4⟩)[2]? ≠ (σ.store.bytes ⟨0, 0, 4⟩)[2]? ∧
      (τ.store.bytes ⟨0, 0, 4⟩)[1]? = (σ.store.bytes ⟨0, 0, 4⟩)[1]? ∧
      View.Apart ⟨0, 1, 3⟩ (τ.target (.make [1] (by decide))) := by
  intro actions fill σ τ
  have hlive : σ.live = [⟨0, 0, 4⟩, ⟨0, 1, 3⟩, ⟨0, 2, 1⟩] := by decide
  obtain ⟨hholds, -, hchanges, -⟩ := run_confined actions fill
  obtain ⟨-, -, -, hnew⟩ := run_confined (actions ++ [fill]) (.make [1] (by decide))
  refine ⟨hlive, ?_, ?_, ?_, ?_⟩
  · exact hholds _ (by rw [hlive]; decide)
  · exact (hchanges ⟨0, 0, 4⟩ 2 (by decide)).mpr ⟨0, by decide, by decide, by decide⟩
  · by_contra hchange
    obtain ⟨j, hj, hcell, -⟩ := (hchanges ⟨0, 0, 4⟩ 1 (by decide)).mp hchange
    -- the cut of the cut has one cell, the third of the buffer
    obtain rfl : j = 0 := Nat.lt_one_iff.mp hj
    exact absurd hcell (by decide)
  · exact (hnew rfl).2 actions ⟨[fill], rfl⟩ _ (by rw [hlive]; decide)

end Session

end PackedRecord
