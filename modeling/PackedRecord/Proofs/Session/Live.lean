import PackedRecord.Proofs.Field.Live
import PackedRecord.Proofs.Record.Decoded
import PackedRecord.Proofs.Session.Confined
import PackedRecord.Proofs.Session.Logged

/-!
Unpacked values in a session.

A text that was unpacked goes on showing its own field of the source, whoever
writes to it, and a number goes on showing what the field held when it was read.
Of a counted text the length is a number in this sense: it was read once, and a
write to the length byte does not move the end of the text.
-/

namespace PackedRecord

/-- What the values of an item at an offset show, by the bytes of the source when they were
read and the bytes it has now. -/
def Item.shownLater (item : Item) (order : ByteOrder) (read now : Bytes) (offset : Nat) :
    List Shown :=
  match item.kind? with
  | none | some .pad => []
  | some (.scalar .character) =>
      (List.range item.count).map fun i => .bytes (cut now (offset + i) 1)
  | some (.scalar scalar) =>
      (List.range item.count).map fun i =>
        scalar.shownBy order (cut read (offset + i * scalar.width) scalar.width)
  | some .string => [.bytes (cut now offset item.count)]
  | some .counted =>
      [.bytes (cut now (offset + 1) (min (read.getD offset 0).toNat (item.count - 1)))]

section Later

variable (order : ByteOrder) {s t : Store} {source : View}

/-- An element that is no text is a copy of what was read. -/
theorem Scalar.shown_decode_later {scalar : Scalar} (h : scalar ≠ .character) (field : View) :
    (scalar.decode order s field).shown t = scalar.shownBy order (s.bytes field) := by
  cases scalar with
  | character => contradiction
  | integer signed size => cases signed <;> rfl
  | boolean | half | single | double => rfl

theorem Item.shown_scalars_later {scalar : Scalar} (h : scalar ≠ .character) (count offset : Nat) :
    ((List.range count).map fun i =>
        let start := offset + i * scalar.width
        scalar.decode order s (source.slice start (start + scalar.width))).map (·.shown t) =
      (List.range count).map fun i =>
        scalar.shownBy order (cut (s.bytes source) (offset + i * scalar.width) scalar.width) := by
  rw [List.map_map]
  apply List.map_congr_left
  intro i _
  refine (Scalar.shown_decode_later order h _).trans ?_
  rw [Store.bytes_slice_add]

theorem headD_cut (cells : Bytes) (start room : Nat) :
    (cut cells start (room + 1)).headD 0 = cells.getD start 0 := by
  rw [List.headD_eq_head?_getD, List.head?_eq_getElem?, getElem?_cut, if_pos (Nat.succ_pos room),
    Nat.add_zero, List.getD_eq_getElem?_getD]

/-- A counted text shows what lies behind its length byte now, as far as the byte said when
it was read. -/
theorem Item.bytes_countedText_slice_later {offset count : Nat} (hvalid : s.Valid source)
    (hfit : offset + count ≤ source.size) :
    t.bytes (countedText s (source.slice offset (offset + count))) =
      cut (t.bytes source) (offset + 1)
        (min ((s.bytes source).getD offset 0).toNat (count - 1)) := by
  have hlength : (cut (s.bytes source) offset count).length = count :=
    length_cut (by rw [Store.length_bytes hvalid]; exact hfit)
  rw [bytes_countedText_later (Store.valid_slice hvalid _ _), Store.bytes_slice_add,
    Store.bytes_slice_add, Bytes.length_counted, hlength]
  cases count with
  | zero => simp [cut]
  | succ room =>
      rw [headD_cut, Nat.add_sub_cancel]
      exact cut_cut (by omega)

/-- What the values of an item show in a store of a later time. -/
theorem Item.shown_decoded_later (item : Item) {offset : Nat} (hvalid : s.Valid source)
    (hfit : offset + item.size ≤ source.size) :
    (item.decoded order s source offset).map (·.shown t) =
      item.shownLater order (s.bytes source) (t.bytes source) offset := by
  cases hkind : item.kind? with
  | none => simp only [decoded, shownLater, hkind, List.map_nil]
  | some code =>
      simp only [decoded, shownLater, hkind]
      cases code with
      | pad => rfl
      | string =>
          exact congrArg (fun text => [Shown.bytes text]) (t.bytes_slice_add source _ _)
      | counted =>
          rw [size_of_kind hkind, Code.width, Nat.mul_one] at hfit
          exact congrArg (fun text => [Shown.bytes text])
            (bytes_countedText_slice_later hvalid hfit)
      | scalar scalar =>
          cases scalar with
          | character =>
              rw [List.map_map]
              apply List.map_congr_left
              intro i _
              rw [Function.comp_apply, Scalar.width, Nat.mul_one]
              exact congrArg Shown.bytes (t.bytes_slice_add source _ _)
          | boolean | half | single | double | integer _ _ =>
              exact shown_scalars_later order (by simp) item.count offset

end Later

namespace Format

variable {format : Format} {s : Store} {source : View}

theorem shown_unpack_later (h : (format.unpack s source).failure = none) (hvalid : s.Valid source)
    (t : Store) :
    (format.unpack s source).values.map (·.shown t) = format.items.zipIdx.flatMap fun p =>
      p.1.shownLater format.order (s.bytes source) (t.bytes source)
        (totalSize (format.items.take p.2)) := by
  have hroom := (checkCapacity_of_fits (fits_of_unpack h)).2.1
  rw [values_of_success h, List.map_flatMap]
  apply List.flatMap_congr
  intro p hp
  have hinside := totalSize_take_le (List.mk_mem_zipIdx_iff_getElem?.mp hp)
  exact p.1.shown_decoded_later format.order hvalid (by omega)

end Format

theorem Layout.unpack_of_format? {layout : Layout} {format : Format}
    (h : layout.format? = some format) (s : Store) (source : View) :
    layout.unpack s source = format.unpack s source := by
  cases layout with
  | items other =>
      obtain rfl := Option.some.inj h
      rfl
  | text written =>
      rw [unpack, PackedRecord.unpack, Format.ofText]
      rw [format?] at h
      cases hparse : Format.parse written with
      | error e =>
          rw [hparse] at h
          contradiction
      | ok other =>
          rw [hparse] at h
          obtain rfl := Option.some.inj h
          rfl

theorem Layout.exists_format {layout : Layout} {s : Store} {source : View}
    (h : (layout.unpack s source).failure = none) :
    ∃ format, layout.format? = some format := by
  cases layout with
  | items format => exact ⟨format, rfl⟩
  | text written =>
      rw [unpack, PackedRecord.unpack, Format.ofText] at h
      rw [format?]
      cases hparse : Format.parse written with
      | error e =>
          rw [hparse] at h
          contradiction
      | ok format => exact ⟨format, rfl⟩

namespace Session

/-- Unpacked values while the session goes on. Whatever is done after a successful unpacking,
through the source, through the texts themselves or through any other view, the
values are still those of the items at their offsets in the source: every text
shows the bytes that its field has now, a counted one as far as its length byte
said when it was read, and everything else shows what was read. -/
theorem unpacked_live (before after : List Action) (i : Nat) (layout : Layout) :
    let σ := run before
    let source := σ.view i
    let unpacked := layout.unpack σ.store source
    let τ := run (before ++ .unpack i layout :: after)
    unpacked.failure = none → ∃ format, layout.format? = some format ∧
      totalSize format.items ≤ source.size ∧
      (τ.store.bytes source).length = source.size ∧
      (unpacked.values = format.items.zipIdx.flatMap fun p =>
        p.1.decoded format.order σ.store source (totalSize (format.items.take p.2))) ∧
      unpacked.values.map (·.shown τ.store) = format.items.zipIdx.flatMap fun p =>
        p.1.shownLater format.order (σ.store.bytes source) (τ.store.bytes source)
          (totalSize (format.items.take p.2)) := by
  intro σ source unpacked τ hsuccess
  obtain ⟨format, hformat⟩ := Layout.exists_format hsuccess
  simp only [unpacked, Layout.unpack_of_format? hformat] at hsuccess ⊢
  have hholds : σ.store.Holds source := (sound_run before).view i
  have hlater : τ.store.Holds source := by
    simp only [τ, run, List.foldl_append]
    exact keeps_foldl σ (.unpack i layout :: after) source hholds
  refine ⟨format, hformat, ?_, ?_, ?_, ?_⟩
  · exact (checkCapacity_of_fits (Format.fits_of_unpack hsuccess)).2.1
  · exact Store.length_bytes hlater.valid
  · exact Format.values_of_success hsuccess
  · exact Format.shown_unpack_later hsuccess hholds.valid τ.store

/-- A source that is cut from a buffer with a byte in front, and writes through the buffer
and through a text: also to the length byte, which was more than its field holds. -/
theorem unpacked_live_overwritten :
    let before : List Action := [.make [0, 65, 66, 67, 5, 68, 69, 255] (by decide),
      .slice 0 1 100]
    let layout := Layout.text (Bytes.ofChars ['c', '2', 's', '3', 'p', 'B'])
    let after : List Action := [.change 0 (.fill 7), .change 3 (.set 1 88), .change 0 (.set 4 1)]
    let σ := run before
    let τ := run (before ++ .unpack 1 layout :: after)
    let values := (layout.unpack σ.store (σ.view 1)).values
    τ.live = [⟨0, 0, 8⟩, ⟨0, 1, 7⟩, ⟨0, 1, 1⟩, ⟨0, 2, 2⟩, ⟨0, 5, 2⟩] ∧
      values.map (·.shown σ.store) =
        [.bytes [65], .bytes [66, 67], .bytes [68, 69], .uint 255] ∧
      values.map (·.shown τ.store) =
        [.bytes [7], .bytes [7, 88], .bytes [7, 7], .uint 255] := by
  intro before layout after σ τ values
  have hsuccess : (layout.unpack σ.store (σ.view 1)).failure = none := by decide
  obtain ⟨format, hformat, -, -, -, hshown⟩ := unpacked_live before after 1 layout hsuccess
  obtain rfl : (⟨.little, [⟨1, 'c'.toUInt8⟩, ⟨2, 's'.toUInt8⟩, ⟨3, 'p'.toUInt8⟩,
      ⟨1, 'B'.toUInt8⟩]⟩ : Format) = format := by
    apply Option.some.inj
    rw [← hformat]
    decide
  refine ⟨by decide, by decide, hshown.trans ?_⟩
  decide

end Session

end PackedRecord
