import PackedRecord.Proofs.Record.Windows
import PackedRecord.Proofs.Store.Insert
import PackedRecord.Proofs.Value.Printed
import PackedRecord.Report

/-!
What a call of the report leaves.

There are too few words, or one of the first two is refused, or every whole
window of the bytes is listed. No window fails behind the check of the format,
so the windows on the lines and the bytes in the note are all the bytes. The
text of a value tells no more than the value shows, and a window shows what its
bytes show alone; so each line can be read off the bytes of its window.
-/

namespace PackedRecord

/-- Bytes that are the same are unpacked to the same texts, wherever they stand. -/
theorem texts_unpack_congr {text : Bytes} {format : Format} {s t : Store} {v w : View}
    (hparse : Format.parse text = .ok format) (hv : s.Valid v) (hw : t.Valid w)
    (hroom : totalSize format.items ≤ v.size) (hlimit : totalSize format.items < sizeLimit)
    (hbytes : t.bytes w = s.bytes v) :
    (unpack text t w).values.map (·.text t) = (unpack text s v).values.map (·.text s) := by
  have hsize : w.size = v.size := by
    rw [← Store.length_bytes hv, ← Store.length_bytes hw, hbytes]
  have hleft := (shown_unpack_of_parse hparse hv hroom hlimit).2
  have hright := (shown_unpack_of_parse hparse hw (hsize ▸ hroom) hlimit).2
  have hshown := congrArg (List.map Shown.text) (hright.trans (hbytes ▸ hleft.symm))
  simpa only [List.map_map, Function.comp_def, Value.text_shown] using hshown

namespace Report

/-- A record that stands alone in a store, unpacked. -/
def unpackAlone (format record : Bytes) : Unpacked :=
  let (s, buffer) := Store.empty.insert record
  unpack format s buffer

/-- The texts of the values of a record that stands alone. -/
def recordTexts (format record : Bytes) : List Bytes :=
  (unpackAlone format record).values.map (·.text (Store.empty.insert record).1)

def recordLine (format : Bytes) (index : Nat) (record : Bytes) : Bytes :=
  Bytes.ofString "[" ++ Bytes.decimal index ++ Bytes.ofString "] (" ++
    (Bytes.ofString ", ").intercalate (recordTexts format record) ++ Bytes.ofString ")\n"

/-- A line for each whole record of some bytes. -/
def recordLines (format bs : Bytes) (stride : Nat) : List Bytes :=
  (List.range (bs.length / stride)).map fun k =>
    recordLine format k (cut bs (k * stride) stride)

/-- A line on the bytes behind the last record, when there are any. -/
def leftNote (count : Nat) : Bytes :=
  if count = 0 then []
  else Bytes.ofString "(忽略末尾 " ++ Bytes.decimal count ++ Bytes.ofString " 字节)\n"

/-- A text that ends where its only line does. -/
def IsLine (text : Bytes) : Prop :=
  ∃ body, text = body ++ [HexDump.newline] ∧ HexDump.newline ∉ body

/-- A text that reads as bytes in which a format finds windows. -/
structure Accepted (format text bs : Bytes) : Prop where
  read : Hex.parse text = .ok bs
  found : (unpackWindows format (Store.empty.insert bs).2).failure = none

/-- A text that does not read as bytes, or reads as bytes in which a format finds
no windows. -/
def Refused (format text : Bytes) : Prop :=
  (∀ bs, Hex.parse text ≠ .ok bs) ∨ ∃ bs, Hex.parse text = .ok bs ∧
    (unpackWindows format (Store.empty.insert bs).2).failure ≠ none

theorem refused_or_accepted (format text : Bytes) :
    Refused format text ∨ ∃ bs, Accepted format text bs := by
  cases hread : Hex.parse text with
  | error e => exact .inl (.inl fun bs hbs => by rw [hread] at hbs; contradiction)
  | ok bs =>
      by_cases hfound : (unpackWindows format (Store.empty.insert bs).2).failure = none
      · exact .inr ⟨bs, hread, hfound⟩
      · exact .inl (.inr ⟨bs, hread, hfound⟩)

/-- Lines count up from the index of the first. -/
theorem valuesLines_map (s : Store) (values : Nat → List Value) (index count : Nat) :
    valuesLines s index ((List.range' index count).map values) =
      (List.range' index count).map fun k => valuesLine s k (values k) := by
  induction count generalizing index with
  | zero => rfl
  | succ count ih => rw [List.range'_succ, List.map_cons, valuesLines, ih, List.map_cons]

theorem isLine_of_visible {body : Bytes} (h : body.Visible) : IsLine (body ++ [HexDump.newline]) :=
  ⟨body, rfl, fun hmem => absurd (h _ hmem) (by decide)⟩

/-- The texts of values hold no newline, so the one at the end is the only one. -/
theorem isLine_recordLine (format : Bytes) (index : Nat) (record : Bytes) :
    IsLine (recordLine format index record) := by
  have htexts : Bytes.Visible ((Bytes.ofString ", ").intercalate (recordTexts format record)) := by
    apply Bytes.visible_intercalate (by decide)
    intro text htext
    obtain ⟨value, -, rfl⟩ := List.mem_map.mp htext
    exact value.visible_text _
  have hend : Bytes.ofString ")\n" = Bytes.ofString ")" ++ [HexDump.newline] := by decide
  have hstart :
      Bytes.Visible (Bytes.ofString "[" ++ Bytes.decimal index ++ Bytes.ofString "] (") := by
    refine Bytes.visible_append.mpr ⟨Bytes.visible_append.mpr ⟨by decide, ?_⟩, by decide⟩
    exact Bytes.visible_decimal index
  rw [recordLine, hend, ← List.append_assoc]
  apply isLine_of_visible
  exact Bytes.visible_append.mpr ⟨Bytes.visible_append.mpr ⟨hstart, htexts⟩, by decide⟩

section Windows

variable {w : Windows} {format : Format} {s : Store} (h : w.Fits format)
include h

theorem packedSizeOfText_stride : packedSizeOfText w.format = .ok w.stride := by
  rw [packedSizeOfText, h.parse]
  exact (packedSize_eq_ok_iff format.items w.stride).mpr ⟨h.stride.symm, h.bounded⟩

variable (hvalid : s.Valid w.buffer)
include hvalid

/-- A window is unpacked as its bytes are alone. -/
theorem unpackAlone_window {k : Nat} (hk : k < w.count) :
    let record := cut (s.bytes w.buffer) (k * w.stride) w.stride
    (unpackAlone w.format record).failure = none ∧
      recordTexts w.format record =
        (unpack w.format s (w.window k)).values.map (·.text s) := by
  intro record
  have hwindow : s.bytes (w.window k) = record := by
    rw [Windows.window, Store.bytes_slice, Nat.succ_mul, Nat.add_sub_cancel_left]
  have hbytes : (Store.empty.insert record).1.bytes (Store.empty.insert record).2 =
      s.bytes (w.window k) := (Store.bytes_insert _ _).trans hwindow.symm
  have hslice : s.Valid (w.window k) := Store.valid_slice hvalid _ _
  have hroom : totalSize format.items ≤ (w.window k).size := by
    rw [Windows.size_window h hk, h.stride]
  have hlimit : totalSize format.items < sizeLimit := h.stride ▸ h.bounded
  have hlength : record.length = (w.window k).size := by
    rw [← hwindow, Store.length_bytes hslice]
  refine ⟨(shown_unpack_of_parse h.parse (Store.valid_insert _ record) ?_ hlimit).1, ?_⟩
  · rw [Store.size_insert, hlength]
    exact hroom
  · exact texts_unpack_congr h.parse hslice (Store.valid_insert _ record) hroom hlimit hbytes

theorem ofWindows_eq (level : LogLevel) (before : Bytes) :
    ofWindows level s w before =
      ⟨0, before ++ (recordLines w.format (s.bytes w.buffer) w.stride).flatten ++
        leftNote ((s.bytes w.buffer).length % w.stride), [], level⟩ := by
  have hsize := Store.length_bytes hvalid
  have hleft : w.buffer.size - w.count * w.stride = w.buffer.size % w.stride := by
    rw [Windows.count, Nat.mod_eq_sub_div_mul]
  have hlines : valuesLines s 0 (w.walk s).values =
      recordLines w.format (s.bytes w.buffer) w.stride := by
    rw [Windows.walk_eq h, List.range_eq_range', valuesLines_map, recordLines, hsize,
      List.range_eq_range']
    apply List.map_congr_left
    intro k hk
    have hlt : k < w.count := by simpa using List.mem_range'.mp hk
    rw [valuesLine, ← (unpackAlone_window h hvalid hlt).2]
    rfl
  rw [ofWindows]
  simp only [hlines]
  rw [Windows.walk_eq h]
  simp only [List.length_map, List.length_range, hleft, hsize]
  rfl

end Windows

theorem hasSwitch_iff (words : List Bytes) (name : String) :
    hasSwitch words name = true ↔ Bytes.ofString name ∈ words := by
  rw [hasSwitch, List.contains_iff_mem]

section Call

variable (program : Bytes) {format text bs : Bytes} (more : List Bytes)

/-- A call that is accepted lists the records of the bytes. -/
theorem ofCall_of_accepted (h : Accepted format text bs) :
    let words := program :: format :: text :: more
    let w := (unpackWindows format (Store.empty.insert bs).2).windows
    packedSizeOfText format = .ok w.stride ∧ 1 ≤ w.stride ∧
      (w.walk (Store.empty.insert bs).1).fault = none ∧
      (∀ k < bs.length / w.stride,
        (unpackAlone format (cut bs (k * w.stride) w.stride)).failure = none) ∧
      ofCall program (format :: text :: more) =
        ⟨0,
          (if Bytes.ofString "--dump" ∈ words then dump.render bs ++ Bytes.ofString "\n" else []) ++
            (recordLines format bs w.stride).flatten ++ leftNote (bs.length % w.stride),
          [], if Bytes.ofString "--verbose" ∈ words then .debug else .initial⟩ := by
  obtain ⟨parsed, hw, hfits⟩ := Windows.exists_fits h.found
  have hvalid := Store.valid_insert Store.empty bs
  have hbytes := Store.bytes_insert Store.empty bs
  have hsize := Store.size_insert Store.empty bs
  rw [hw]
  intro words w
  refine ⟨packedSizeOfText_stride hfits, hfits.pos, ?_, ?_, ?_⟩
  · rw [Windows.walk_eq hfits]
  · intro k hk
    have halone := unpackAlone_window hfits hvalid (k := k) (by rw [Windows.count, hsize]; exact hk)
    rw [hbytes] at halone
    exact halone.1
  · rw [ofCall]
    simp only [h.read, h.found, hw, ofWindows_eq hfits hvalid, hbytes, hasSwitch_iff]
    rfl

theorem exitCode_of_accepted (h : Accepted format text bs) :
    (ofCall program (format :: text :: more)).exitCode = 0 := by
  obtain ⟨-, -, -, -, hreport⟩ := ofCall_of_accepted program more h
  exact congrArg exitCode hreport

theorem exitCode_of_refused (h : Refused format text) :
    (ofCall program (format :: text :: more)).exitCode = 1 := by
  rw [ofCall]
  cases hread : Hex.parse text with
  | error e => rfl
  | ok bs =>
      cases hfound : (unpackWindows format (Store.empty.insert bs).2).failure with
      | some failure => simp only [hfound]
      | none =>
          rcases h with hunread | ⟨cs, hcs, hrefused⟩
          · exact absurd hread (hunread bs)
          · obtain rfl : bs = cs := Except.ok.inj (hread.symm.trans hcs)
            contradiction

end Call

theorem ofCall_of_short (program : Bytes) {arguments : List Bytes} (h : arguments.length < 2) :
    ofCall program arguments = ⟨2, usage program, [], .initial⟩ := by
  match arguments, h with
  | [], _ => rfl
  | [_], _ => rfl

/-- What becomes of a call, with the exit code that tells it. -/
inductive Fate (arguments : List Bytes) : (exitCode : Nat) → Prop where
  | short (h : arguments.length < 2) : Fate arguments 2
  | refused {format text : Bytes} {more : List Bytes} (hwords : arguments = format :: text :: more)
      (h : Refused format text) : Fate arguments 1
  | accepted {format text bs : Bytes} {more : List Bytes}
      (hwords : arguments = format :: text :: more) (h : Accepted format text bs) : Fate arguments 0

theorem fate_ofCall (program : Bytes) (arguments : List Bytes) :
    Fate arguments (ofCall program arguments).exitCode := by
  match arguments with
  | [] => exact .short (by decide)
  | [_] => exact .short (by rw [List.length_singleton]; decide)
  | format :: text :: more =>
      rcases refused_or_accepted format text with h | ⟨bs, h⟩
      · rw [exitCode_of_refused program more h]
        exact .refused rfl h
      · rw [exitCode_of_accepted program more h]
        exact .accepted rfl h

/-- The exit code tells a call with too few words, one whose text or format is
refused, and one that lists records. The last has nothing to report as a fault:
behind the dump that may be asked for there are a line for each whole window,
with the values of its bytes alone, and a note on the bytes that are left. -/
theorem ofCall_outcome (program : Bytes) (arguments : List Bytes) :
    let report := ofCall program arguments
    (report.exitCode = 2 ↔ arguments.length < 2) ∧
      (report.exitCode = 1 ↔
        ∃ format text more, arguments = format :: text :: more ∧ Refused format text) ∧
      (report.exitCode = 0 ↔
        ∃ format text more bs, arguments = format :: text :: more ∧ Accepted format text bs) ∧
      ∀ format text more bs, arguments = format :: text :: more → Accepted format text bs →
        let w := (unpackWindows format (Store.empty.insert bs).2).windows
        packedSizeOfText format = .ok w.stride ∧ 1 ≤ w.stride ∧
          bs.length / w.stride * w.stride ≤ bs.length ∧
          (w.walk (Store.empty.insert bs).1).fault = none ∧
          (∀ k < bs.length / w.stride,
            (unpackAlone format (cut bs (k * w.stride) w.stride)).failure = none) ∧
          (∀ line ∈ recordLines format bs w.stride, IsLine line) ∧
          report.err = [] ∧
          report.out =
            (if Bytes.ofString "--dump" ∈ program :: arguments then
              dump.render bs ++ Bytes.ofString "\n" else []) ++
            (recordLines format bs w.stride).flatten ++ leftNote (bs.length % w.stride) := by
  intro report
  have hfate : Fate arguments report.exitCode := fate_ofCall program arguments
  refine ⟨⟨fun hcode => ?_, fun h => ?_⟩, ⟨fun hcode => ?_, ?_⟩, ⟨fun hcode => ?_, ?_⟩, ?_⟩
  · rw [hcode] at hfate
    cases hfate with
    | short h => exact h
  · exact congrArg exitCode (ofCall_of_short program h)
  · rw [hcode] at hfate
    cases hfate with
    | @refused format text more hwords h => exact ⟨format, text, more, hwords, h⟩
  · rintro ⟨format, text, more, rfl, h⟩
    exact exitCode_of_refused program more h
  · rw [hcode] at hfate
    cases hfate with
    | @accepted format text bs more hwords h => exact ⟨format, text, more, bs, hwords, h⟩
  · rintro ⟨format, text, more, bs, rfl, h⟩
    exact exitCode_of_accepted program more h
  · rintro format text more bs rfl h w
    obtain ⟨hsize, hpos, hfault, halone, hreport⟩ := ofCall_of_accepted program more h
    refine ⟨hsize, hpos, Nat.div_mul_le_self _ _, hfault, halone, ?_,
      congrArg Report.err hreport, congrArg Report.out hreport⟩
    intro line hline
    obtain ⟨k, -, rfl⟩ := List.mem_map.mp hline
    exact isLine_recordLine format k _

/-- A record of two bytes, and a byte behind it. -/
theorem ofCall_outcome_left_over :
    let format := Bytes.ofString "!BB"
    let text := Bytes.ofString "01 fe 02"
    let report := ofArguments [format, text]
    Accepted format text [1, 254, 2] ∧ report.exitCode = 0 ∧ report.err = [] ∧
      report.out = Bytes.ofString "[0] (1u, 254u)\n(忽略末尾 1 字节)\n" := by
  intro format text report
  have haccepted : Accepted format text [1, 254, 2] := ⟨by decide +kernel, by decide +kernel⟩
  obtain ⟨-, -, hzero, hlisted⟩ := ofCall_outcome (Bytes.ofString "struct_dump") [format, text]
  obtain ⟨-, -, -, -, -, -, herr, hout⟩ := hlisted format text [] [1, 254, 2] rfl haccepted
  refine ⟨haccepted, hzero.mpr ⟨format, text, [], [1, 254, 2], rfl, haccepted⟩, herr, ?_⟩
  refine hout.trans ?_
  decide +kernel

end Report

end PackedRecord
