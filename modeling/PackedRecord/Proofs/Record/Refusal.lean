import PackedRecord.Proofs.Record.InPlace
import PackedRecord.Record.Windows

/-!
Refusals.

Packing into a buffer, unpacking it and asking for its windows begin with the
same check of the format text and of the room. When the check fails they are
all refused for one cause, with one message and one extent, and nothing is
written, read or cut. When it passes, none of them fails for such a cause:
unpacking succeeds, and windows are found unless they would have no bytes.
-/

namespace PackedRecord

/-- A failure of the text, of its size or of the room, before the first item. -/
def Failure.isRefusal : Failure → Bool
  | badFormat _ _ | sizeOverflow | tooSmall _ _ => true
  | _ => false

/-- The extent and the failure that an operation on a buffer reports. -/
def Operation.answer (text : Bytes) (s : Store) (buffer : View) (values : List Value) :
    Operation → Extent × Option Failure
  | .pack =>
      let packed := packInto text s buffer values
      (packed.extent, packed.failure)
  | .unpack =>
      let unpacked := PackedRecord.unpack text s buffer
      (unpacked.extent, unpacked.failure)
  | .unpackWindows =>
      let found := PackedRecord.unpackWindows text buffer
      (found.extent, found.failure)

/-- None of the operations has written, read or cut anything. -/
structure Untouched (text : Bytes) (s : Store) (buffer : View) (values : List Value) : Prop where
  store : (packInto text s buffer values).store = s
  written : (packInto text s buffer values).written = 0
  target : (packInto text s buffer values).buffer = .empty
  values : (unpack text s buffer).values = []
  windows : (unpackWindows text buffer).windows.count = 0
  walk : ∀ t, ((unpackWindows text buffer).windows.walk t).values = []

theorem Windows.walk_empty (s : Store) : (Windows.empty.walk s).values = [] := by
  simp [walk, start, empty, walkFrom]

/-- The check that the operations have in common. -/
def precheck (text : Bytes) (actual : Nat) : Extent × Option Failure :=
  match Format.ofText text with
  | .error failure => (⟨0, 0⟩, some failure)
  | .ok format => checkCapacity format.items actual

section Refused

variable {text : Bytes} {buffer : View} {extent : Extent} {failure : Failure}
  (h : precheck text buffer.size = (extent, some failure)) (s : Store) (values : List Value)
include h

/-- What is refused has a bad text, or a format that does not fit. -/
theorem ofText_of_precheck :
    Format.ofText text = .error failure ∧ extent = ⟨0, 0⟩ ∨
      ∃ format, Format.ofText text = .ok format ∧
        checkCapacity format.items buffer.size = (extent, some failure) := by
  rw [precheck] at h
  split at h
  case h_1 e hformat =>
    cases h
    exact .inl ⟨hformat, rfl⟩
  case h_2 format hformat => exact .inr ⟨format, hformat, h⟩

theorem packInto_of_precheck : packInto text s buffer values = .refused s extent failure := by
  obtain ⟨hformat, rfl⟩ | ⟨format, hformat, hcheck⟩ := ofText_of_precheck h
  · simp only [packInto, hformat]
  · simp only [packInto, hformat, Format.packInto, hcheck]

theorem unpack_of_precheck :
    unpack text s buffer =
      ⟨[], extent, some failure, [Operation.unpack.logEntry failure]⟩ := by
  obtain ⟨hformat, rfl⟩ | ⟨format, hformat, hcheck⟩ := ofText_of_precheck h
  · simp only [unpack, hformat]
  · simp only [unpack, hformat, Format.unpack, hcheck]

theorem unpackWindows_of_precheck : unpackWindows text buffer = .refused extent failure := by
  obtain ⟨hformat, rfl⟩ | ⟨format, hformat, hcheck⟩ := ofText_of_precheck h
  · simp only [unpackWindows, hformat]
  · simp only [unpackWindows, hformat, hcheck]

theorem answer_of_precheck (op : Operation) :
    op.answer text s buffer values = (extent, some failure) := by
  cases op with
  | pack => simp only [Operation.answer, packInto_of_precheck h, Packed.refused]
  | unpack => simp only [Operation.answer, unpack_of_precheck h]
  | unpackWindows =>
      simp only [Operation.answer, unpackWindows_of_precheck h, WindowsFound.refused]

theorem untouched_of_precheck : Untouched text s buffer values := by
  have hpack := packInto_of_precheck h s values
  have hwindows := unpackWindows_of_precheck h
  refine ⟨?_, ?_, ?_, ?_, ?_, ?_⟩
  · rw [hpack]
    rfl
  · rw [hpack]
    rfl
  · rw [hpack]
    rfl
  · rw [unpack_of_precheck h]
  · rw [hwindows]
    exact Nat.zero_div 0
  · intro t
    rw [hwindows]
    exact Windows.walk_empty t

end Refused

/-- What the check finds, in exact arithmetic. -/
inductive Checked (text : Bytes) (actual : Nat) : Extent × Option Failure → Prop where
  | badFormat {e : FormatError} (parse : Format.parse text = .error e) :
      Checked text actual (⟨0, 0⟩, some (.badFormat text e))
  | sizeOverflow {format : Format} (parse : Format.parse text = .ok format)
      (size : sizeLimit ≤ totalSize format.items) :
      Checked text actual (⟨0, actual⟩, some .sizeOverflow)
  | tooSmall {format : Format} (parse : Format.parse text = .ok format)
      (size : totalSize format.items < sizeLimit) (room : actual < totalSize format.items) :
      Checked text actual (⟨totalSize format.items, actual⟩,
        some (.tooSmall (totalSize format.items) actual))
  | passed {format : Format} (parse : Format.parse text = .ok format)
      (size : totalSize format.items < sizeLimit) (room : totalSize format.items ≤ actual) :
      Checked text actual (⟨totalSize format.items, actual⟩, none)

theorem checked_precheck (text : Bytes) (actual : Nat) :
    Checked text actual (precheck text actual) := by
  rw [precheck, Format.ofText]
  cases hparse : Format.parse text with
  | error e => exact .badFormat hparse
  | ok format =>
      rcases Nat.lt_or_ge (totalSize format.items) sizeLimit with hlt | hge
      · rcases Nat.lt_or_ge actual (totalSize format.items) with hsmall | hroom
        · simp only [checkCapacity_of_small hlt hsmall]
          exact .tooSmall hparse hlt hsmall
        · simp only [checkCapacity_of_le hroom hlt]
          exact .passed hparse hlt hroom
      · simp only [checkCapacity_of_overflow hge]
        exact .sizeOverflow hparse hge

section Passed

variable {text : Bytes} {buffer : View} {format : Format}
  (hparse : Format.parse text = .ok format) (hsize : totalSize format.items < sizeLimit)
  (hroom : totalSize format.items ≤ buffer.size) (s : Store) (values : List Value)
include hparse hsize hroom

theorem failure_unpack_of_passed : (unpack text s buffer).failure = none := by
  rw [unpack_of_parse hparse (by rw [checkCapacity_of_le hroom hsize])]

theorem failure_unpackWindows_of_passed :
    (unpackWindows text buffer).failure =
      if totalSize format.items = 0 then some (.emptyWindow text) else none := by
  simp only [unpackWindows, Format.ofText, hparse, checkCapacity_of_le hroom hsize]
  split <;> rfl

/-- Behind the check no failure is one of the check. -/
theorem failure_answer_of_passed {op : Operation} {failure : Failure}
    (h : (op.answer text s buffer values).2 = some failure) :
    failure.isRefusal = false ∧ failure.fault ≠ .pack .lengthOverflow ∧
      failure.fault ≠ .pack .bufferTooSmall := by
  cases op with
  | pack =>
      simp only [Operation.answer, packInto_of_parse hparse] at h
      rcases format.failure_packInto_cases s buffer values
        (by rw [checkCapacity_of_le hroom hsize]) with
        ⟨-, hnone⟩ | ⟨i, slot, e, -, hfirst, -, hsome⟩
      · rw [hnone] at h
        contradiction
      · rw [hsome] at h
        obtain rfl := Option.some.inj h
        rcases hfirst.error_cases with rfl | rfl | rfl <;> simp [Slot.failure, Failure.isRefusal,
          Failure.fault]
  | unpack =>
      simp only [Operation.answer, failure_unpack_of_passed hparse hsize hroom] at h
      contradiction
  | unpackWindows =>
      simp only [Operation.answer, failure_unpackWindows_of_passed hparse hsize hroom] at h
      split at h
      · obtain rfl := Option.some.inj h
        simp [Failure.isRefusal, Failure.fault]
      · contradiction

end Passed

section Answers

variable (text : Bytes) (s : Store) (buffer : View) (values : List Value) (op : Operation)

theorem answer_badFormat_iff (e : FormatError) :
    (op.answer text s buffer values).2 = some (.badFormat text e) ↔
      Format.parse text = .error e := by
  have hchecked := checked_precheck text buffer.size
  generalize hcheck : precheck text buffer.size = result at hchecked
  cases hchecked with
  | badFormat hparse | sizeOverflow hparse _ | tooSmall hparse _ _ =>
      simp [answer_of_precheck hcheck, hparse]
  | passed hparse hsize hroom =>
      rw [hparse]
      constructor
      · intro h
        have hpassed := failure_answer_of_passed hparse hsize hroom s values h
        simp [Failure.isRefusal] at hpassed
      · intro h
        contradiction

/-- A fault that only the check has is found by the check. -/
theorem fault_answer_iff {e : PackError} (he : e = .lengthOverflow ∨ e = .bufferTooSmall) :
    (op.answer text s buffer values).2.map Failure.fault = some (.pack e) ↔
      (precheck text buffer.size).2.map Failure.fault = some (.pack e) := by
  have hchecked := checked_precheck text buffer.size
  generalize hcheck : precheck text buffer.size = result at hchecked
  cases hchecked with
  | badFormat _ | sizeOverflow _ _ | tooSmall _ _ _ => rw [answer_of_precheck hcheck]
  | passed hparse hsize hroom =>
      simp only [Option.map_none, reduceCtorEq, iff_false, Option.map_eq_some_iff, not_exists,
        not_and]
      intro failure h
      obtain ⟨-, hoverflow, hsmall⟩ := failure_answer_of_passed hparse hsize hroom s values h
      rcases he with rfl | rfl
      · exact hoverflow
      · exact hsmall

theorem answer_lengthOverflow_iff :
    (op.answer text s buffer values).2.map Failure.fault = some (.pack .lengthOverflow) ↔
      ∃ format, Format.parse text = .ok format ∧ sizeLimit ≤ totalSize format.items := by
  rw [fault_answer_iff text s buffer values op (.inl rfl)]
  have hchecked := checked_precheck text buffer.size
  generalize precheck text buffer.size = found at hchecked ⊢
  cases hchecked <;> simp_all [Failure.fault]

theorem answer_bufferTooSmall_iff :
    (op.answer text s buffer values).2.map Failure.fault = some (.pack .bufferTooSmall) ↔
      ∃ format, Format.parse text = .ok format ∧ totalSize format.items < sizeLimit ∧
        buffer.size < totalSize format.items := by
  rw [fault_answer_iff text s buffer values op (.inr rfl)]
  have hchecked := checked_precheck text buffer.size
  generalize precheck text buffer.size = found at hchecked ⊢
  cases hchecked <;> simp_all [Failure.fault]

end Answers

/-- The three operations agree on what they refuse. If one of them is refused for
its text, its size or the room, all are, with one failure and one extent, and
nothing is touched. The causes are those of exact arithmetic. Where nothing is
refused, unpacking succeeds, and windows are found exactly if they hold a byte. -/
theorem answers_agree (text : Bytes) (s : Store) (buffer : View) (values : List Value) :
    let answer (op : Operation) := op.answer text s buffer values
    (∀ op failure, (answer op).2 = some failure → failure.isRefusal = true →
      (∀ other, answer other = answer op) ∧ Untouched text s buffer values) ∧
    (∀ op,
      (∀ e, (answer op).2 = some (.badFormat text e) ↔ Format.parse text = .error e) ∧
      ((answer op).2.map Failure.fault = some (.pack .lengthOverflow) ↔
        ∃ format, Format.parse text = .ok format ∧ sizeLimit ≤ totalSize format.items) ∧
      ((answer op).2.map Failure.fault = some (.pack .bufferTooSmall) ↔
        ∃ format, Format.parse text = .ok format ∧ totalSize format.items < sizeLimit ∧
          buffer.size < totalSize format.items) ∧
      ∀ format, Format.parse text = .ok format → totalSize format.items < sizeLimit →
        buffer.size < totalSize format.items →
        (answer op).1 = ⟨totalSize format.items, buffer.size⟩) ∧
    ∀ op, (∀ failure, (answer op).2 = some failure → failure.isRefusal = false) →
      ∃ format, Format.parse text = .ok format ∧
        ((answer .unpackWindows).2 = none ↔ 0 < totalSize format.items) ∧
        (answer .unpack).2 = none := by
  intro answer
  have hchecked := checked_precheck text buffer.size
  generalize hcheck : precheck text buffer.size = result at hchecked
  refine ⟨?_, ?_, ?_⟩
  · intro op failure hfailure hrefusal
    obtain ⟨extent, found⟩ := result
    cases found with
    | none =>
        cases hchecked with
        | passed hparse hsize hroom =>
            -- behind a passed check only slots and empty windows fail
            have hpassed := failure_answer_of_passed hparse hsize hroom s values hfailure
            rw [hpassed.1] at hrefusal
            contradiction
    | some cause =>
        have hall := answer_of_precheck hcheck s values
        exact ⟨fun other => (hall other).trans (hall op).symm,
          untouched_of_precheck hcheck s values⟩
  · intro op
    refine ⟨answer_badFormat_iff text s buffer values op,
      answer_lengthOverflow_iff text s buffer values op,
      answer_bufferTooSmall_iff text s buffer values op, ?_⟩
    intro format hparse hsize hsmall
    have hextent : precheck text buffer.size =
        (⟨totalSize format.items, buffer.size⟩,
          some (.tooSmall (totalSize format.items) buffer.size)) := by
      simp only [precheck, Format.ofText, hparse, checkCapacity_of_small hsize hsmall]
    exact congrArg Prod.fst (answer_of_precheck hextent s values op)
  · intro op hnone
    cases hchecked with
    | badFormat hparse | sizeOverflow hparse _ | tooSmall hparse _ _ =>
        have hrefused := hnone _ (congrArg Prod.snd (answer_of_precheck hcheck s values op))
        contradiction
    | passed hparse hsize hroom =>
        refine ⟨_, hparse, ?_, failure_unpack_of_passed hparse hsize hroom s⟩
        have hwindows := failure_unpackWindows_of_passed hparse hsize hroom
        simp only [answer, Operation.answer, hwindows, Nat.pos_iff_ne_zero]
        split <;> simp_all

/-- A buffer that is one byte too short for two half-words, and a format without
bytes, which can be unpacked but not cut into windows. -/
theorem answers_agree_short_and_empty :
    let s : Store := ⟨[[1, 2, 3]]⟩
    let half := Bytes.ofChars ['2', 'h']
    let blank := Bytes.ofChars ['0', 's']
    let buffer : View := ⟨0, 0, 3⟩
    (Operation.pack.answer half s buffer [.int 7]).2 = some (.tooSmall 4 3) ∧
      (∀ other, Operation.answer half s buffer [.int 7] other =
        Operation.pack.answer half s buffer [.int 7]) ∧
      Untouched half s buffer [.int 7] ∧
      (Operation.unpack.answer blank s buffer []).2 = none ∧
      (Operation.unpackWindows.answer blank s buffer []).2 ≠ none := by
  intro s half blank buffer
  have hshort : (Operation.pack.answer half s buffer [.int 7]).2 = some (.tooSmall 4 3) := by
    decide
  obtain ⟨hsame, huntouched⟩ := (answers_agree half s buffer [.int 7]).1 .pack _ hshort rfl
  have hread : (Operation.unpack.answer blank s buffer []).2 = none := by decide
  obtain ⟨format, hparse, hwindows, hunpack⟩ := (answers_agree blank s buffer []).2.2 .unpack
    fun failure h => by rw [hread] at h; contradiction
  have hformat : Format.parse blank = .ok ⟨.little, [⟨0, 's'.toUInt8⟩]⟩ := by decide
  obtain rfl := Except.ok.inj (hformat.symm.trans hparse)
  exact ⟨hshort, hsame, huntouched, hunpack, mt hwindows.mp (by decide)⟩

end PackedRecord
