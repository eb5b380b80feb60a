import PackedRecord.Proofs.Record.Iteration
import PackedRecord.Proofs.Record.RoundTrip
import PackedRecord.Proofs.Session.Basic

/-!
What calls say in the log.

A call that fails makes one entry, under the name of its operation and with the
message of the failure, whichever of the checks refused it. A call that succeeds
makes none, unless it was given more values than its format takes: the number of
those is noted once. Walking over windows is always quiet.
-/

namespace PackedRecord

/-- The number of values that a format takes. -/
def Format.valueCount (format : Format) : Nat :=
  (format.items.map Item.valueCount).sum

/-- The format that a layout stands for, if its text is one. -/
def Layout.format? : Layout → Option Format
  | text written => (Format.parse written).toOption
  | items format => some format

/-- A call that packs or unpacks a record, or asks for windows. -/
inductive Call where
  | pack (text : Bytes) (values : List Value)
  | packInto (layout : Layout) (target : View) (values : List Value)
  | unpack (layout : Layout) (source : View)
  | unpackWindows (text : Bytes) (buffer : View)
  deriving DecidableEq, Repr

namespace Call

def operation : Call → Operation
  | pack _ _ | packInto _ _ _ => .pack
  | unpack _ _ => .unpack
  | unpackWindows _ _ => .unpackWindows

def failure (s : Store) : Call → Option Failure
  | pack text values => (PackedRecord.pack text s values).failure
  | packInto layout target values => (layout.packInto s target values).failure
  | unpack layout source => (layout.unpack s source).failure
  | unpackWindows text buffer => (PackedRecord.unpackWindows text buffer).failure

def log (s : Store) : Call → List LogEntry
  | pack text values => (PackedRecord.pack text s values).log
  | packInto layout target values => (layout.packInto s target values).log
  | unpack layout source => (layout.unpack s source).log
  | unpackWindows text buffer => (PackedRecord.unpackWindows text buffer).log

/-- The number of values that a call is given beyond those that its format takes. -/
def surplus : Call → Nat
  | pack text values =>
      (Layout.text text).format?.elim 0 fun format => values.length - format.valueCount
  | packInto layout _ values =>
      layout.format?.elim 0 fun format => values.length - format.valueCount
  | unpack _ _ | unpackWindows _ _ => 0

end Call

theorem Fault.logLevel_eq (fault : Fault) :
    fault.logLevel = if fault = .pack .unknownFormat then .warn else .debug := by
  cases fault with
  | core e => rfl
  | pack e => cases e <;> rfl

/-- The entries of an operation that ended with a failure, or without one. -/
def Operation.entries (op : Operation) (surplus : Nat) : Option Failure → List LogEntry
  | some failure => [op.logEntry failure]
  | none => trailingNote surplus

section Operations

variable (s : Store)

theorem Format.log_packInto_of_failure {format : Format} {target : View} {values : List Value}
    {failure : Failure} (h : (format.packInto s target values).failure = some failure) :
    (format.packInto s target values).log = [Operation.pack.logEntry failure] := by
  cases hcheck : checkCapacity format.items target.size with
  | mk extent refused =>
      rw [packInto, hcheck] at h ⊢
      cases refused with
      | some other =>
          obtain rfl := Option.some.inj h
          rfl
      | none =>
          dsimp only at h ⊢
          cases hrun : (packItems format.order target values format.items s ⟨0, 0⟩).failure with
          | some other =>
              simp only [hrun] at h ⊢
              rw [Option.some.inj h]
          | none =>
              simp only [hrun] at h
              contradiction

theorem Format.log_packInto (format : Format) (target : View) (values : List Value) :
    (format.packInto s target values).log =
      Operation.pack.entries (values.length - format.valueCount)
        (format.packInto s target values).failure := by
  cases hfailure : (format.packInto s target values).failure with
  | some failure => exact log_packInto_of_failure s hfailure
  | none =>
      cases hcheck : (checkCapacity format.items target.size).2 with
      | some failure =>
          rw [packInto_of_refused hcheck] at hfailure
          contradiction
      | none =>
          rw [(packInto_ran hcheck s values).log_of_success hfailure, sum_taken,
            length_valueSlots_slotsOf]
          rfl

theorem log_pack (text : Bytes) (values : List Value) :
    (pack text s values).log =
      Operation.pack.entries (Call.pack text values).surplus (pack text s values).failure := by
  rw [pack, Format.ofText, Call.surplus, Layout.format?]
  cases hparse : Format.parse text with
  | error e => rfl
  | ok format =>
      cases hsize : packedSize format.items with
      | error e =>
          simp only [hsize]
          rfl
      | ok required =>
          simp only [hsize]
          split
          · rfl
          · exact format.log_packInto _ _ values

theorem Layout.log_packInto (layout : Layout) (target : View) (values : List Value) :
    (layout.packInto s target values).log =
      Operation.pack.entries (Call.packInto layout target values).surplus
        (layout.packInto s target values).failure := by
  cases layout with
  | items format => exact format.log_packInto s target values
  | text written =>
      rw [packInto, PackedRecord.packInto, Format.ofText, Call.surplus, format?]
      cases hparse : Format.parse written with
      | error e => rfl
      | ok format => exact format.log_packInto s target values

theorem Format.log_unpack (format : Format) (source : View) :
    (format.unpack s source).log =
      Operation.unpack.entries 0 (format.unpack s source).failure := by
  rw [unpack]
  split
  · rfl
  · cases hread : (format.readFrom s source).2 with
    | none | some _ =>
        simp only [hread]
        rfl

theorem Layout.log_unpack (layout : Layout) (source : View) :
    (layout.unpack s source).log =
      Operation.unpack.entries 0 (layout.unpack s source).failure := by
  cases layout with
  | items format => exact format.log_unpack s source
  | text written =>
      rw [unpack, PackedRecord.unpack, Format.ofText]
      cases hparse : Format.parse written with
      | error e => rfl
      | ok format => exact format.log_unpack s source

theorem log_unpackWindows (text : Bytes) (buffer : View) :
    (unpackWindows text buffer).log =
      Operation.unpackWindows.entries 0 (unpackWindows text buffer).failure := by
  rw [unpackWindows]
  split
  · rfl
  · split
    · rfl
    · split <;> rfl

end Operations

/-- All that a call says. -/
theorem Call.log_eq (call : Call) (s : Store) :
    call.log s = call.operation.entries call.surplus (call.failure s) := by
  cases call with
  | pack text values => exact log_pack s text values
  | packInto layout target values => exact layout.log_packInto s target values
  | unpack layout source => exact layout.log_unpack s source
  | unpackWindows text buffer => exact log_unpackWindows text buffer

/-- A failure is logged once: with its message under the name of the operation, and as a
warning exactly if the format has an unknown code. -/
theorem Call.failure_logged {call : Call} {s : Store} {failure : Failure}
    (h : call.failure s = some failure) :
    call.log s =
      [⟨if failure.fault = .pack .unknownFormat then .warn else .debug,
        Bytes.ofString call.operation.name ++ Bytes.ofString ": " ++ failure.message⟩] := by
  rw [log_eq, h, Operation.entries, Operation.logEntry, Fault.logLevel_eq]
  rfl

/-- A code that only a format made by hand can have, and windows without a byte. -/
theorem Call.failure_logged_at_both_levels :
    let s : Store := ⟨[[0, 0, 0]]⟩
    let unknown := Call.packInto (.items ⟨.big, [⟨1, 'b'.toUInt8⟩, ⟨2, 'z'.toUInt8⟩]⟩) ⟨0, 0, 3⟩
      [.int 1]
    let empty := Call.unpackWindows (Bytes.ofChars ['0', 'h']) ⟨0, 0, 3⟩
    unknown.log s = [⟨.warn, Bytes.ofString "pack: unknown format: 2z"⟩] ∧
      empty.log s = [⟨.debug, Bytes.ofString
        "iter_unpack: cannot iteratively unpack with a zero-length format \"0h\""⟩] := by
  intro s unknown empty
  have hunknown : unknown.failure s = some (.unknownCode ⟨2, 'z'.toUInt8⟩) := by decide +kernel
  have hempty : empty.failure s = some (.emptyWindow (Bytes.ofChars ['0', 'h'])) := by
    decide +kernel
  refine ⟨(failure_logged hunknown).trans ?_, (failure_logged hempty).trans ?_⟩
  all_goals
    decide +kernel

theorem Windows.quiet {text : Bytes} {buffer : View}
    (h : (unpackWindows text buffer).failure = none) (s : Store) :
    let w := (unpackWindows text buffer).windows
    (w.walk s).log = [] ∧
      (s.Valid buffer → ∀ actions, (w.run s actions).log = []) := by
  obtain ⟨format, hw, hfits⟩ := exists_fits h
  rw [hw]
  refine ⟨congrArg Walk.log (walk_eq hfits s), ?_⟩
  intro hvalid actions
  exact (onTrack_run hfits hvalid actions).quiet

/-- A success is not logged unless there are values that the format has no place for, and
then there is one entry with their number. Windows that were found are walked over
without an entry, in whatever order and whatever is written in between. -/
theorem Call.success_logged {call : Call} {s : Store} (h : call.failure s = none) :
    (call.surplus = 0 → call.log s = []) ∧
    (0 < call.surplus → call.operation = .pack ∧
      call.log s =
        [⟨.debug, Bytes.ofString "pack: " ++ Bytes.decimal call.surplus ++
          Bytes.ofString " trailing value(s) ignored"⟩]) ∧
    ∀ text buffer, call = .unpackWindows text buffer →
      let w := (PackedRecord.unpackWindows text buffer).windows
      ∀ t : Store, (w.walk t).log = [] ∧
        (t.Valid buffer → ∀ actions, (w.run t actions).log = []) := by
  have hlog : call.log s = trailingNote call.surplus := by
    rw [log_eq, h]
    rfl
  refine ⟨?_, ?_, ?_⟩
  · intro hzero
    rw [hlog, trailingNote, if_pos hzero]
  · intro hpos
    refine ⟨?_, ?_⟩
    · cases call with
      | pack _ _ | packInto _ _ _ => rfl
      | unpack _ _ | unpackWindows _ _ => exact absurd hpos (Nat.lt_irrefl 0)
    · rw [hlog, trailingNote, if_neg (Nat.ne_of_gt hpos)]
  · rintro text buffer rfl
    exact Windows.quiet h

/-- Two half-words and three values for them, and windows that leave a byte over. -/
theorem Call.success_logged_surplus :
    let s : Store := ⟨[[1, 0, 2, 0, 3]]⟩
    let text := Bytes.ofChars ['2', 'h']
    (Call.packInto (.text text) ⟨0, 0, 5⟩ [.int 7, .int 8, .int 9]).log s =
        [⟨.debug, Bytes.ofString "pack: 1 trailing value(s) ignored"⟩] ∧
      (Call.packInto (.text text) ⟨0, 0, 5⟩ [.int 7, .int 8]).log s = [] ∧
      ((PackedRecord.unpackWindows text ⟨0, 0, 5⟩).windows.walk s).log = [] := by
  intro s text
  have hmore :
      (Call.packInto (.text text) ⟨0, 0, 5⟩ [.int 7, .int 8, .int 9]).failure s = none := by
    decide +kernel
  have hexact : (Call.packInto (.text text) ⟨0, 0, 5⟩ [.int 7, .int 8]).failure s = none := by
    decide +kernel
  have hwindows : (Call.unpackWindows text ⟨0, 0, 5⟩).failure s = none := by decide +kernel
  refine ⟨((success_logged hmore).2.1 (by decide +kernel)).2.trans (by decide +kernel),
    (success_logged hexact).1 (by decide +kernel), ?_⟩
  exact ((success_logged hwindows).2.2 text ⟨0, 0, 5⟩ rfl s).1

/-- Not every success is quiet: one byte and two values for it. -/
theorem Call.success_not_quiet :
    let call := Call.pack (Bytes.ofChars ['b']) [.int 1, .int 2]
    call.failure ⟨[]⟩ = none ∧
      call.log ⟨[]⟩ = [⟨.debug, Bytes.ofString "pack: 1 trailing value(s) ignored"⟩] ∧
      call.log ⟨[]⟩ ≠ [] := by
  decide +kernel

end PackedRecord
