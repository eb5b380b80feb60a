import PackedRecord.Report

/-!
The command line: prints the report on its arguments.
-/

open PackedRecord

def main (arguments : List String) : IO UInt32 := do
  let report := Report.ofArguments (arguments.map Bytes.ofString)
  (← IO.getStdout).write ⟨report.out.toArray⟩
  (← IO.getStderr).write ⟨report.err.toArray⟩
  return UInt32.ofNat report.exitCode
