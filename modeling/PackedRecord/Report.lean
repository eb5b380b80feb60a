import PackedRecord.Record.Windows
import PackedRecord.Text.HexDump
import PackedRecord.Value.Text

/-!
The report on records in a hexadecimal text.

The arguments are a format, the text, and two switches that may stand anywhere,
even in the place of the program's name.
The report lists the values of each window on a line, after a dump of the
bytes when that is asked for, and notes the bytes behind the last window.
-/

namespace PackedRecord

/-- What a run leaves behind: its exit code, both streams, and the log level. -/
structure Report where
  exitCode : Nat
  out : Bytes
  err : Bytes
  level : LogLevel
  deriving DecidableEq, Repr

namespace Report

def usage (program : Bytes) : Bytes :=
  Bytes.ofString "用法:\n" ++
  Bytes.ofString "  " ++ program ++
    Bytes.ofString " \"<format>\" \"<hex>\" [--dump] [--verbose]\n" ++
  Bytes.ofString "\n" ++
  Bytes.ofString "format 语法: [@=<>!]? (<count>?[xcbB?hHiIlLqQefdsp])+\n"

def valuesLine (s : Store) (index : Nat) (values : List Value) : Bytes :=
  Bytes.ofString "[" ++ Bytes.decimal index ++ Bytes.ofString "] (" ++
    (Bytes.ofString ", ").intercalate (values.map (·.text s)) ++ Bytes.ofString ")\n"

def valuesLines (s : Store) : (index : Nat) → List (List Value) → List Bytes
  | _, [] => []
  | index, values :: rest => valuesLine s index values :: valuesLines s (index + 1) rest

def hasSwitch (words : List Bytes) (name : String) : Bool :=
  words.contains (Bytes.ofString name)

def dump : HexDump := ⟨16, 0, true, true⟩

/-- The streams and exit code for the windows of a buffer, after what is
already on the output. -/
def ofWindows (level : LogLevel) (s : Store) (windows : Windows) (before : Bytes) : Report :=
  let walk := windows.walk s
  let count := walk.values.length
  let out := before ++ (valuesLines s 0 walk.values).flatten
  match walk.fault with
  | some fault =>
      ⟨1, out,
        Bytes.ofString "第 " ++ Bytes.decimal count ++ Bytes.ofString " 个窗口解包失败: " ++
          Bytes.ofString fault.message ++ Bytes.ofString "\n",
        level⟩
  | none =>
      let left := windows.buffer.size - count * windows.stride
      let note :=
        if left = 0 then []
        else Bytes.ofString "(忽略末尾 " ++ Bytes.decimal left ++ Bytes.ofString " 字节)\n"
      ⟨0, out ++ note, [], level⟩

/-- The report of the program under a name. -/
def ofCall (program : Bytes) (arguments : List Bytes) : Report :=
  match arguments with
  | format :: text :: _ =>
      let words := program :: arguments
      let level := if hasSwitch words "--verbose" then .debug else LogLevel.initial
      match Hex.parse text with
      | .error e =>
          ⟨1, [],
            Bytes.ofString "hex 解析失败: " ++ Bytes.ofString (Fault.core e).message ++
              Bytes.ofString "\n",
            level⟩
      | .ok bs =>
          let (s, buffer) := Store.empty.insert bs
          let before :=
            if hasSwitch words "--dump" then dump.render bs ++ Bytes.ofString "\n" else []
          let found := unpackWindows format buffer
          match found.failure with
          | some failure => ⟨1, before, failure.message ++ Bytes.ofString "\n", level⟩
          | none => ofWindows level s found.windows before
  | _ => ⟨2, usage program, [], LogLevel.initial⟩

def ofArguments (arguments : List Bytes) : Report :=
  ofCall (Bytes.ofString "struct_dump") arguments

end Report

end PackedRecord
