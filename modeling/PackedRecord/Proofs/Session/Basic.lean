import PackedRecord.Proofs.Field.Slot
import PackedRecord.Record.Pack
import PackedRecord.Record.Windows

/-!
Sessions.

A session holds on to views of one store: to those it asked for, to those that
were unpacked as texts, and to those of its iterators. It begins without any,
and every action names the views it uses among the live ones. Sizes and places
are words of 64 bits, as callers give them.
-/

namespace PackedRecord

/-- The buffer in a value. -/
def Value.buffer? : Value → Option View
  | bytes v => some v
  | _ => none

/-- The buffers among values. -/
def Value.buffers (values : List Value) : List View :=
  values.filterMap buffer?

/-- A number for one of the writes of fixed width. -/
inductive Datum where
  | integer (size : IntSize) (n : Int)
  | half (x : Binary64)
  | single (x : Binary32)
  | double (x : Binary64)
  deriving DecidableEq, Repr

def Store.put (s : Store) (v : View) (order : ByteOrder) (offset : Nat) :
    Datum → Except CoreError Store
  | .integer size n => s.writeInt v order offset size.width n
  | .half x => s.writeBinary16 v order offset x
  | .single x => s.writeBinary32 v order offset x
  | .double x => s.writeBinary64 v order offset x

/-- A format text, or a format made by hand. -/
inductive Layout where
  | text (written : Bytes)
  | items (format : Format)
  deriving DecidableEq, Repr

namespace Layout

def packInto (layout : Layout) (s : Store) (target : View) (values : List Value) : Packed :=
  match layout with
  | .text written => PackedRecord.packInto written s target values
  | .items format => format.packInto s target values

def unpack (layout : Layout) (s : Store) (source : View) : Unpacked :=
  match layout with
  | .text written => PackedRecord.unpack written s source
  | .items format => format.unpack s source

end Layout

namespace Session

/-- A value to pack: one without bytes, or a live view. -/
inductive Operand where
  | plain (value : Value) (numeric : value.isNumeric)
  | live (i : Nat)
  deriving DecidableEq, Repr

/-- A change through a view. A cell is set at an index within the view; beyond its end
there is nothing to set. -/
inductive Change where
  | copy (source : Nat) (targetStart sourceStart sourceStop : UInt64)
  | fill (value : UInt8)
  | set (index : UInt64) (value : UInt8)
  | put (order : ByteOrder) (offset : UInt64) (datum : Datum)
  | packItem (order : ByteOrder) (item : Item) (offset : UInt64) (operands : List Operand)
  | packInto (layout : Layout) (operands : List Operand)
  deriving DecidableEq, Repr

inductive Action where
  | alloc (size : UInt64)
  | make (data : Bytes) (fits : data.length < sizeLimit)
  | share (i : Nat)
  | slice (i : Nat) (start stop : UInt64)
  | drop (i : Nat)
  | change (i : Nat) (change : Change)
  | unpack (i : Nat) (layout : Layout)
  | unpackItem (i : Nat) (order : ByteOrder) (item : Item) (offset : UInt64)
  | unpackWindows (i : Nat) (text : Bytes)
  | range (i : Nat) (text : Bytes) (stride : UInt64)
  | next (i : Nat)
  | restart (i : Nat)
  deriving DecidableEq, Repr

/-- A new buffer is made, with storage of its own. -/
def Action.isNew : Action → Bool
  | alloc _ | make _ _ => true
  | _ => false

/-- A cursor together with the windows it walks over. -/
structure Iterator where
  windows : Windows
  cursor : Cursor
  deriving DecidableEq, Repr

namespace Iterator

def start (w : Windows) (s : Store) : Iterator :=
  ⟨w, (w.start s).1⟩

def next (s : Store) (it : Iterator) : Iterator :=
  ⟨it.windows, (it.windows.next s it.cursor).1⟩

def restart (s : Store) (it : Iterator) : Iterator :=
  start it.windows s

def live (it : Iterator) : List View :=
  it.windows.buffer :: it.cursor.rest :: Value.buffers it.cursor.values

end Iterator

end Session

structure Session where
  store : Store
  views : List View
  iterators : List Session.Iterator
  deriving DecidableEq, Repr

namespace Session

def empty : Session := ⟨.empty, [], []⟩

/-- All views that a session can still use. -/
def live (σ : Session) : List View :=
  σ.views ++ σ.iterators.flatMap Iterator.live

/-- A live view; any other index stands for a buffer without storage. -/
def view (σ : Session) (i : Nat) : View :=
  σ.live.getD i .empty

def operand (σ : Session) : Operand → Value
  | .plain value _ => value
  | .live i => .bytes (σ.view i)

/-- The store after a change. A write that is refused changes nothing. -/
def changed (σ : Session) (target : View) : Change → Store
  | .copy source targetStart sourceStart sourceStop =>
      (σ.store.copy (σ.view source) target targetStart.toNat sourceStart.toNat
        sourceStop.toNat).1
  | .fill value => σ.store.fill target value
  | .set index value =>
      σ.store.write (target.slice index.toNat (index.toNat + 1)) [value]
  | .put order offset datum =>
      match σ.store.put target order offset.toNat datum with
      | .ok t => t
      | .error _ => σ.store
  | .packItem order item offset operands =>
      (item.pack order target (operands.map σ.operand) σ.store offset.toNat).store
  | .packInto layout operands =>
      (layout.packInto σ.store target (operands.map σ.operand)).store

def keep (σ : Session) (views : List View) : Session :=
  { σ with views := σ.views ++ views }

/-- Takes on a store with a new buffer. -/
def adopt (σ : Session) (made : Store × View) : Session :=
  { σ with store := made.1, views := σ.views ++ [made.2] }

def iterate (σ : Session) (w : Windows) : Session :=
  { σ with iterators := σ.iterators ++ [.start w σ.store] }

def step (σ : Session) : Action → Session
  | .alloc size => σ.adopt (σ.store.alloc size.toNat)
  | .make data _ => σ.adopt (σ.store.insert data)
  | .share i => σ.keep [σ.view i]
  | .slice i start stop => σ.keep [(σ.view i).slice start.toNat stop.toNat]
  | .drop i => { σ with views := σ.views.eraseIdx i }
  | .change i change => { σ with store := σ.changed (σ.view i) change }
  | .unpack i layout => σ.keep (Value.buffers (layout.unpack σ.store (σ.view i)).values)
  | .unpackItem i order item offset =>
      σ.keep (Value.buffers (item.unpack order σ.store (σ.view i) offset.toNat).values)
  | .unpackWindows i text => σ.iterate (PackedRecord.unpackWindows text (σ.view i)).windows
  | .range i text stride => σ.iterate ⟨σ.view i, text, stride.toNat⟩
  | .next i => { σ with iterators := σ.iterators.modify i (Iterator.next σ.store) }
  | .restart i => { σ with iterators := σ.iterators.modify i (Iterator.restart σ.store) }

def run (actions : List Action) : Session :=
  actions.foldl step empty

/-- The one view whose cells an action may change. -/
def target (σ : Session) : Action → View
  | .alloc size => (σ.store.alloc size.toNat).2
  | .make data _ => (σ.store.insert data).2
  | .change i _ => σ.view i
  | _ => .empty

end Session

end PackedRecord
