import PackedRecord.Main
import PackedRecord.Proofs.Field.Slot
import PackedRecord.Record.Pack
import PackedRecord.Store.Search
import PackedRecord.Text.Encoding
import PackedRecord.Proofs.Field.Place
import PackedRecord.Proofs.Field.Fill
import PackedRecord.Proofs.Field.Pack
import PackedRecord.Proofs.Format.Size
import PackedRecord.Proofs.Record.Run
import PackedRecord.Proofs.Store.Insert
import PackedRecord.Proofs.Record.Frame
import PackedRecord.Proofs.Field.Canonical
import PackedRecord.Proofs.Record.Canonical
import PackedRecord.Proofs.Record.RoundTrip
import PackedRecord.Proofs.Format.Grammar
import PackedRecord.Proofs.Field.Live
import PackedRecord.Proofs.Record.Iteration
import PackedRecord.Proofs.Field.Stepwise
import PackedRecord.Proofs.Field.InPlace
import PackedRecord.Proofs.Record.InPlace
import PackedRecord.Proofs.Record.Refusal
import PackedRecord.Proofs.Field.Confined
import PackedRecord.Proofs.Record.Decoded
import PackedRecord.Proofs.Record.Determined
import PackedRecord.Proofs.Session.Confined
import PackedRecord.Proofs.Format.Joined
import PackedRecord.Proofs.Field.Joined
import PackedRecord.Proofs.Record.Joined
import PackedRecord.Proofs.Field.Mirror
import PackedRecord.Proofs.Record.Mirror
import PackedRecord.Proofs.Session.Logged
import PackedRecord.Proofs.Text.Encoding
import PackedRecord.Proofs.Text.Base64
import PackedRecord.Proofs.Report
import PackedRecord.Proofs.Floating.Rounding
import PackedRecord.Proofs.Field.Integer
import PackedRecord.Proofs.Record.Repeated
import PackedRecord.Proofs.Field.Counted
import PackedRecord.Proofs.Field.Progress
import PackedRecord.Proofs.Record.Offset
import PackedRecord.Proofs.Record.Stride
import PackedRecord.Proofs.Text.Hex
import PackedRecord.Proofs.Record.Equal
import PackedRecord.Proofs.Session.Live
import PackedRecord.Proofs.Text.HexDump
import PackedRecord.Proofs.Text.Base64.Grammar
import PackedRecord.Proofs.Text.Latin1
import PackedRecord.Proofs.Session.Access
import PackedRecord.Proofs.Session.Copy
import PackedRecord.Proofs.Session.Order
import PackedRecord.Proofs.Session.Search
import PackedRecord.Proofs.Session.Slice
import PackedRecord.Proofs.Text.HexDump.Layout
