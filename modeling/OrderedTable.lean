import OrderedTable.Bytes.Basic
import OrderedTable.Bytes.Mixing
import OrderedTable.Bytes.Storage
import OrderedTable.Catalogue.Basic
import OrderedTable.Catalogue.Specimens
import OrderedTable.Datum.Basic
import OrderedTable.Datum.Reading
import OrderedTable.Datum.Summary
import OrderedTable.Datum.View
import OrderedTable.Decimal.Shortest
import OrderedTable.Fault
import OrderedTable.Guarded.Basic
import OrderedTable.Guarded.Operations
import OrderedTable.Json.Basic
import OrderedTable.Json.Export
import OrderedTable.Json.Import
import OrderedTable.Kind.Basic
import OrderedTable.Kind.Copy
import OrderedTable.Kind.Digest
import OrderedTable.Kind.Format
import OrderedTable.Kind.Order
import OrderedTable.Kind.Scalar
import OrderedTable.Kind.Values
import OrderedTable.Markup.Export
import OrderedTable.Markup.Scan
import OrderedTable.Proofs.Bytes.Bijective
import OrderedTable.Proofs.Datum.Alike
import OrderedTable.Proofs.Datum.Copying
import OrderedTable.Proofs.Datum.Exact
import OrderedTable.Proofs.Datum.Keeping
import OrderedTable.Proofs.Datum.Nesting
import OrderedTable.Proofs.Datum.Parts
import OrderedTable.Proofs.Datum.Rebuilding
import OrderedTable.Proofs.Datum.Whole
import OrderedTable.Proofs.Guarded.Marks
import OrderedTable.Proofs.Guarded.Reentry
import OrderedTable.Proofs.Json.Extent
import OrderedTable.Proofs.Json.Known
import OrderedTable.Proofs.Json.Making
import OrderedTable.Proofs.Json.Members
import OrderedTable.Proofs.Json.Streaming
import OrderedTable.Proofs.Json.Stripping
import OrderedTable.Proofs.Linked.Basic
import OrderedTable.Proofs.Linked.Integrity
import OrderedTable.Proofs.Linked.Iteration
import OrderedTable.Proofs.Linked.Representation
import OrderedTable.Proofs.Linked.Simulation
import OrderedTable.Proofs.Markup.Elements
import OrderedTable.Proofs.Markup.Escaping
import OrderedTable.Proofs.Markup.Flat
import OrderedTable.Proofs.Markup.Offsets
import OrderedTable.Proofs.Markup.Openings
import OrderedTable.Proofs.Markup.RoundTrip
import OrderedTable.Proofs.Markup.Searching
import OrderedTable.Proofs.Markup.Totality
import OrderedTable.Proofs.Markup.Wrapper
import OrderedTable.Proofs.Order.Agreement
import OrderedTable.Proofs.Order.Pivot
import OrderedTable.Proofs.Order.Preorder
import OrderedTable.Proofs.Order.Specimens
import OrderedTable.Proofs.Order.Structural
import OrderedTable.Proofs.Table.Alongside
import OrderedTable.Proofs.Table.Assembly
import OrderedTable.Proofs.Table.Canonical
import OrderedTable.Proofs.Table.Conversion
import OrderedTable.Proofs.Table.Copies
import OrderedTable.Proofs.Table.Filing
import OrderedTable.Proofs.Table.Gathering
import OrderedTable.Proofs.Table.Grading
import OrderedTable.Proofs.Table.Halving
import OrderedTable.Proofs.Table.History
import OrderedTable.Proofs.Table.Ledger
import OrderedTable.Proofs.Table.Lookup
import OrderedTable.Proofs.Table.Mapping
import OrderedTable.Proofs.Table.Neighbours
import OrderedTable.Proofs.Table.Operation
import OrderedTable.Proofs.Table.Refiling
import OrderedTable.Proofs.Table.Removal
import OrderedTable.Proofs.Table.Shape
import OrderedTable.Proofs.Table.StructuredKeys
import OrderedTable.Proofs.Text.Positions
import OrderedTable.Proofs.Wire.Accounting
import OrderedTable.Proofs.Wire.Blocks
import OrderedTable.Proofs.Wire.Capacity
import OrderedTable.Proofs.Wire.Decoder
import OrderedTable.Proofs.Wire.Delimited
import OrderedTable.Proofs.Wire.Delivery
import OrderedTable.Proofs.Wire.Depth
import OrderedTable.Proofs.Wire.InPlace
import OrderedTable.Proofs.Wire.Keeping
import OrderedTable.Proofs.Wire.Mirror
import OrderedTable.Proofs.Wire.Normal
import OrderedTable.Proofs.Wire.Prefix
import OrderedTable.Proofs.Wire.Regrouping
import OrderedTable.Proofs.Wire.RoundTrip
import OrderedTable.Proofs.Wire.Sending
import OrderedTable.Proofs.Wire.Trace
import OrderedTable.Proofs.Wire.Truncation
import OrderedTable.Proofs.Wire.Written
import OrderedTable.Table.Access
import OrderedTable.Table.Listing
import OrderedTable.Table.Placement
import OrderedTable.Table.Walk
import OrderedTable.Text.Blank
import OrderedTable.Text.Lines
import OrderedTable.Text.Quoted
import OrderedTable.Text.Shown
import OrderedTable.Text.Utf8
import OrderedTable.Wire.Decode
import OrderedTable.Wire.Encode
import OrderedTable.Wire.Input
