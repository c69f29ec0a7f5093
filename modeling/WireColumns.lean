import WireColumns.Main
import WireColumns.Nesting.BatchReader
import WireColumns.Ragged.Join
import WireColumns.Ragged.RunLength
import WireColumns.Table.Basic
import WireColumns.Wire.Delimited
import WireColumns.Wire.Message
import WireColumns.Wire.Reader
import WireColumns.Proofs.Column.Packing
import WireColumns.Proofs.Column.RoundTrip
import WireColumns.Proofs.Column.Skip
import WireColumns.Proofs.Column.Truncation
import WireColumns.Proofs.Nesting.Batches
import WireColumns.Proofs.Nesting.Required
import WireColumns.Proofs.Column.Concatenation
import WireColumns.Proofs.Column.Composition
import WireColumns.Proofs.Column.Reordering
import WireColumns.Proofs.Column.Selection
import WireColumns.Proofs.Map.Columns
import WireColumns.Proofs.Column.Items
import WireColumns.Proofs.Map.Messages
import WireColumns.Proofs.Nesting.Ancestry
import WireColumns.Proofs.Nesting.LockStep
import WireColumns.Proofs.Table.Batches
import WireColumns.Proofs.Wire.Callers
import WireColumns.Proofs.Wire.Grammar
import WireColumns.Proofs.Ragged.Join
import WireColumns.Proofs.Ragged.Positions
import WireColumns.Proofs.Nesting.WellFormed
import WireColumns.Proofs.Wire.Exactness
import WireColumns.Proofs.Wire.FailedReads
import WireColumns.Proofs.Nesting.Reading
import WireColumns.Proofs.Nesting.Leaves
import WireColumns.Proofs.Nesting.Roots
import WireColumns.Proofs.Wire.Streams
import WireColumns.Proofs.Wire.ItemParts
import WireColumns.Proofs.Column.Slots
import WireColumns.Proofs.Column.Singular
import WireColumns.Proofs.Command.Listing
import WireColumns.Proofs.Nesting.Overflow
import WireColumns.Proofs.Command.Preview
import WireColumns.Proofs.Wire.Skipping
import WireColumns.Proofs.Wire.Draining
