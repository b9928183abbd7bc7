import TextPool.Bitset.Change
import TextPool.CommandLine.Directory
import TextPool.Main
import TextPool.Pool.Operation
import TextPool.Proofs.LittleEndian
import TextPool.Proofs.Bitset.Search
import TextPool.Proofs.Bitset.Listing
import TextPool.Proofs.Bitset.Refinement
import TextPool.Proofs.Bitset.LinearSearch
import TextPool.Proofs.Bitset.Growth
import TextPool.Proofs.Outcome
import TextPool.Proofs.Stepwise
import TextPool.Proofs.Bytes.Slice
import TextPool.Proofs.Bytes.Search
import TextPool.Proofs.Bytes.Character
import TextPool.Proofs.Bytes.Order
import TextPool.Proofs.Bytes.Layout
import TextPool.Proofs.Bytes.Utf8
import TextPool.Proofs.Table.WellFormed
import TextPool.Proofs.Table.Builder
import TextPool.Proofs.Table.Stored
import TextPool.Proofs.Table.Verdict
import TextPool.Proofs.Table.Stepwise
import TextPool.Proofs.Table.Sharing
import TextPool.Proofs.Pool.Effect
import TextPool.Proofs.Pool.Slots
import TextPool.Proofs.Pool.Sound
import TextPool.Proofs.Pool.Opening
import TextPool.Proofs.Pool.Invariant
import TextPool.Proofs.Pool.Growth
import TextPool.Proofs.Pool.FailedLoad
import TextPool.Proofs.Pool.Refinement
import TextPool.Proofs.Pool.Region
import TextPool.Proofs.Pool.Sweeping
import TextPool.Proofs.Pool.Refusal
import TextPool.Proofs.Pool.Life
import TextPool.Proofs.Pool.Account
import TextPool.Proofs.Pool.Permanent
import TextPool.Proofs.Pool.Missing
import TextPool.Proofs.Pool.Reuse
import TextPool.Proofs.Pool.Independence
import TextPool.Proofs.Pool.Outline
import TextPool.Proofs.Pool.Content
import TextPool.Proofs.Pool.AllocationOrder
import TextPool.Proofs.Pool.Making
import TextPool.Proofs.Pool.Substring
import TextPool.Proofs.Pool.Character
import TextPool.Proofs.Pool.Finding
import TextPool.Proofs.Pool.Comparing
import TextPool.Proofs.Pool.Blanks
import TextPool.Proofs.Pool.Appending
import TextPool.Proofs.Pool.Readable
import TextPool.Proofs.Number.Numeral
import TextPool.Proofs.Number.Rounding
import TextPool.Proofs.Number.Rendering
import TextPool.Proofs.Number.Layout
import TextPool.Proofs.Number.Brief
import TextPool.Proofs.Number.Hexadecimal
import TextPool.Proofs.Pool.Number
import TextPool.Proofs.Pool.Listing
import TextPool.Proofs.Image.Header
import TextPool.Proofs.Image.HeaderCodec
import TextPool.Proofs.Image.RoundTrip
import TextPool.Proofs.Image.Corruption
import TextPool.Proofs.Image.HeaderChange
import TextPool.Proofs.Image.Rewriting
import TextPool.Proofs.Image.Canonical
import TextPool.Proofs.Image.Truncation
import TextPool.Proofs.Pool.Loaded
import TextPool.Proofs.Pool.Delivery
import TextPool.Proofs.Pool.FirstLoad
import TextPool.Proofs.Pool.LoadOutcome
import TextPool.Proofs.CommandLine.Lines
import TextPool.Proofs.CommandLine.Arguments
import TextPool.Proofs.CommandLine.Directory
import TextPool.Proofs.CommandLine.Packing
import TextPool.Proofs.CommandLine.Ending
