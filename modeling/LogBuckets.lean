import LogBuckets.Binary64
import LogBuckets.Bits
import LogBuckets.Cursor.Basic
import LogBuckets.Cursor.Plan
import LogBuckets.Cursor.Reading
import LogBuckets.Cursor.Walk
import LogBuckets.Histogram.Basic
import LogBuckets.Histogram.Run
import LogBuckets.Histogram.Statistics
import LogBuckets.Histogram.Summary
import LogBuckets.Json.Numeral
import LogBuckets.Json.Skip
import LogBuckets.Json.Text
import LogBuckets.Json.Token
import LogBuckets.Layout.Basic
import LogBuckets.Layout.Buckets
import LogBuckets.Layout.Error
import LogBuckets.Layout.Slots
import LogBuckets.Proofs.Binary
import LogBuckets.Proofs.Binary64
import LogBuckets.Proofs.Binary64.Arithmetic
import LogBuckets.Proofs.Binary64.Nearest
import LogBuckets.Proofs.Binary64.Stored
import LogBuckets.Proofs.Cursor.Access
import LogBuckets.Proofs.Cursor.Coverage
import LogBuckets.Proofs.Cursor.Levels
import LogBuckets.Proofs.Cursor.Multiples
import LogBuckets.Proofs.Cursor.PercentileEnd
import LogBuckets.Proofs.Cursor.PercentileLevels
import LogBuckets.Proofs.Cursor.Percentiles
import LogBuckets.Proofs.Cursor.Plan
import LogBuckets.Proofs.Cursor.Position
import LogBuckets.Proofs.Cursor.Recorded
import LogBuckets.Proofs.Cursor.Resting
import LogBuckets.Proofs.Cursor.Run
import LogBuckets.Proofs.Cursor.Slots
import LogBuckets.Proofs.Cursor.Walk
import LogBuckets.Proofs.Histogram.Access
import LogBuckets.Proofs.Histogram.Cells
import LogBuckets.Proofs.Histogram.Counts
import LogBuckets.Proofs.Histogram.Ends
import LogBuckets.Proofs.Histogram.Mean
import LogBuckets.Proofs.Histogram.OrderStatistic
import LogBuckets.Proofs.Histogram.Rank
import LogBuckets.Proofs.Histogram.Recording
import LogBuckets.Proofs.Histogram.Rotation
import LogBuckets.Proofs.Histogram.Samples
import LogBuckets.Proofs.Json.Grammar
import LogBuckets.Proofs.Json.Skip
import LogBuckets.Proofs.Json.Tokens
import LogBuckets.Proofs.Json.Writing
import LogBuckets.Proofs.Layout.Buckets
import LogBuckets.Proofs.Layout.Construction
import LogBuckets.Proofs.Layout.Floor
import LogBuckets.Proofs.Layout.Grid
import LogBuckets.Proofs.Layout.Partition
import LogBuckets.Proofs.Layout.Precision
import LogBuckets.Proofs.Layout.Safety
import LogBuckets.Proofs.Layout.Slots
import LogBuckets.Proofs.Layout.Spans
import LogBuckets.Proofs.Settings.Fields
import LogBuckets.Proofs.Settings.Members
import LogBuckets.Proofs.Settings.RoundTrip
import LogBuckets.Settings.Basic
import LogBuckets.Settings.Reader
import LogBuckets.Settings.Writer
import LogBuckets.Tally
import LogBuckets.Word
