import SciDB.Aggregates.Cumulate
import SciDB.Aggregates.CumulateExact
import SciDB.Aggregates.Grouping
import SciDB.Aggregates.Kernels
import SciDB.DataStore.Allocator
import SciDB.DataStore.FreeAgain
import SciDB.DataStore.FreelistFile
import SciDB.DataStore.Restart
import SciDB.DataStore.Session
import SciDB.DataStore.Store
import SciDB.Distribution.Enumeration
import SciDB.Distribution.Locations
import SciDB.Distribution.Positions
import SciDB.Exchange.Binary
import SciDB.Exchange.BinaryExact
import SciDB.Exchange.Template
import SciDB.Exchange.TextScanner
import SciDB.Exchange.Tsv
import SciDB.Index.Copy
import SciDB.Index.Interchange
import SciDB.Index.Key
import SciDB.Index.Maps
import SciDB.Index.Ownership
import SciDB.Index.Scan
import SciDB.Index.Versions
import SciDB.Lib.Attempt
import SciDB.Lib.Bisect
import SciDB.Lib.Bits
import SciDB.Lib.Buckets
import SciDB.Lib.Buddy
import SciDB.Lib.Bytes
import SciDB.Lib.Checked
import SciDB.Lib.Collapse
import SciDB.Lib.Iteration
import SciDB.Lib.Joins
import SciDB.Lib.Kleene
import SciDB.Lib.Loops
import SciDB.Lib.Odometer
import SciDB.Lib.OrderedMap
import SciDB.Lib.Owners
import SciDB.Lib.Ranges
import SciDB.Lib.Runs
import SciDB.Lib.Seekable
import SciDB.Lib.Simulation
import SciDB.Lib.SortedMerge
import SciDB.Lib.Strides
import SciDB.Lib.Updates
import SciDB.Network.OrderedBcast
import SciDB.Network.OrderedBcastEntering
import SciDB.Network.OrderedBcastExact
import SciDB.Network.OrderedBcastLocal
import SciDB.Operators.Arrays
import SciDB.Operators.CrossJoin
import SciDB.Operators.CrossJoinExact
import SciDB.Operators.IndexLookup
import SciDB.Operators.IndexLookupExact
import SciDB.Operators.JoinDims
import SciDB.Operators.Limit
import SciDB.Operators.Merge
import SciDB.Operators.Slice
import SciDB.Operators.SliceExact
import SciDB.Operators.SubArray
import SciDB.Operators.SubArrayExact
import SciDB.Operators.Uniq
import SciDB.Operators.UniqExact
import SciDB.Query.Completion
import SciDB.Query.Expression
import SciDB.Query.ExpressionCompile
import SciDB.Query.ExpressionExact
import SciDB.Query.ExpressionLayout
import SciDB.Query.ExpressionRun
import SciDB.Query.Filter
import SciDB.Query.FilterExact
import SciDB.Query.FirstError
import SciDB.Replication.Degraded
import SciDB.Replication.Placement
import SciDB.Replication.Responsibility
import SciDB.Replication.SendQueue
import SciDB.Rle.Append
import SciDB.Rle.Appending
import SciDB.Rle.Bitmap
import SciDB.Rle.Buffered
import SciDB.Rle.Copying
import SciDB.Rle.Decoding
import SciDB.Rle.Payload
import SciDB.Rle.Reading
import SciDB.Rle.Tiles
import SciDB.Sorting.External
import SciDB.Sorting.Merge
