import Wedb.KeyComposer.Format
import Wedb.Core.Ids
import Wedb.Core.Sweep
import Wedb.Key.Copy
import Wedb.Key.CursorScan
import Wedb.Key.Deadline
import Wedb.Hash.Setex
import Wedb.List.Runs
import Wedb.Cuckoo.Runs
import Wedb.Hll.Runs
import Wedb.Stream.Answers
import Wedb.TimeSeries.Buckets
import Wedb.TimeSeries.Labels
import Wedb.TimeSeries.RoundTrip
import Wedb.Alp.InBounds
import Wedb.Alp.RoundTrip
import Wedb.ZSet.AlgebraStore
import Wedb.Bitmap.Exact
import Wedb.Bloom.Runs
import Wedb.Geo.Store
import Wedb.Json.Commands
import Wedb.Json.Format
import Wedb.Json.Numop
import Wedb.Search.Aggregate
import Wedb.Search.HnswExact
import Wedb.Search.NodePack
import Wedb.Search.Sug
import Wedb.Search.Tags
import Wedb.Search.Vector
import Wedb.SortedInt.Paging
import Wedb.String.Counter
import Wedb.String.LcsRanges
import Wedb.String.Multi
import Wedb.String.Range
import Wedb.TDigest.Rank
import Wedb.TDigest.Runs
