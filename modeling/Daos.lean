import Daos.Types
import Daos.Lib.Stripe
import Daos.Lib.Cuts
import Daos.Lib.Keyed
import Daos.Object.EcRecx
import Daos.Container.Aggregate
import Daos.Vos.Ilog.Basic
import Daos.Vos.Ilog.Modify
import Daos.Vos.Ilog.Wf
import Daos.Vos.Ilog.Fetch
import Daos.Vos.Ilog.Aggregate
import Daos.Vos.Ilog.Parse
import Daos.Vos.Ilog.Run
import Daos.Vos.Ilog.Cache
import Daos.Vos.Evt.Sort
import Daos.Object.EcLayout
import Daos.Lib.Segments
import Daos.Client.ArrayIo
import Daos.Lib.Intervals
import Daos.Lib.Runs
import Daos.Pool.Map
import Daos.Pool.RfVerify
import Daos.Pool.Buf
import Daos.Pool.BufRoundTrip
import Daos.Control.HostRange
import Daos.Control.HostList
import Daos.Control.HostParse
import Daos.Control.RankSet
import Daos.Control.HostSeq
import Daos.Vea.Bitmap
import Daos.Vea.Verify
import Daos.Bio.Wal
import Daos.Common.Ace
import Daos.Common.Acl
import Daos.Lib.Bytes
import Daos.Lib.RankedMap
import Daos.Object.EcSingv
import Daos.Object.IodBreak
import Daos.Object.EcAggregate
import Daos.Vos.Evt.Remove
import Daos.Common.Checksum
import Daos.Gurt.Hlc
import Daos.Vos.Evt.DataLoss
import Daos.Cart.Tree
import Daos.Gurt.Heap
import Daos.Lib.BinHeap
import Daos.Gurt.HeapQueue
import Daos.Gurt.HeapRun
import Daos.Common.AceStr
import Daos.Vos.Evt.RectDf
import Daos.Rdb.Path
import Daos.Rdb.Tx
import Daos.Lib.Cycle
import Daos.Lib.LruMap
import Daos.Vos.Lru.Array
import Daos.Vos.Lru.Links
import Daos.Vos.Lru.Refine
import Daos.Vos.Lru.Run
import Daos.Vos.Lru.Policy
import Daos.Lib.Buckets
import Daos.Lib.Multimap
import Daos.Gurt.Hash
import Daos.Gurt.HashView
import Daos.Gurt.Hhash
import Daos.Gurt.HashRun
import Daos.Gurt.HhashRun
import Daos.Gurt.HhashRef
import Daos.Common.LruCache
import Daos.Common.LruCacheWf
import Daos.Common.LruCacheRun
import Daos.Cart.Swim
import Daos.Cart.SwimView
import Daos.Cart.SwimRun
