import Pinax.Library.Slice
import Pinax.Library.BigEndian
import Pinax.Library.Hoare
import Pinax.Library.SearchNode
import Pinax.Library.Graft
import Pinax.Error
import Pinax.Codec
import Pinax.Page
import Pinax.Row
import Pinax.Disk
import Pinax.Pager
import Pinax.BufferPool
import Pinax.Btree.Layout
import Pinax.Btree.Overflow
import Pinax.Btree.Mutate
import Pinax.Btree.Ops
import Pinax.Database
import Pinax.Verified.SlottedPage
import Pinax.Verified.LeafPage
import Pinax.Verified.Pages
import Pinax.Verified.Pool
import Pinax.Verified.PoolSpec
import Pinax.Verified.Meta
import Pinax.Verified.Flush
import Pinax.Verified.Commit
import Pinax.Verified.Transparency
import Pinax.Verified.Lengths
import Pinax.Verified.RowCodec
import Pinax.Verified.Safe
import Pinax.Verified.LeafSplit
import Pinax.Verified.Outcome
import Pinax.Verified.Opening
import Pinax.Verified.Creation
import Pinax.Verified.Recency
import Pinax.Verified.Session
import Pinax.Verified.Lineage
import Pinax.Verified.PageIds
import Pinax.Verified.Crash
import Pinax.Verified.Damage
import Pinax.Verified.CommitFailure
import Pinax.Verified.WriteBack
import Pinax.Verified.Runs
import Pinax.Verified.Chain
import Pinax.Verified.Spill
import Pinax.Verified.PayloadLen
import Pinax.Verified.InteriorPage
import Pinax.Verified.Tree
import Pinax.Verified.TreeRead
import Pinax.Verified.Lookup
import Pinax.Verified.TreeWrite
import Pinax.Verified.Replace
import Pinax.Verified.LeafInsert
import Pinax.Verified.Mutations
import Pinax.Verified.Deletion
import Pinax.Verified.Contents
import Pinax.Verified.Histories
import Pinax.Verified.Unique
import Pinax.Verified.Overfull
import Pinax.Verified.Faultless
import Pinax.Verified.FirstInsert
import Pinax.Verified.CopyOnWrite
import Pinax.Verified.IdExhaustion
import Pinax.Verified.MapRuns
import Pinax.Verified.LongRows
import Pinax.Verified.Separation
import Pinax.Library.Refinement
import Pinax.Verified.PageCalls
import Pinax.Library.Simulation
import Pinax.Verified.DurableMap
import Pinax.Verified.PathCopy
import Pinax.Verified.Insertion
import Pinax.Library.Grammar
import Pinax.Verified.RowGrammar
import Pinax.Library.Walk
import Pinax.Library.Raises
import Pinax.Library.Lockstep
import Pinax.Verified.Alongside
import Pinax.Verified.Builds
import Pinax.Verified.PageDamage
import Pinax.Verified.Stops
import Pinax.Verified.AnyFile
import Pinax.Library.Packing
import Pinax.Verified.Envelope
import Pinax.Verified.Growth
import Pinax.Lexis
import Pinax.Verified.Schema
import Pinax.Library.Lru
import Pinax.Verified.CacheCost
import Pinax.Verified.ReadCost
