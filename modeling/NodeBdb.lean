import NodeBdb.Interaction
import NodeBdb.Calls
import NodeBdb.Txn
import NodeBdb.Attempts
import NodeBdb.Db
import NodeBdb.Operations
import NodeBdb.Calling
import NodeBdb.Opening
import NodeBdb.Success
import NodeBdb.Discipline
import NodeBdb.CursorAgree
import NodeBdb.KeyAgree
import NodeBdb.Contents
import NodeBdb.Walks
import NodeBdb.CutShort
import NodeBdb.Retries
import NodeBdb.Blocks
import NodeBdb.Transition
import NodeBdb.Table
import NodeBdb.TwoPhase
import NodeBdb.Linear
import NodeBdb.LostUpdate
import NodeBdb.Buffers
import NodeBdb.Arguments
import NodeBdb.Wrappers
import NodeBdb.Options
import NodeBdb.Budget
import NodeBdb.Pages
import NodeBdb.Paging
import NodeBdb.System
import NodeBdb.Objects
import NodeBdb.Balance
import NodeBdb.Overtaken
import NodeBdb.Pinned
import NodeBdb.TxnFlag
import NodeBdb.EnvHandle
import NodeBdb.Outlives
import NodeBdb.Handles
import NodeBdb.RangeLocks
import NodeBdb.AtomicObject
import NodeBdb.Moves
import NodeBdb.PageRuns
import NodeBdb.Sessions
import NodeBdb.BtreeCursor
import NodeBdb.Isolation
import NodeBdb.Service
import NodeBdb.Serving
import NodeBdb.Snapshots
import NodeBdb.Compare
import NodeBdb.Wraparound
import NodeBdb.Liveness
import NodeBdb.Memory
import NodeBdb.Release
import NodeBdb.Cost
import NodeBdb.Methods
import NodeBdb.Bisect
import NodeBdb.Lookup
import NodeBdb.Pagewise
import NodeBdb.StoredPages
