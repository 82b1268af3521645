import DuckDbms.Lib.Machine
import DuckDbms.Lib.ByteMem
import DuckDbms.Lib.Chains
import DuckDbms.Common
import DuckDbms.LockManager
import DuckDbms.LockLaws
import DuckDbms.LockWakeups
import DuckDbms.Lib.WaitsFor
import DuckDbms.Deadlocks
import DuckDbms.SlottedPage
import DuckDbms.PageLaws
import DuckDbms.PageCompaction
import DuckDbms.PageHistory
import DuckDbms.DiskManager
import DuckDbms.Lib.ByteFile
import DuckDbms.DiskFile
import DuckDbms.DiskFileLaws
import DuckDbms.ForeignFiles
import DuckDbms.BufferPool
import DuckDbms.PoolLaws
import DuckDbms.PoolInterleavings
import DuckDbms.PageTraits
import DuckDbms.PoolStore
import DuckDbms.PoolRefinement
import DuckDbms.PoolThreads
import DuckDbms.PoolLoads
import DuckDbms.PoolOrder
import DuckDbms.Lib.Recency
import DuckDbms.FrameChoice
import DuckDbms.FreshPages
import DuckDbms.Lib.Owners
import DuckDbms.PinOwners
import DuckDbms.PinnedPages
import DuckDbms.FailedCalls
import DuckDbms.TableHeap
import DuckDbms.HeapState
import DuckDbms.PageSpace
import DuckDbms.DeadBytes
import DuckDbms.InsertSteps
import DuckDbms.Lib.Threads
import DuckDbms.ConcurrentInserts
import DuckDbms.InsertProgress
import DuckDbms.InsertRuns
import DuckDbms.HeapLaws
import DuckDbms.HeapMap
import DuckDbms.Lib.AtomicObject
import DuckDbms.HeapThreads
import DuckDbms.AtomicCalls
import DuckDbms.HeapGrowth
import DuckDbms.HeapEvictions
import DuckDbms.HeapScan
import DuckDbms.ScanRuns
import DuckDbms.FrameOverruns
import DuckDbms.TableScan
import DuckDbms.Table
import DuckDbms.UndoRows
import DuckDbms.TableLaws
import DuckDbms.Rollback
import DuckDbms.TableLocks
import DuckDbms.Outcomes
import DuckDbms.DirtyReads
import DuckDbms.SharedRollback
import DuckDbms.UpdateSizes
import DuckDbms.RefusedLocks
import DuckDbms.Lib.Serial
import DuckDbms.TwoPhaseLocks
import DuckDbms.TupleAccesses
import DuckDbms.Serializability
import DuckDbms.AbortedTransactions
import DuckDbms.Lib.Layout
import DuckDbms.Tuple
import DuckDbms.TupleLaws
import DuckDbms.TupleLayouts
import DuckDbms.SchemaCodec
import DuckDbms.Catalog
import DuckDbms.ScanPins
import DuckDbms.SchemaBytes
import DuckDbms.HeapDrops
import DuckDbms.CatalogLoad
import DuckDbms.CatalogChains
import DuckDbms.CatalogOverruns
import DuckDbms.Aborts
import DuckDbms.AbortRuns
import DuckDbms.CatalogRows
import DuckDbms.CatalogDrops
import DuckDbms.CatalogCalls
import DuckDbms.CatalogCreates
import DuckDbms.CatalogUndo
import DuckDbms.CatalogRollback
import DuckDbms.DatabaseFile
import DuckDbms.TidyDisks
import DuckDbms.Reopenings
import DuckDbms.Lib.BinaryFloat
import DuckDbms.Expressions
import DuckDbms.Comparisons
import DuckDbms.Lib.Kleene
import DuckDbms.Lib.Pulls
import DuckDbms.Operators
import DuckDbms.Queries
import DuckDbms.QueryErrors
import DuckDbms.ThreeValued
import DuckDbms.Selects
import DuckDbms.DatabaseCalls
import DuckDbms.DatabaseMaps
import DuckDbms.DatabaseRuns
import DuckDbms.PageAccounts
import DuckDbms.LostPages
