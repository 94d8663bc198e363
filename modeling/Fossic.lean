import Fossic.KeySort
import Fossic.PrefixCode
import Fossic.Types
import Fossic.Cce
import Fossic.CceCanonical
import Fossic.Glob
import Fossic.Tables
import Fossic.Transition
import Fossic.Append
import Fossic.SystemStream
import Fossic.StoreRuns
import Fossic.VersionHistory
import Fossic.BoundedChannel
import Fossic.HighWater
import Fossic.KeyedList
import Fossic.Subscriptions
import Fossic.Delivery
import Fossic.WalWatch
import Fossic.HealthyDelivery
import Fossic.Fifo
import Fossic.World
import Fossic.WorldInvariant
import Fossic.ChannelDelivery
import Fossic.PostCommit
import Fossic.CrossProcess
import Fossic.SyncDelivery
import Fossic.Checkpoint
import Fossic.History
import Fossic.ReadState
import Fossic.SnapshotCache
import Fossic.SnapshotRuns
import Fossic.Upcasters
import Fossic.CompareAndSwap
import Fossic.Branches
import Fossic.PointerWalk
import Fossic.BranchChain
import Fossic.BranchRace
import Fossic.ClosedBranches
import Fossic.BatchAppend
import Fossic.GapFreeVersions
import Fossic.Paging
import Fossic.ReadOutcome
import Fossic.RangePages
import Fossic.PurgeRecord
import Fossic.Kinship
import Fossic.LevelWalk
import Fossic.LevelReach
import Fossic.ForestWalk
import Fossic.CausationWalk
import Fossic.CausationGraph
import Fossic.CausationPages
import Fossic.WalksAgree
import Fossic.BestScan
import Fossic.ReducerSelection
import Fossic.ChainCache
import Fossic.LiveDelivery
import Fossic.SchemaSetup
import Fossic.SetupPhases
import Fossic.SilentLoss
import Fossic.SystemSubscriptions
import Fossic.Relay
import Fossic.RelayIdentity
import Fossic.SimilarityIndex
import Fossic.MaxHeap
import Fossic.Executor
import Fossic.Incidents
import Fossic.VersionBounds
import Fossic.PagedReads
import Fossic.PageIter
import Fossic.CorrelationPages
import Fossic.PagingProgress
import Fossic.UpcasterChains
import Fossic.BreadthFirst
import Fossic.SqliteGlob
import Fossic.Aggregate
import Fossic.StreamPatterns
import Fossic.TagFilter
import Fossic.TaskDeadlines
import Fossic.SqliteLike
import Fossic.StreamRegistry
import Fossic.HubStreams
import Fossic.SnapshotCounters
import Fossic.ReplayTail
import Fossic.ForeignCursors
import Fossic.DeferredSaves
import Fossic.NodeSubscription
import Fossic.NodeReducers
import Fossic.EventIdHex
import Fossic.DispatchPressure
import Fossic.ReadPool
import Fossic.PointReads
import Fossic.Spacing
import Fossic.Handover
import Fossic.StateMonitors
import Fossic.NamedReducers
import Fossic.GrowingIters
import Fossic.ConsumerRuns
import Fossic.PythonSubscription
import Fossic.TimedSnapshots
import Fossic.StoreLifetimes
import Fossic.RelayRuns
