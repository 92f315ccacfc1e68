import Dandelion.Outcome
import Dandelion.CompositionSet
import Dandelion.JoinIterator
import Dandelion.JoinChain
import Dandelion.ShardingOrder
import Dandelion.ChainRuns
import Dandelion.KeyedJoin
import Dandelion.KeyedJoinRuns
import Dandelion.KeyedSharding
import Dandelion.KeyedInnerJoin
import Dandelion.JoinSpec
import Dandelion.JoinCorrectness
import Dandelion.OuterInnerJoin
import Dandelion.Choices
import Dandelion.CrossProduct
import Dandelion.ShardingSafety
import Dandelion.Composition
import Dandelion.ShardingPanics
import Dandelion.RegisteredJoins
import Dandelion.Intervals
import Dandelion.RangePool
import Dandelion.RangePoolRuns
import Dandelion.MemoryPool
import Dandelion.Occupation
import Dandelion.GuestOutput
import Dandelion.GuestOutputSafety
import Dandelion.Dataflow
import Dandelion.DispatchSteps
import Dandelion.DispatchRuns
import Dandelion.CompositionMeaning
import Dandelion.KvmContext
import Dandelion.OverlayEdits
import Dandelion.ContextValidity
import Dandelion.StorageCopies
import Dandelion.KvmWrites
import Dandelion.CopyOnWrite
import Dandelion.KvmReads
import Dandelion.Transfer
import Dandelion.ChunkCopies
import Dandelion.TransferCorrectness
import Dandelion.OutputPositions
import Dandelion.FrameBuf
import Dandelion.PagedBytes
import Dandelion.MessageGrammar
import Dandelion.FrameReaders
import Dandelion.RequestSafety
import Dandelion.PromiseSlot
import Dandelion.PromiseWakeups
import Dandelion.PromiseReclaim
import Dandelion.LinkedLists
import Dandelion.PromiseBuffer
import Dandelion.PromiseOwnership
import Dandelion.ReportedSets
import Dandelion.SurplusSets
import Dandelion.ListsUpTo
import Dandelion.ShardedCalls
import Dandelion.NestedCompositions
import Dandelion.PositionWrites
import Dandelion.Registration
import Dandelion.FaithfulTranslation
import Dandelion.SetAssignments
import Dandelion.OutputSlots
import Dandelion.CompositionParser
import Dandelion.Tokens
import Dandelion.CompositionPrinter
import Dandelion.RegistrationSafety
import Dandelion.FunctionMap
import Dandelion.RegistryInterleavings
import Dandelion.SetUpSafety
import Dandelion.PageFaults
import Dandelion.PageFaultSteps
import Dandelion.PageFaultSafety
import Dandelion.FreeSpace
import Dandelion.Contexts
import Dandelion.SystemTransfers
import Dandelion.Responses
import Dandelion.ResponseDelivery
import Dandelion.InputTransfers
import Dandelion.FunctionInputs
import Dandelion.ShardResults
import Dandelion.ShardOrigins
import Dandelion.CarriedSets
import Dandelion.CombinedShards
import Dandelion.Framing
import Dandelion.RequestDecoding
import Dandelion.ResponseStreaming
import Dandelion.Allocation
import Dandelion.AllocationRuns
import Dandelion.AllocationLimits
import Dandelion.OccupyRuns
import Dandelion.PartitionedSets
import Dandelion.EmptyWrites
import Dandelion.SystemReads
import Dandelion.SystemReadBytes
import Dandelion.OutputDecoding
import Dandelion.InputDecoding
import Dandelion.StoredOverlays
import Dandelion.StoredContexts
import Dandelion.FunctionImages
import Dandelion.StaticImages
import Dandelion.ImageLoading
import Dandelion.SystemChunks
import Dandelion.VectoredStreaming
import Dandelion.BitRuns
import Dandelion.DirtyPages
import Dandelion.ItemPlacement
import Dandelion.InterruptTables
import Dandelion.ContextLayout
import Dandelion.FailedRequests
import Dandelion.Slices
import Dandelion.AsciiText
import Dandelion.HttpRequests
import Dandelion.TicketLock
import Dandelion.WorkQueue
import Dandelion.RangeSequence
import Dandelion.WordTokens
import Dandelion.CompositionKeywords
import Dandelion.ElfParser
import Dandelion.ElfImage
import Dandelion.ElfTables
import Dandelion.ElfDecoding
import Dandelion.ElfPanics
import Dandelion.Substrings
import Dandelion.ElfSymbols
import Dandelion.FlatMemory
import Dandelion.QueueOrder
import Dandelion.Halting
import Dandelion.CallTrees
import Dandelion.CallGraph
import Dandelion.WorkService
import Dandelion.SystemFunctions
import Dandelion.Engines
import Dandelion.Serving
import Dandelion.ServingRuns
import Dandelion.WorkerProcess
import Dandelion.BuiltResponses
import Dandelion.RecordedStores
import Dandelion.GuestStart
import Dandelion.FunctionRuns
