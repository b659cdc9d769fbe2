import PlvmHomeworks.Lib.Cycles
import PlvmHomeworks.Lib.Dataflow
import PlvmHomeworks.Lib.Events
import PlvmHomeworks.Lib.Holders
import PlvmHomeworks.Lib.Linear
import PlvmHomeworks.Lib.Numerals
import PlvmHomeworks.Lib.Outcome
import PlvmHomeworks.Lib.Runs
import PlvmHomeworks.Lib.Sliding
import PlvmHomeworks.Lib.Sorting
import PlvmHomeworks.Lib.Threads
import PlvmHomeworks.Lib.Worklist
import PlvmHomeworks.Tools.Opcode
import PlvmHomeworks.Tools.Bytefile
import PlvmHomeworks.Tools.InstReader
import PlvmHomeworks.Tools.Functors
import PlvmHomeworks.Tools.Verify
import PlvmHomeworks.Tools.Decode
import PlvmHomeworks.Tools.Accepted
import PlvmHomeworks.Runtime.Heap
import PlvmHomeworks.Runtime.Gc
import PlvmHomeworks.Runtime.Bounds
import PlvmHomeworks.Runtime.Layout
import PlvmHomeworks.Runtime.Mark
import PlvmHomeworks.Runtime.Compact
import PlvmHomeworks.Runtime.Collect
import PlvmHomeworks.Runtime.Allocation
import PlvmHomeworks.Tools.Interprete
import PlvmHomeworks.Tools.Machine
import PlvmHomeworks.Tools.Messages
import PlvmHomeworks.Tools.Frames
import PlvmHomeworks.Tools.ControlFlow
import PlvmHomeworks.Tools.Prologue
import PlvmHomeworks.Tools.Operands
import PlvmHomeworks.Tools.Variables
import PlvmHomeworks.Tools.Arguments
import PlvmHomeworks.Tools.Joins
import PlvmHomeworks.Tools.CallReturn
import PlvmHomeworks.Tools.Transfer
import PlvmHomeworks.Tools.FalseAlarms
import PlvmHomeworks.Tools.Values
import PlvmHomeworks.Tools.Patterns
import PlvmHomeworks.Tools.Addressing
import PlvmHomeworks.Tools.Aggregates
import PlvmHomeworks.Tools.Construction
import PlvmHomeworks.Tools.Tuples
import PlvmHomeworks.Tools.TagHash
import PlvmHomeworks.Tools.Sections
import PlvmHomeworks.Tools.Grammar
import PlvmHomeworks.Tools.Jumps
import PlvmHomeworks.Tools.Calls
import PlvmHomeworks.Tools.CodeOnly
import PlvmHomeworks.Tools.Contained
import PlvmHomeworks.Tools.VerifierBounds
import PlvmHomeworks.Tools.Termination
import PlvmHomeworks.Tools.Accessors
import PlvmHomeworks.Tools.Stats
import PlvmHomeworks.Tools.Idioms
import PlvmHomeworks.Tools.IdiomPairs
import PlvmHomeworks.Tools.IdiomCounts
import PlvmHomeworks.Tools.Printer
import PlvmHomeworks.Tools.Strays
import PlvmHomeworks.Tools.StackBounds
import PlvmHomeworks.Tools.Binops
import PlvmHomeworks.Tools.RootWords
import PlvmHomeworks.Tools.Tended
import PlvmHomeworks.Tools.Roots
import PlvmHomeworks.ParallelMemcpy.Blocks
import PlvmHomeworks.ParallelMemcpy.Partition
import PlvmHomeworks.ParallelMemcpy.ThreadPool
import PlvmHomeworks.ParallelMemcpy.Completion
import PlvmHomeworks.Mempool.Registry
import PlvmHomeworks.Mempool.Exclusion
import PlvmHomeworks.Lib.Slots
import PlvmHomeworks.Mempool.Calls
import PlvmHomeworks.Mempool.Handler
import PlvmHomeworks.NonBlockingPool.Registry
import PlvmHomeworks.NonBlockingPool.Ownership
import PlvmHomeworks.NonBlockingPool.Linearizable
import PlvmHomeworks.NonBlockingPool.Attribution
import PlvmHomeworks.Lib.Tickets
import PlvmHomeworks.NonBlockingPool.Allocators
import PlvmHomeworks.NonBlockingPool.PoolBlocks
import PlvmHomeworks.NonBlockingPool.Construction
import PlvmHomeworks.Mempool.Construction
import PlvmHomeworks.StringPtr.CString
import PlvmHomeworks.StringPtr.Allocation
import PlvmHomeworks.StringPtr.Members
import PlvmHomeworks.StringPtr.Ownership
import PlvmHomeworks.StringPtr.Lifetime
import PlvmHomeworks.CacheMetrics.Chains
import PlvmHomeworks.Library.Order
import PlvmHomeworks.Library.Observations
import PlvmHomeworks.Semantics.Refine
