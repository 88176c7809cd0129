import BeamModular.Lib.Word
import BeamModular.Lib.CString
import BeamModular.Lib.Directory
import BeamModular.Lib.Memory
import BeamModular.Lib.Moves
import BeamModular.Lib.Chain
import BeamModular.Lib.Buckets
import BeamModular.Lib.Teardown
import BeamModular.Lib.Reach
import BeamModular.Lib.Run
import BeamModular.Lib.Lines
import BeamModular.Lib.Blocks
import BeamModular.Lib.Sized
import BeamModular.Core.Term
import BeamModular.Core.Denote
import BeamModular.Core.Read
import BeamModular.Core.Graph
import BeamModular.Core.Vm
import BeamModular.Messaging.Mailbox
import BeamModular.Messaging.Cursor
import BeamModular.Messaging.Concurrent
import BeamModular.Messaging.Conservation
import BeamModular.Messaging.Producers
import BeamModular.Scheduler.Process
import BeamModular.Scheduler.Isolation
import BeamModular.Scheduler.Growth
import BeamModular.Scheduler.Stack
import BeamModular.Scheduler.Request
import BeamModular.Memory.Copy
import BeamModular.Memory.Gc
import BeamModular.Memory.Lists
import BeamModular.Memory.Packing
import BeamModular.Memory.Dangling
import BeamModular.Memory.Arena
import BeamModular.Memory.ArenaBlocks
import BeamModular.Memory.SystemAlloc
import BeamModular.Emulator.Bif
import BeamModular.Emulator.Emu
import BeamModular.Emulator.Budget
import BeamModular.Emulator.Quantum
import BeamModular.Emulator.Arithmetic
import BeamModular.Emulator.Branches
import BeamModular.Emulator.Operands
import BeamModular.Emulator.Untouched
import BeamModular.Emulator.TermMachine
import BeamModular.Emulator.Footprint
import BeamModular.Emulator.InPlace
import BeamModular.Emulator.Closure
import BeamModular.Emulator.Pid
import BeamModular.Emulator.Frames
import BeamModular.Emulator.TailCall
import BeamModular.Emulator.Neighbours
import BeamModular.Emulator.Mirror
import BeamModular.Emulator.Faithful
import BeamModular.Emulator.Delivery
import BeamModular.Emulator.Receive
import BeamModular.Emulator.Suspend
import BeamModular.Emulator.Decode
import BeamModular.Emulator.Framing
import BeamModular.Emulator.DecodeBounds
import BeamModular.Emulator.Translate
import BeamModular.Emulator.Compose
import BeamModular.Emulator.Fields
import BeamModular.Emulator.Header
import BeamModular.Emulator.Load
import BeamModular.Emulator.RoundTrip
import BeamModular.Emulator.Chunks
import BeamModular.Emulator.Release
import BeamModular.Emulator.ReturnAddress
import BeamModular.Emulator.Exceptions
import BeamModular.Emulator.Shortcut
import BeamModular.Emulator.CodeServer
import BeamModular.Emulator.Modules
import BeamModular.Messaging.Sharing
import BeamModular.Scheduler.RunQueue
import BeamModular.Scheduler.Fifo
import BeamModular.Scheduler.Loop
import BeamModular.Scheduler.Preemption
import BeamModular.Scheduler.Resume
import BeamModular.Scheduler.Accounting
import BeamModular.Scheduler.Fairness
import BeamModular.Scheduler.Pool
import BeamModular.Scheduler.TermPool
import BeamModular.Scheduler.Priority
import BeamModular.Scheduler.PoolBalance
import BeamModular.Scheduler.PoolMessages
import BeamModular.Scheduler.Idle
import BeamModular.Scheduler.PoolCreate
import BeamModular.Scheduler.PoolStart
import BeamModular.Global.Ets
import BeamModular.Global.EtsKinds
import BeamModular.Global.EtsStacks
import BeamModular.Memory.NoLeaks
import BeamModular.Emulator.Lifecycle
import BeamModular.Global.Counters
import BeamModular.Global.Equality
import BeamModular.Global.AtomTable
import BeamModular.Global.Lookup
import BeamModular.Global.ArenaAtoms
import BeamModular.Global.DistNode
import BeamModular.Emulator.Collections
