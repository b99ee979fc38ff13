import Sthreads.Lib.Run
import Sthreads.Lib.Monitor
import Sthreads.Lib.Count
import Sthreads.Lib.RingBuffer
import Sthreads.Lib.Prog
import Sthreads.Lib.Cache
import Sthreads.Lib.Heap
import Sthreads.Lib.LinkedList
import Sthreads.Client.Message
import Sthreads.Server.RwLock
import Sthreads.Proofs.Server.RwAccounting
import Sthreads.Proofs.Server.RwStranded
import Sthreads.Server.Ring
import Sthreads.Proofs.Server.RingOrder
import Sthreads.Proofs.Server.RingProgress
import Sthreads.Lib.Linearize
import Sthreads.Lib.Simulation
import Sthreads.Lib.RootedTree
import Sthreads.Proofs.Snfs.Namespace
import Sthreads.Proofs.Snfs.Remount
import Sthreads.Server.System
import Sthreads.Server.Process
import Sthreads.Proofs.Server.SystemSteps
import Sthreads.Proofs.Server.Linearizable
import Sthreads.Proofs.Server.Progress
import Sthreads.Proofs.Server.Drain
import Sthreads.Client.Remote
import Sthreads.Proofs.Client.OwnAnswer
import Sthreads.User.Thread
import Sthreads.User.Sched
import Sthreads.User.Queue
import Sthreads.Proofs.User.Queues
import Sthreads.Proofs.User.Runqueue
import Sthreads.Proofs.User.Placed
import Sthreads.Proofs.User.Dispatch
import Sthreads.Proofs.User.Effect
import Sthreads.Proofs.User.Refine
import Sthreads.Proofs.User.Epoch
import Sthreads.Proofs.User.OnePlace
import Sthreads.Proofs.User.NextThread
import Sthreads.Proofs.User.Interrupts
import Sthreads.Proofs.User.MutexSafety
import Sthreads.Lib.MonitorOps
import Sthreads.Lib.MonitorView
import Sthreads.Proofs.User.LockOrder
import Sthreads.Proofs.User.Sections
import Sthreads.Proofs.User.MonitorCalls
import Sthreads.Proofs.Server.ProcessThreads
import Sthreads.Proofs.Server.ProcessLock
import Sthreads.Proofs.Server.ProcessRw
import Sthreads.Proofs.Server.ProcessRing
import Sthreads.Proofs.Server.ProcessTurns
import Sthreads.Proofs.Server.ProcessRefines
import Sthreads.Proofs.Server.ProcessRuns
import Sthreads.Proofs.Server.ProcessStatements
import Sthreads.Proofs.Server.ProcessAlive
import Sthreads.Proofs.User.LastThread
import Sthreads.Proofs.User.Tick
import Sthreads.Proofs.User.Nice
import Sthreads.Proofs.User.Yield
import Sthreads.Proofs.User.ControlBlocks
import Sthreads.Proofs.User.Quantum
import Sthreads.Proofs.User.Classes
import Sthreads.Proofs.User.BlockedList
import Sthreads.Proofs.User.Join
import Sthreads.Proofs.User.Sleep
import Sthreads.Proofs.User.Fairness
import Sthreads.Proofs.User.ExitValue
import Sthreads.Snfs.Block
import Sthreads.Snfs.Types
import Sthreads.Snfs.Image
import Sthreads.Snfs.Code
import Sthreads.Snfs.Cached
import Sthreads.Snfs.Plain
import Sthreads.Snfs.Interface
import Sthreads.Snfs.Proto
import Sthreads.Snfs.Service
import Sthreads.Snfs.Tree
import Sthreads.Proofs.Snfs.BlockStore
import Sthreads.Proofs.Snfs.View
import Sthreads.Proofs.Snfs.Metadata
import Sthreads.Proofs.Snfs.PageCaches
import Sthreads.Proofs.Snfs.PageAccess
import Sthreads.Proofs.Snfs.CachedSound
import Sthreads.Proofs.Snfs.PlainSound
import Sthreads.Proofs.Snfs.Layout
import Sthreads.Proofs.Snfs.Readers
import Sthreads.Proofs.Snfs.Writing
import Sthreads.Proofs.Snfs.Creating
import Sthreads.Proofs.Snfs.Format
import Sthreads.Proofs.Snfs.Calls
import Sthreads.Snfs.Contents
import Sthreads.Proofs.Snfs.Contents
import Sthreads.Proofs.Snfs.Invariant
import Sthreads.Proofs.Snfs.ByteArrays
import Sthreads.Proofs.Snfs.Durability
import Sthreads.Snfs.Answers
import Sthreads.Proofs.Snfs.Service
import Sthreads.Proofs.Snfs.Unchanged
import Sthreads.Proofs.Snfs.InodeCache
import Sthreads.Proofs.Snfs.FailedWrite
import Sthreads.Proofs.Snfs.Marks
import Sthreads.Proofs.Snfs.Listing
import Sthreads.Proofs.Snfs.Lookup
import Sthreads.Proofs.Snfs.Entries
import Sthreads.Proofs.Snfs.Exits
import Sthreads.Proofs.Snfs.Handles
import Sthreads.Proofs.Snfs.Requests
import Sthreads.Proofs.Snfs.Findable
import Sthreads.Proofs.Snfs.LookupAnswer
import Sthreads.Proofs.Snfs.Reformat
import Sthreads.Snfs.ReadPool
import Sthreads.Client.Api
import Sthreads.Client.Myfs
import Sthreads.Client.OpenFiles
import Sthreads.Client.Session
import Sthreads.Client.Replicas
import Sthreads.Proofs.Snfs.ReadPool
import Sthreads.Proofs.Client.Marshalling
import Sthreads.Proofs.Snfs.Bounds
import Sthreads.Proofs.Client.Served
import Sthreads.Proofs.Client.Files
import Sthreads.Proofs.Client.Pieces
import Sthreads.Proofs.Client.ChunkedIo
import Sthreads.Proofs.Client.PathSplitting
import Sthreads.Proofs.Client.PathGrammar
import Sthreads.Proofs.Client.Descriptors
import Sthreads.Proofs.Client.OpenFiles
import Sthreads.Proofs.Client.Sessions
import Sthreads.Client.Listdir
import Sthreads.Proofs.Client.Listdir
import Sthreads.Proofs.Client.WriteResult
import Sthreads.Proofs.Client.ReadResult
import Sthreads.Proofs.Client.Executing
import Sthreads.Proofs.Client.ReplicaAgreement
