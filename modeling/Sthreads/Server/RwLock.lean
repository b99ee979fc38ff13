/-
The server's readers-writers lock and the bracket in which `thread_consumer`
runs the handlers (`snfs_server/server.c`).

Any number of consumer threads share three counters under the monitor `rw_mon`.
A monitor body is one step: it runs from the moment its thread owns the monitor to
the `monitor_wait` or the `monitor_exit` that gives it up.  Calling a lock
function and running its body are separate steps, because between them the thread
may stand in the monitor's entry queue.
-/
import Sthreads.Lib.Run
import Sthreads.Lib.Monitor
import Mathlib.Logic.Function.Basic

namespace Sthreads.Server

/-- The handlers named in the `Service` table. -/
inductive Handler
  | snfsPing | snfsLookup | snfsRead | snfsWrite | snfsCreate | snfsMkdir | snfsReaddir | snfsCopy
  deriving DecidableEq, Repr

/-- One row of the `Service` table; `isWrite` is `OP_WRITE`. -/
structure Service where
  type : Int
  handler : Handler
  isWrite : Bool
  deriving DecidableEq, Repr

/-- The table `Service`, with the message codes of `snfs_proto.h`. -/
def serviceTable : List Service :=
  [⟨1, .snfsPing, false⟩, ⟨2, .snfsLookup, false⟩, ⟨3, .snfsRead, false⟩,
   ⟨4, .snfsWrite, true⟩, ⟨5, .snfsCreate, true⟩, ⟨6, .snfsMkdir, true⟩,
   ⟨7, .snfsReaddir, false⟩, ⟨8, .snfsCopy, true⟩]

/-- The search of `thread_consumer`: the first row with the request's type. -/
def findService (type : Int) : Option Service := serviceTable.find? fun e => e.type == type

/-- Where a consumer thread is in the bracket around its handler. -/
inductive Pc
  /-- Between two requests: fetching one, or answering the last one. -/
  | fetch
  /-- In `rw_read_lock` or `rw_write_lock`, in `monitor_enter`. -/
  | lock (e : Service)
  /-- In the wait loop of the lock function, inside `monitor_wait`. -/
  | waiting (e : Service)
  /-- Running the handler. -/
  | running (e : Service)
  /-- In `rw_read_unlock` or `rw_write_unlock`, in `monitor_enter`. -/
  | unlock (e : Service)
  deriving DecidableEq, Repr

/-- The monitor, the three counters and the consumer threads. -/
structure RwLock (T : Type) where
  rwMon : Monitor T
  readersActive : Int
  writerActive : Int
  writersWaiting : Int
  pc : T → Pc

/-- The counters start at zero and no thread has a request. -/
def RwLock.init {T : Type} : RwLock T := ⟨Monitor.empty, 0, 0, 0, fun _ => .fetch⟩

section Functions

variable {T : Type} [DecidableEq T]

/-- `monitor_enter` of any of the four functions. -/
def enterRw (s : RwLock T) (t : T) (c : Pc) : RwLock T :=
  { s with rwMon := s.rwMon.enter t, pc := Function.update s.pc t c }

/-- The body of `rw_read_lock`, from the test of its loop. -/
def rwReadLock (s : RwLock T) (t : T) (e : Service) : RwLock T :=
  if s.writerActive ≠ 0 ∨ s.writersWaiting > 0 then
    { s with rwMon := s.rwMon.wait t, pc := Function.update s.pc t (.waiting e) }
  else
    { s with
      readersActive := s.readersActive + 1
      rwMon := s.rwMon.exit
      pc := Function.update s.pc t (.running e) }

/-- The body of `rw_read_unlock`: the last reader signals. -/
def rwReadUnlock (s : RwLock T) (t : T) : RwLock T :=
  let left := s.readersActive - 1
  { s with
    readersActive := left
    rwMon := if left = 0 then s.rwMon.signal.exit else s.rwMon.exit
    pc := Function.update s.pc t .fetch }

/-- The loop of `rw_write_lock` and what follows it. -/
def rwWriteLockLoop (s : RwLock T) (t : T) (e : Service) : RwLock T :=
  if s.writerActive ≠ 0 ∨ s.readersActive > 0 then
    { s with rwMon := s.rwMon.wait t, pc := Function.update s.pc t (.waiting e) }
  else
    { s with
      writersWaiting := s.writersWaiting - 1
      writerActive := 1
      rwMon := s.rwMon.exit
      pc := Function.update s.pc t (.running e) }

/-- The body of `rw_write_lock`: the writer counts itself before its loop. -/
def rwWriteLock (s : RwLock T) (t : T) (e : Service) : RwLock T :=
  rwWriteLockLoop { s with writersWaiting := s.writersWaiting + 1 } t e

/-- The body of `rw_write_unlock`. -/
def rwWriteUnlock (s : RwLock T) (t : T) : RwLock T :=
  { s with
    writerActive := 0
    rwMon := s.rwMon.signal.exit
    pc := Function.update s.pc t .fetch }

/-- What the owner `t` of `rw_mon` does next; a thread with no lock function to run owns nothing. -/
def monitorBody (s : RwLock T) (t : T) : Option (RwLock T) :=
  match s.pc t with
  | .lock e => some (if e.isWrite then rwWriteLock s t e else rwReadLock s t e)
  | .waiting e => some (if e.isWrite then rwWriteLockLoop s t e else rwReadLock s t e)
  | .unlock e => some (if e.isWrite then rwWriteUnlock s t else rwReadUnlock s t)
  | _ => none

/-- The steps of the consumer threads, in any order. -/
inductive RwAct (T : Type)
  /-- `t` takes a request of this type from the ring and looks it up in `Service`. -/
  | request (t : T) (type : Int)
  /-- The owner of `rw_mon` runs its monitor body. -/
  | body
  /-- `t`'s handler returns and the unlock function is called. -/
  | finish (t : T)

/-- One step; a request of unknown type is answered without taking the lock. -/
def rwStep (s : RwLock T) : RwAct T → Option (RwLock T)
  | .request t type =>
      match s.pc t, findService type with
      | .fetch, some e => some (enterRw s t (.lock e))
      | .fetch, none => some s
      | _, _ => none
  | .body =>
      match s.rwMon.owner with
      | some t => monitorBody s t
      | none => none
  | .finish t =>
      match s.pc t with
      | .running e => some (enterRw s t (.unlock e))
      | _ => none

end Functions

/-! ### The program points the counters stand for -/

namespace Pc

/-- Past the wait loop of `rw_read_lock`, before the body of `rw_read_unlock`. -/
def readingB : Pc → Bool
  | .running e => !e.isWrite
  | .unlock e => !e.isWrite
  | _ => false

/-- Past the wait loop of `rw_write_lock`, before the body of `rw_write_unlock`. -/
def writingB : Pc → Bool
  | .running e => e.isWrite
  | .unlock e => e.isWrite
  | _ => false

/-- Inside the wait loop of `rw_write_lock`: waiting, or woken and not yet back in. -/
def writeLoopB : Pc → Bool
  | .waiting e => e.isWrite
  | _ => false

/-- On the way to the write lock. -/
def writeLockB : Pc → Bool
  | .lock e => e.isWrite
  | .waiting e => e.isWrite
  | _ => false

end Pc

end Sthreads.Server
