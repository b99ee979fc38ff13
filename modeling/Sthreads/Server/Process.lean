/-
The server as a process of the thread library (`snfs_server/server.c` on
`sthread_lib/sthread_user.c`).

The threads of `main`, `thread_consumer` and `thread_producer` run on the scheduler of
`User.Sched`, one statement after the other.  Between any two statements a tick may be delivered,
and a thread that calls the library may lose the processor inside the call.  The two monitors are
monitors 0 and 1 of the library.

A line says which statement a thread executes when it runs user code again.  A test goes with the
call that it guards, and what a thread does to its own variables goes with the next statement.  A
handler's line is one operation on the file system.  A descriptor enters the heap with what
`my_recvfrom` receives into it.

`events` records what the sections of the ring did when they signalled, and what was sent and
freed, and `strtokBy` the consumer that called `strtok` last; they are for the statements only.
-/
import Sthreads.Server.System
import Sthreads.User.Sched

namespace Sthreads.Server

open User (Tid Sched)

/-- The monitors `mon` and `rw_mon` of the library. -/
def mon : Nat := 0

def rwMon : Nat := 1

/-- A request descriptor with the bytes of its request. -/
abbrev Descriptor (C : Type) := Req C (Snfs.Page 1036)

/-! ### Program points -/

/-- Where a consumer is in `rw_read_lock` or `rw_write_lock`. -/
inductive LockAt
  /-- In `monitor_enter`, or back from there. -/
  | entering
  /-- A writer has counted itself. -/
  | counted
  /-- In `monitor_wait`, or back from there. -/
  | waiting
  /-- Past the loop. -/
  | past
  /-- A writer no longer counts itself as waiting. -/
  | uncounted
  /-- About to call `monitor_exit`. -/
  | leaving

/-- Where a consumer is in `rw_read_unlock` or `rw_write_unlock`. -/
inductive UnlockAt
  /-- In `monitor_enter`, or back from there. -/
  | entering
  /-- The counter is written, nobody is signalled yet. -/
  | released
  /-- About to call `monitor_exit`, after the signal. -/
  | leaving

/-- Where a consumer is with a request. -/
inductive WorkLine
  | fetched
  | locking (e : Service) (th : Snfs.ReadThread) (pt : LockAt)
  | handling (e : Service) (th : Snfs.ReadThread)
  | unlocking (e : Service) (res : Snfs.Res) (ressz : Nat) (pt : UnlockAt)
  | answered (res : Snfs.Res) (ressz : Nat)

/-- The lines of `thread_consumer`. -/
inductive ConsumerLine
  | idle
  /-- In `monitor_enter` or `monitor_wait`, or at the test of the loop. -/
  | loop
  /-- Past the loop. -/
  | found
  | got (reqD : Option Nat)
  /-- The request is no longer counted. -/
  | taken (reqD : Option Nat)
  | signalled (reqD : Option Nat)
  | serving (reqD : Option Nat) (w : WorkLine)
  | sent (reqD : Nat)
  | yielding

/-- The lines of `thread_producer`. -/
inductive ProducerLine (C : Type)
  | idle
  /-- In `monitor_enter` or `monitor_wait`, or at the test of the loop. -/
  | loop
  | receiving
  | received (reqD : Nat) (d : Descriptor C)
  | put (reqD : Nat) (d : Descriptor C)
  /-- The request is counted. -/
  | counted (reqD : Nat) (d : Descriptor C)
  | signalled
  /-- The datagram was empty and the descriptor is freed. -/
  | empty (reqD : Nat)
  | yielding

/-- The lines of all threads; `k` is a consumer's index in `threads` of `main`. -/
inductive Line (C : Type)
  | unborn
  /-- `main` creates threads; these are created. -/
  | main (threads : List Tid)
  /-- `main` joins threads; these are left. -/
  | join (threads : List Tid)
  | consumer (k : Fin numTc) (c : ConsumerLine)
  | producer (c : ProducerLine C)

/-- The line of a consumer with the request at `p`. -/
def serving {C : Type} (k : Fin numTc) (p : Nat) (w : WorkLine) : Line C :=
  .consumer k (.serving (some p) w)

/-! ### The globals -/

/-- What `mon` protects, and the heap. -/
structure Buffer (C : Type) where
  availableReqs : Int
  ring : Nat → Option Nat
  getPos : Nat
  putPos : Nat
  heap : Nat → Option (Descriptor C)

/-- What `rw_mon` protects. -/
structure Counters where
  readersActive : Int
  writerActive : Int
  writersWaiting : Int
  deriving DecidableEq

/-- The process. -/
structure Process (C : Type) where
  sched : Sched
  line : Tid → Line C
  buffer : Buffer C
  counters : Counters
  fs : Snfs.Fs
  strtokBy : Option (Fin numTc)
  ended : Option Snfs.Halt
  events : List (Event (Fin numTc) C (Snfs.Page 1036) (Snfs.Page 1540))

variable {C : Type}

namespace Buffer

/-- `get_req` -/
def getReq (b : Buffer C) : Option Nat × Buffer C :=
  (b.ring b.getPos, { b with getPos := (b.getPos + 1) % ringSize })

/-- `put_req` -/
def putReq (b : Buffer C) (p : Nat) : Buffer C :=
  { b with
    ring := Function.update b.ring b.putPos (some p)
    putPos := (b.putPos + 1) % ringSize }

/-- `available_reqs += n` -/
def count (b : Buffer C) (n : Int) : Buffer C := { b with availableReqs := b.availableReqs + n }

def setHeap (b : Buffer C) (p : Nat) (d : Option (Descriptor C)) : Buffer C :=
  { b with heap := Function.update b.heap p d }

end Buffer

/-- What a statement reads from outside. -/
inductive Input (C : Type)
  | none
  /-- What is on the stack of the handler that is called. -/
  | stack (stack : Snfs.Stack)
  /-- `recvfrom` has nothing to receive. -/
  | again
  /-- `recvfrom` receives a datagram into the descriptor at `reqD`; `none` is an empty one. -/
  | datagram (reqD : Nat) (d : Option (Descriptor C))

namespace Process

/-! ### Statements -/

/-- The thread goes on to this line. -/
def goto (s : Process C) (t : Tid) (l : Line C) : Process C :=
  { s with line := Function.update s.line t l }

/-- The thread calls the library; when it is back, it is at this line. -/
def call (s : Process C) (t : Tid) (c : Sched.Call) (l : Line C) : Option (Process C) :=
  (s.sched.step (.call c)).map fun sched => { s.goto t l with sched := sched }

def addEvent (s : Process C) (e : Event (Fin numTc) C (Snfs.Page 1036) (Snfs.Page 1540)) :
    Process C :=
  { s with events := s.events ++ [e] }

/-- The descriptor a pointer refers to. -/
def deref (s : Process C) : Option Nat → Option (Nat × Descriptor C)
  | none => none
  | some p => (s.buffer.heap p).map fun d => (p, d)

/-! ### The readers-writers lock -/

section Lock

variable (s : Process C) (t : Tid)

/-- The loop of `rw_read_lock`; `here` are the lines of the function. -/
def rwReadLoop (here : LockAt → Line C) : Option (Process C) :=
  if s.counters.writerActive ≠ 0 ∨ s.counters.writersWaiting > 0 then
    s.call t (.monitorWait rwMon) (here .waiting)
  else some (s.goto t (here .past))

/-- `rw_read_lock` -/
def rwReadLock (here : LockAt → Line C) (after : Line C) : LockAt → Option (Process C)
  | .entering => s.rwReadLoop t here
  | .waiting => s.rwReadLoop t here
  | .past => some ({ s with counters :=
      { s.counters with readersActive := s.counters.readersActive + 1 } }.goto t (here .leaving))
  | .leaving => s.call t (.monitorExit rwMon) after
  | .counted => none
  | .uncounted => none

/-- The loop of `rw_write_lock` -/
def rwWriteLoop (here : LockAt → Line C) : Option (Process C) :=
  if s.counters.writerActive ≠ 0 ∨ s.counters.readersActive > 0 then
    s.call t (.monitorWait rwMon) (here .waiting)
  else some (s.goto t (here .past))

/-- `rw_write_lock` -/
def rwWriteLock (here : LockAt → Line C) (after : Line C) : LockAt → Option (Process C)
  | .entering => some ({ s with counters :=
      { s.counters with writersWaiting := s.counters.writersWaiting + 1 } }.goto t (here .counted))
  | .counted => s.rwWriteLoop t here
  | .waiting => s.rwWriteLoop t here
  | .past => some ({ s with counters :=
      { s.counters with writersWaiting := s.counters.writersWaiting - 1 } }.goto t
        (here .uncounted))
  | .uncounted => some ({ s with counters :=
      { s.counters with writerActive := 1 } }.goto t (here .leaving))
  | .leaving => s.call t (.monitorExit rwMon) after

/-- `rw_read_unlock` -/
def rwReadUnlock (here : UnlockAt → Line C) (after : Line C) : UnlockAt → Option (Process C)
  | .entering => some ({ s with counters :=
      { s.counters with readersActive := s.counters.readersActive - 1 } }.goto t (here .released))
  | .released =>
      if s.counters.readersActive = 0 then s.call t (.monitorSignal rwMon) (here .leaving)
      else s.call t (.monitorExit rwMon) after
  | .leaving => s.call t (.monitorExit rwMon) after

/-- `rw_write_unlock` -/
def rwWriteUnlock (here : UnlockAt → Line C) (after : Line C) : UnlockAt → Option (Process C)
  | .entering => some ({ s with counters :=
      { s.counters with writerActive := 0 } }.goto t (here .released))
  | .released => s.call t (.monitorSignal rwMon) (here .leaving)
  | .leaving => s.call t (.monitorExit rwMon) after

end Lock

/-! ### The threads -/

/-- `thread_consumer` with the request at `p`: the handler and the lock around it. -/
def work (s : Process C) (t : Tid) (k : Fin numTc) (p : Nat) (i : Input C) :
    WorkLine → Option (Process C)
  | .fetched =>
      match i with
      | .stack stack => (s.buffer.heap p).bind fun d =>
          match findService d.req.type with
          | none => some (s.goto t (serving k p (.answered clearedRes resHeaderSize)))
          | some e => (Snfs.Args.ofReq d.req).bind fun a =>
              s.call t (.monitorEnter rwMon)
                (serving k p (.locking e (.start (stack, a)) .entering))
      | _ => none
  | .locking e th pt =>
      let here := fun pt => serving k p (.locking e th pt)
      let after := serving k p (.handling e th)
      if e.isWrite then s.rwWriteLock t here after pt else s.rwReadLock t here after pt
  | .handling e th =>
      match th.rest with
      | .ret r =>
          let (res, ressz) := Snfs.respond th.args r
          s.call t (.monitorEnter rwMon) (serving k p (.unlocking e res ressz .entering))
      | .halt e => some { s with ended := some e }
      | .op o f =>
          match Snfs.Fs.handler o s.fs with
          | .ok (x, fs) =>
              some ({ s with fs := fs, strtokBy := o.strtokBy k s.strtokBy }.goto t
                (serving k p (.handling e (th.after o x (f x)))))
          | .error e => some { s with ended := some e }
  | .unlocking e res ressz pt =>
      let here := fun pt => serving k p (.unlocking e res ressz pt)
      let after := serving k p (.answered res ressz)
      if e.isWrite then s.rwWriteUnlock t here after pt else s.rwReadUnlock t here after pt
  | .answered res ressz => (s.buffer.heap p).map fun d =>
      let sent := Ring.response clearedRes d res ressz
      let left := some { d with req := { d.req with body := bodyLeft d.req } }
      ({ s with buffer := s.buffer.setHeap p left }.addEvent
        (.send k d.cliaddr sent.1 sent.2)).goto t (.consumer k (.sent p))

/-- `thread_consumer` -/
def threadConsumer (s : Process C) (t : Tid) (k : Fin numTc) (i : Input C) :
    ConsumerLine → Option (Process C)
  | .idle => s.call t (.monitorEnter mon) (.consumer k .loop)
  | .loop =>
      if s.buffer.availableReqs = 0 then s.call t (.monitorWait mon) (.consumer k .loop)
      else some (s.goto t (.consumer k .found))
  | .found =>
      let got := s.buffer.getReq
      some ({ s with buffer := got.2 }.goto t (.consumer k (.got got.1)))
  | .got reqD => some ({ s with buffer := s.buffer.count (-1) }.goto t (.consumer k (.taken reqD)))
  | .taken reqD => (s.call t (.monitorSignal mon) (.consumer k (.signalled reqD))).map fun s =>
      s.addEvent (.get k (s.deref reqD))
  | .signalled reqD => s.call t (.monitorExit mon) (.consumer k (.serving reqD .fetched))
  | .serving (some p) w => s.work t k p i w
  | .serving none _ => none
  | .sent p => some (({ s with buffer := s.buffer.setHeap p none }.addEvent (.free k p)).goto t
      (.consumer k .yielding))
  | .yielding => s.call t .yield (.consumer k .idle)

/-- `thread_producer` -/
def threadProducer (s : Process C) (t : Tid) (i : Input C) : ProducerLine C → Option (Process C)
  | .idle => s.call t (.monitorEnter mon) (.producer .loop)
  | .loop =>
      if s.buffer.availableReqs = ringSize then s.call t (.monitorWait mon) (.producer .loop)
      else some (s.goto t (.producer .receiving))
  | .receiving =>
      match i with
      | .again => s.call t .yield (.producer .receiving)
      | .datagram p d =>
          match s.buffer.heap p, d with
          | none, none => some (s.goto t (.producer (.empty p)))
          | none, some d => some ({ s with buffer := s.buffer.setHeap p (some d) }.goto t
              (.producer (.received p d)))
          | some _, _ => none
      | _ => none
  | .received p d => some ({ s with buffer := s.buffer.putReq p }.goto t (.producer (.put p d)))
  | .put p d => some ({ s with buffer := s.buffer.count 1 }.goto t (.producer (.counted p d)))
  | .counted p d => (s.call t (.monitorSignal mon) (.producer .signalled)).map fun s =>
      s.addEvent (.put p d)
  | .signalled => s.call t (.monitorExit mon) (.producer .yielding)
  | .empty _ => s.call t (.monitorExit mon) (.producer .idle)
  | .yielding => s.call t .yield (.producer .idle)

/-- `main`, from the creation of the first thread. -/
def main (s : Process C) (t : Tid) (threads : List Tid) : Option (Process C) :=
  let new := s.sched.tidGen
  if h : threads.length < numTc then
    (s.call t (.create 7) (.main (threads ++ [new]))).map fun s =>
      s.goto new (.consumer ⟨threads.length, h⟩ .idle)
  else
    -- the producer is joined first
    (s.call t (.create 7) (.join (new :: threads))).map fun s => s.goto new (.producer .idle)

/-- The next statement of a thread; at the end of `main` there is none. -/
def statement (s : Process C) (t : Tid) (i : Input C) : Option (Process C) :=
  match s.line t with
  | .unborn => none
  | .main threads => s.main t threads
  | .join [] => none
  | .join (u :: threads) => s.call t (.join u) (.join threads)
  | .consumer k c => s.threadConsumer t k i c
  | .producer c => s.threadProducer t i c

/-! ### Steps -/

/-- The steps of the process. -/
inductive Act (C : Type)
  /-- The running thread, in user code, executes its next statement. -/
  | run (i : Input C)
  /-- A tick is delivered while the running thread is in user code. -/
  | tick
  /-- The dispatched thread goes on from its switch point. -/
  | resume

/-- One step; a process that has ended takes none. -/
def step (s : Process C) (a : Act C) : Option (Process C) :=
  if s.ended.isSome then none
  else
    match a with
    | .run i =>
        match s.sched.activeThr with
        | none => none
        | some t => if s.sched.point t = .user then s.statement t i else none
    | .tick => (s.sched.step .tick).map fun sched => { s with sched := sched }
    | .resume => (s.sched.step .resume).map fun sched => { s with sched := sched }

/-- `main` when the library and the file system have been initialised. -/
def init (fs : Snfs.Fs) : Process C where
  sched := Sched.userInit
  line := Function.update (fun _ => .unborn) 1 (.main [])
  buffer := ⟨0, fun _ => none, 0, 0, fun _ => none⟩
  counters := ⟨0, 0, 0⟩
  fs := fs
  strtokBy := none
  ended := none
  events := []

/-! ### Reading the events -/

/-- The descriptors put in the ring, oldest first. -/
def puts (s : Process C) : List (Nat × Descriptor C) := s.events.filterMap Event.asPut

/-- What the calls of `get_req` returned, oldest first. -/
def gets (s : Process C) : List (Option (Nat × Descriptor C)) := s.events.filterMap Event.asGet

/-- What consumer `k` did, oldest first. -/
def doneBy (s : Process C) (k : Fin numTc) :
    List (Event (Fin numTc) C (Snfs.Page 1036) (Snfs.Page 1540)) :=
  s.events.filter (Event.isOf k)

/-- The requests fetched and the responses sent, oldest first. -/
def calls (s : Process C) :
    List (CallEvent (Fin numTc) (Descriptor C) (C × Snfs.Res × Nat)) :=
  s.events.filterMap System.callEvent?

end Process

end Sthreads.Server
