/-
The whole server (`snfs_server/server.c`): the ring of requests, the readers-writers lock
and the handlers, which share one file system.

The parts are those of `Server.Ring` and `Server.RwLock`, put together as `thread_consumer`
puts them together.  A consumer that has a request looks its handler up, goes through the
lock function, runs the handler, goes through the unlock function and sends the response.
A step of a handler is one operation on the file system, so handlers that the lock admits
together interleave.

`work` is what a consumer has between the two monitor sections of the ring: its request
being handled, or the response that is to be sent.  `strtokBy`, the consumer that called `strtok`
last, is for the statements only.
-/
import Sthreads.Lib.Linearize
import Sthreads.Server.Ring
import Sthreads.Server.RwLock
import Sthreads.Snfs.ReadPool

namespace Sthreads.Server

/-- What a consumer has to do. -/
inductive Work
  | none
  | handling (th : Snfs.ReadThread)
  | answered (res : Snfs.Res) (ressz : Nat)

/-- The ring, the lock and the file system, the consumers, and how the process has ended. -/
structure System (K C : Type) where
  ring : Ring K C (Snfs.Page 1036) (Snfs.Page 1540)
  rw : RwLock K
  fs : Snfs.Fs
  work : K → Work
  strtokBy : Option K
  ended : Option Snfs.Halt

/-- `memset(&res, 0, sizeof(res))` -/
def clearedRes : Snfs.Res := ⟨0, 0, 0, fun _ => 0⟩

/-- What a handler leaves in the body of its request: `snfs_create` and `snfs_mkdir` end the
name in it. -/
def bodyLeft (req : Snfs.Req) : Snfs.Page 1036 :=
  match req.type with
  | 5 => req.body.set 17 0
  | 6 => req.body.set 17 0
  | _ => req.body

/-- The steps of the threads, in any order. -/
inductive System.Act (K C : Type)
  /-- A step on the ring that is not the sending of a response. -/
  | ring (a : Ring.Act K C (Snfs.Page 1036) (Snfs.Page 1540))
  /-- `k` looks its request up and calls the lock function, or has nothing to call. -/
  | take (k : K) (stack : Snfs.Stack)
  /-- The owner of `rw_mon` runs its monitor body. -/
  | lock
  /-- The handler of `k` goes on. -/
  | handle (k : K)
  /-- `k` sends its response. -/
  | send (k : K)

namespace System

variable {K C : Type}

/-- As `main` leaves it when it has created the threads. -/
def init (fs : Snfs.Fs) : System K C :=
  ⟨Ring.init, RwLock.init, fs, fun _ => .none, .none, .none⟩

variable [DecidableEq K]

/-- `thread_consumer`, from `memset` to the lock function; a request of unknown type has no
handler, and takes no lock. -/
def take (s : System K C) (k : K) (stack : Snfs.Stack) : Option (System K C) :=
  match s.ring.consumer k, s.work k with
  | .serving (some p), .none =>
      (s.ring.heap p).bind fun d =>
        (rwStep s.rw (.request k d.req.type)).map fun rw =>
          { s with
            rw := rw
            work := Function.update s.work k
              (match Snfs.Args.ofReq d.req with
              | .none => .answered clearedRes resHeaderSize
              | some a => .handling (.start (stack, a))) }
  | _, _ => .none

/-- The next operation of a handler, or its return to `thread_consumer`, which calls the unlock
function. -/
def handle (s : System K C) (k : K) : Option (System K C) :=
  match s.rw.pc k, s.work k with
  | .running _, .handling th =>
      match th.rest with
      | .ret r =>
          let (res, ressz) := Snfs.respond th.args r
          (rwStep s.rw (.finish k)).map fun rw =>
            { s with rw := rw, work := Function.update s.work k (.answered res ressz) }
      | .halt e => some { s with ended := some e }
      | .op o f =>
          match Snfs.Fs.handler o s.fs with
          | .ok (x, fs) => some { s with
              fs := fs
              work := Function.update s.work k (.handling (th.after o x (f x)))
              strtokBy := o.strtokBy k s.strtokBy }
          | .error e => some { s with ended := some e }
  | _, _ => .none

/-- `srv_send_response` -/
def send (s : System K C) (k : K) : Option (System K C) :=
  match s.ring.consumer k, s.rw.pc k, s.work k with
  | .serving (some p), .fetch, .answered res ressz =>
      (s.ring.heap p).bind fun d =>
        (Ring.step clearedRes s.ring (.answer k (bodyLeft d.req) res ressz)).map fun ring =>
          { s with ring := ring, work := Function.update s.work k .none }
  | _, _, _ => .none

/-- One step; a process that has ended takes none. -/
def step (s : System K C) (a : Act K C) : Option (System K C) :=
  if s.ended.isSome then .none
  else
    match a with
    | .ring (.answer ..) => .none
    | .ring a => (Ring.step clearedRes s.ring a).map fun ring => { s with ring := ring }
    | .take k stack => s.take k stack
    | .lock => (rwStep s.rw .body).map fun rw => { s with rw := rw }
    | .handle k => s.handle k
    | .send k => s.send k

/-! ### What the clients see -/

/-- A request fetched is a call, and a response sent is its return. -/
def callEvent? : Event K C (Snfs.Page 1036) (Snfs.Page 1540) →
    Option (CallEvent K (Req C (Snfs.Page 1036)) (C × Snfs.Res × Nat))
  | .get k (some (_, d)) => some (.call k d)
  | .send k cliaddr res ressz => some (.ret k (cliaddr, res, ressz))
  | _ => .none

/-- The calls and returns, oldest first. -/
def calls (s : System K C) : List (CallEvent K (Req C (Snfs.Page 1036)) (C × Snfs.Res × Nat)) :=
  s.ring.events.filterMap callEvent?

/-- A file system that serves one request at a time: the response to the sender, and the file
system it leaves. -/
def Serves (fs : Snfs.Fs) (d : Req C (Snfs.Page 1036)) (sent : C × Snfs.Res × Nat)
    (fs' : Snfs.Fs) : Prop :=
  sent.1 = d.cliaddr ∧
    ∃ stack, Prog.run Snfs.Fs.handler (Snfs.serve stack d.req) fs = .ok (sent.2, fs')

end System

end Sthreads.Server
