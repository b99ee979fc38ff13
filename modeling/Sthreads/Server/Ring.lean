/-
The server's request ring: one producer, any number of consumers, one monitor
(`thread_producer`, `thread_consumer`, `get_req`, `put_req` in `snfs_server/server.c`).

A request descriptor is an allocated block that the ring refers to by its address, so
the model has a heap: `malloc` picks any address that is not in use, `free` gives it
back.  The part of a monitor section up to a `monitor_wait` or the `monitor_exit` is one
step.  The producer alone holds the monitor for longer, because `my_recvfrom` yields the
processor while it waits for a datagram.

The bracket of the readers-writers lock is not repeated here (`Server.RwLock`): it
delays a handler, and a step of this model is taken in any order.  What a handler leaves
in its request's body and in the response is any value.  `events` records what was done,
for the statements only.
-/
import Sthreads.Lib.Monitor
import Sthreads.Lib.Run
import Sthreads.Server.RwLock
import Sthreads.Client.Message
import Mathlib.Logic.Function.Basic

namespace Sthreads.Server

/-- `NUM_TC`. -/
def numTc : Nat := 5

/-- `RING_SIZE`. -/
def ringSize : Nat := 10

/-- `struct _req`: a request, its sender and its size. -/
structure Req (C B : Type) where
  req : MsgReq B
  cliaddr : C
  reqsz : Nat

/-- The threads of the server: consumers are named by `K`. -/
inductive Thread (K : Type)
  | producer
  | consumer (k : K)
  deriving DecidableEq

/-- Where the producer is. -/
inductive ProducerPc
  /-- About to call `monitor_enter`. -/
  | idle
  /-- In `monitor_enter`, or in the wait loop inside `monitor_wait`. -/
  | loop
  /-- Past the loop, inside the monitor, in `my_recvfrom`. -/
  | receiving
  deriving DecidableEq

/-- Where a consumer is; `req_d` is `none` where it is `NULL`. -/
inductive ConsumerPc
  /-- About to call `monitor_enter`. -/
  | idle
  /-- In `monitor_enter`, or in the wait loop inside `monitor_wait`. -/
  | loop
  /-- Past the monitor, on the way to its handler or inside it. -/
  | serving (reqD : Option Nat)
  /-- The response is sent, the descriptor not yet freed. -/
  | sent (reqD : Nat)
  deriving DecidableEq

/-- What the threads have done, as far as the statements speak of it. -/
inductive Event (K C B R : Type)
  /-- The producer put the descriptor at this address, with these contents. -/
  | put (reqD : Nat) (d : Req C B)
  /-- `k` was given a descriptor; `none` is a pointer to nothing. -/
  | get (k : K) (got : Option (Nat × Req C B))
  /-- `k` sent this response. -/
  | send (k : K) (cliaddr : C) (res : MsgRes R) (ressz : Nat)
  /-- `k` freed the descriptor at this address. -/
  | free (k : K) (reqD : Nat)

namespace Event

variable {K C B R : Type}

/-- The descriptor of a `put_req`. -/
def asPut : Event K C B R → Option (Nat × Req C B)
  | .put p d => some (p, d)
  | _ => none

/-- The result of a `get_req`. -/
def asGet : Event K C B R → Option (Option (Nat × Req C B))
  | .get _ got => some got
  | _ => none

/-- Whether an event is `k`'s doing. -/
def isOf [DecidableEq K] (k : K) : Event K C B R → Bool
  | .put _ _ => false
  | .get k' _ => k' == k
  | .send k' _ _ _ => k' == k
  | .free k' _ => k' == k

end Event

/-- The globals of `server.c`, the threads' program points and the heap of descriptors. -/
structure Ring (K C B R : Type) where
  mon : Monitor (Thread K)
  availableReqs : Int
  ring : Nat → Option Nat
  /-- `static short int pos` of `get_req`. -/
  getPos : Nat
  /-- `static short int pos` of `put_req`. -/
  putPos : Nat
  heap : Nat → Option (Req C B)
  producer : ProducerPc
  consumer : K → ConsumerPc
  events : List (Event K C B R)

namespace Ring

variable {K C B R : Type}

/-- As `main` leaves the globals: the ring is all `NULL`, nothing is allocated. -/
def init : Ring K C B R :=
  ⟨Monitor.empty, 0, fun _ => none, 0, 0, fun _ => none, .idle, fun _ => .idle, []⟩

/-- The descriptor a pointer refers to. -/
def deref (s : Ring K C B R) : Option Nat → Option (Nat × Req C B)
  | none => none
  | some p => (s.heap p).map fun d => (p, d)

/-- `get_req`. -/
def getReq (s : Ring K C B R) : Option Nat × Ring K C B R :=
  (s.ring s.getPos, { s with getPos := (s.getPos + 1) % ringSize })

/-- `put_req`. -/
def putReq (s : Ring K C B R) (p : Nat) : Ring K C B R :=
  { s with
    ring := Function.update s.ring s.putPos (some p)
    putPos := (s.putPos + 1) % ringSize }

section Threads

variable [DecidableEq K]

/-- The body of `thread_consumer`'s monitor section, from the test of its loop. -/
def consumerBody (s : Ring K C B R) (k : K) : Ring K C B R :=
  if s.availableReqs = 0 then
    { s with
      mon := s.mon.wait (.consumer k)
      consumer := Function.update s.consumer k .loop }
  else
    let got := s.getReq
    { got.2 with
      availableReqs := s.availableReqs - 1
      mon := s.mon.signal.exit
      consumer := Function.update s.consumer k (.serving got.1)
      events := s.events ++ [.get k (s.deref got.1)] }

/-- The body of `thread_producer`'s loop: wait, or go on to receive with the monitor held. -/
def producerBody (s : Ring K C B R) : Ring K C B R :=
  if s.availableReqs = ringSize then
    { s with mon := s.mon.wait .producer, producer := .loop }
  else
    { s with producer := .receiving }

/-- The rest of the section, with what `srv_recv_request` received into the descriptor at `p`. -/
def producerReceived (s : Ring K C B R) (p : Nat) : Option (Req C B) → Ring K C B R
  | none =>
    -- an empty datagram: the descriptor is freed and nobody is signalled
    { s with mon := s.mon.exit, producer := .idle }
  | some d =>
    let s' := s.putReq p
    { s' with
      heap := Function.update s.heap p (some d)
      availableReqs := s.availableReqs + 1
      mon := s.mon.signal.exit
      producer := .idle
      events := s.events ++ [.put p d] }

/-- What `thread_consumer` sends: an unknown type is answered without any handler. -/
def response (res₀ : MsgRes R) (d : Req C B) (res : MsgRes R) (ressz : Nat) :
    MsgRes R × Nat :=
  match findService d.req.type with
  | none => ({ res₀ with status := resUnknown, sn := d.req.sn }, resHeaderSize)
  | some _ => ({ res with sn := d.req.sn }, ressz)

/-- The steps of the threads, in any order. -/
inductive Act (K C B R : Type)
  /-- The producer calls `monitor_enter`. -/
  | enterProducer
  /-- The owner of `mon` runs its body. -/
  | body
  /-- A datagram arrives for the producer: an empty one, or a request with its sender. -/
  | receive (p : Nat) (d : Option (Req C B))
  /-- A consumer calls `monitor_enter`. -/
  | enterConsumer (k : K)
  /-- The handler of `k` returns with this body and response, and the response is sent. -/
  | answer (k : K) (body : B) (res : MsgRes R) (ressz : Nat)
  /-- `k` frees its descriptor. -/
  | free (k : K)

/-- One step; `res₀` is the response that `memset` clears. -/
def step (res₀ : MsgRes R) (s : Ring K C B R) : Act K C B R → Option (Ring K C B R)
  | .enterProducer =>
      match s.producer with
      | .idle => some { s with mon := s.mon.enter .producer, producer := .loop }
      | _ => none
  | .enterConsumer k =>
      match s.consumer k with
      | .idle => some { s with
          mon := s.mon.enter (.consumer k)
          consumer := Function.update s.consumer k .loop }
      | _ => none
  | .body =>
      match s.mon.owner with
      | some (.consumer k) =>
          match s.consumer k with
          | .loop => some (s.consumerBody k)
          | _ => none
      | some .producer =>
          match s.producer with
          | .loop => some s.producerBody
          | _ => none
      | none => none
  | .receive p d =>
      match s.producer, s.heap p with
      | .receiving, none => some (s.producerReceived p d)
      | _, _ => none
  | .answer k body res ressz =>
      match s.consumer k with
      | .serving (some p) =>
          -- a pointer to nothing ends the run here: the program would read through it
          (s.heap p).map fun d =>
            let sent := response res₀ d res ressz
            { s with
              heap := Function.update s.heap p
                (some { d with req := { d.req with body := body } })
              consumer := Function.update s.consumer k (.sent p)
              events := s.events ++ [.send k d.cliaddr sent.1 sent.2] }
      | _ => none
  | .free k =>
      match s.consumer k with
      | .sent p => some { s with
          heap := Function.update s.heap p none
          consumer := Function.update s.consumer k .idle
          events := s.events ++ [.free k p] }
      | _ => none

end Threads

/-! ### Reading the events -/

/-- The descriptors put in the ring, oldest first. -/
def puts (s : Ring K C B R) : List (Nat × Req C B) := s.events.filterMap Event.asPut

/-- What the calls of `get_req` returned, oldest first. -/
def gets (s : Ring K C B R) : List (Option (Nat × Req C B)) := s.events.filterMap Event.asGet

/-- What consumer `k` did, oldest first. -/
def doneBy [DecidableEq K] (s : Ring K C B R) (k : K) : List (Event K C B R) :=
  s.events.filter (Event.isOf k)

end Ring

/-- One turn of `thread_consumer`: the request fetched and the response sent for it. -/
structure Turn (C B R : Type) where
  reqD : Nat
  req : Req C B
  res : MsgRes R
  ressz : Nat
  /-- The response carries the serial number of the request. -/
  echoes : res.sn = req.req.sn

/-- A turn as consumer `k` takes it: fetch, answer the sender, free. -/
def Turn.events {K C B R : Type} (k : K) (t : Turn C B R) : List (Event K C B R) :=
  [.get k (some (t.reqD, t.req)), .send k t.req.cliaddr t.res t.ressz, .free k t.reqD]

end Sthreads.Server
