/-
The client's `remote_call` (`snfs_lib/snfs_api.c`), its servers and the datagrams on the
way between them.

Each `sendto`, each `recvfrom` and each answer of a server is one step, and responses are
delivered in any order.  Servers answer a request datagram at most once and echo its
serial number; datagrams are not duplicated.  A datagram carries the number of the call
that sent it, for the statements only: the code tells calls apart by the serial number.

A reply with a serial number is at least a header long, so what the code compares is what
was received.  Bytes of the response buffer beyond a reply's length are not modelled.
-/
import Mathlib.Algebra.GroupWithZero.Nat
import Sthreads.Client.Message
import Sthreads.Lib.Run

namespace Sthreads.Client

/-- `MAX_SERVERS`. -/
def maxServers : Nat := 8

/-- `Num_servers`, which `snfs_init` keeps within `MAX_SERVERS`, and `READ_SERVERS_M`. -/
structure Servers where
  numServers : Nat
  readServersM : Nat
  few : numServers ≤ maxServers

/-- The `M` of the read path. -/
def Servers.readers (c : Servers) : Nat := min c.readServersM c.numServers

/-- How many values a C `int` has. -/
def intValues : Nat := 2 ^ 32

/-- The value of a C `int` after `n++`. -/
def intSucc (n : Int) : Int := (n + 1).bmod intValues

/-- A request on its way to a server. -/
structure Datagram (B : Type) where
  server : Nat
  call : Nat
  req : MsgReq B

/-- A response: the server that produced it and the call it answers. -/
structure Reply (R : Type) where
  server : Nat
  call : Nat
  res : MsgRes R

/-- A `remote_call` that returned with a response. -/
structure Returned (R : Type) where
  call : Nat
  toAllServers : Bool
  /-- The servers the request was sent to. -/
  contacted : List Nat
  res : MsgRes R

/-- Where `remote_call` is. -/
inductive CallPc (B R : Type)
  /-- No call is under way. -/
  | idle
  /-- About to send to server `i`, on the write path. -/
  | sendAll (req : MsgReq B) (i : Nat)
  /-- Receiving on the write path: `responses`, as far as it is filled. -/
  | receiveAll (req : MsgReq B) (responses : List (Reply R))
  /-- About to make the `k`-th send of the read path. -/
  | sendSome (req : MsgReq B) (k : Nat)
  /-- Receiving on the read path. -/
  | receiveOne (req : MsgReq B) (contacted : List Nat)

/-- The client's globals, the datagrams in flight, and what happened so far. -/
structure Remote (B R : Type) where
  nextSn : Int
  rrIndex : Nat
  pc : CallPc B R
  requests : List (Datagram B)
  responses : List (Reply R)
  /-- The number of calls made. -/
  calls : Nat
  /-- Every response a server ever produced. -/
  produced : List (Reply R)
  /-- The calls that succeeded, oldest first. -/
  returned : List (Returned R)

namespace Remote

variable {B R : Type}

/-- After `snfs_init`. -/
def init : Remote B R := ⟨0, 0, .idle, [], [], 0, [], []⟩

/-- The server of the `k`-th send of the read path. -/
def readServer (c : Servers) (s : Remote B R) (k : Nat) : Nat :=
  (s.rrIndex + k) % c.numServers

/-- The servers of the first `k` sends of the read path. -/
def readServers (c : Servers) (s : Remote B R) (k : Nat) : List Nat :=
  (List.range k).map (s.readServer c)

/-- The send loop of the write path, before its `i`-th round. -/
def sendAllLoop (c : Servers) (s : Remote B R) (req : MsgReq B) (i : Nat) : Remote B R :=
  if i < c.numServers then { s with pc := .sendAll req i }
  else { s with pc := .receiveAll req [] }

/-- The send loop of the read path, before its `k`-th round. -/
def sendSomeLoop (c : Servers) (s : Remote B R) (req : MsgReq B) (k : Nat) : Remote B R :=
  if k < c.readers then { s with pc := .sendSome req k }
  else { s with
    rrIndex := (s.rrIndex + c.readers) % c.numServers
    pc := .receiveOne req (s.readServers c k) }

/-- The beginning of `remote_call`. -/
def remoteCall (c : Servers) (s : Remote B R) (type : Int) (body : B) (toAllServers : Bool) :
    Remote B R :=
  let req : MsgReq B := ⟨type, s.nextSn, body⟩
  let s' := { s with nextSn := intSucc s.nextSn, calls := s.calls + 1 }
  if c.numServers = 0 then s'
  else if toAllServers then s'.sendAllLoop c req 0
  else s'.sendSomeLoop c req 0

/-- A `sendto` that succeeds: the datagram of the call under way is in flight. -/
def sendTo (s : Remote B R) (req : MsgReq B) (i : Nat) : Remote B R :=
  { s with requests := s.requests ++ [⟨i, s.calls - 1, req⟩] }

/-- `remote_call` returns with a response. -/
def succeed (s : Remote B R) (toAllServers : Bool) (contacted : List Nat) (res : MsgRes R) :
    Remote B R :=
  { s with
    pc := .idle
    returned := s.returned ++ [⟨s.calls - 1, toAllServers, contacted, res⟩] }

/--
A response arrives on the write path; `none` is the `exit` on different statuses.

A response with another serial number is dropped.
-/
def receivedAll (c : Servers) (s : Remote B R) (req : MsgReq B) (responses : List (Reply R))
    (r : Reply R) : Option (Remote B R) :=
  if r.res.sn = req.sn then
    match responses ++ [r] with
    | [] => none
    | first :: rest =>
        if (first :: rest).length < c.numServers then
          some { s with pc := .receiveAll req (first :: rest) }
        else if rest.all fun r' => r'.res.status == first.res.status then
          some (s.succeed true (List.range c.numServers) first.res)
        else none
  else some s

/-- A response arrives on the read path. -/
def receivedOne (s : Remote B R) (req : MsgReq B) (contacted : List Nat) (r : Reply R) :
    Remote B R :=
  if r.res.sn = req.sn then s.succeed false contacted r.res else s

/-- The steps of the client and of the servers. -/
inductive Act (B : Type) (R : Type)
  /-- A call begins. -/
  | call (type : Int) (body : B) (toAllServers : Bool)
  /-- A `sendto` succeeds. -/
  | send
  /-- A `sendto` fails, or a `recvfrom` does or returns nothing: the call returns -1. -/
  | fail
  /-- The `j`-th of the responses in flight arrives. -/
  | receive (j : Nat)
  /-- A server produces a response to the `j`-th of the requests in flight. -/
  | answer (j : Nat) (type status : Int) (body : R)

/-- One step. -/
def step (c : Servers) (s : Remote B R) : Act B R → Option (Remote B R)
  | .call type body toAllServers =>
      match s.pc with
      | .idle => some (s.remoteCall c type body toAllServers)
      | _ => none
  | .send =>
      match s.pc with
      | .sendAll req i => some ((s.sendTo req i).sendAllLoop c req (i + 1))
      | .sendSome req k => some ((s.sendTo req (s.readServer c k)).sendSomeLoop c req (k + 1))
      | _ => none
  | .fail =>
      match s.pc with
      | .idle => none
      | _ => some { s with pc := .idle }
  | .receive j =>
      match s.pc, s.responses[j]? with
      | .receiveAll req responses, some r =>
          { s with responses := s.responses.eraseIdx j }.receivedAll c req responses r
      | .receiveOne req contacted, some r =>
          some ({ s with responses := s.responses.eraseIdx j }.receivedOne req contacted r)
      | _, _ => none
  | .answer j type status body =>
      match s.requests[j]? with
      | some d =>
          let r : Reply R := ⟨d.server, d.call, ⟨type, d.req.sn, status, body⟩⟩
          some { s with
            requests := s.requests.eraseIdx j
            responses := s.responses ++ [r]
            produced := s.produced ++ [r] }
      | none => none

end Remote

end Sthreads.Client
