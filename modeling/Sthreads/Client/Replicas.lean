/-
Two clients that change the state of all servers.

Each client is the `remote_call` of `Remote`, and each server a file system that executes the
requests it receives one at a time, in the order in which they reach it.  No `sendto` or
`recvfrom` fails.  The body of a datagram is what arrives of the request.

What each server has executed is kept for the statements only.
-/
import Sthreads.Client.Api
import Sthreads.Client.Remote

namespace Sthreads.Client

open Snfs

/-- A request that a server has executed: whose call it was, and the status of the response. -/
structure Executed where
  client : Fin 2
  call : Nat
  args : Args
  status : Int

/-- The clients, the servers and what these have executed. -/
structure Replicas where
  clients : Fin 2 → Remote (Page 1036) (Page 1540)
  servers : Nat → Fs
  executed : Nat → List Executed

namespace Replicas

/-- Before the first call. -/
def init (servers : Nat → Fs) : Replicas := ⟨fun _ => .init, servers, fun _ => []⟩

/-- The request of a call that changes the state, as it arrives. -/
def update : ApiCall → Option Req
  | c@(.write ..) | c@(.create ..) | c@(.mkdir ..) => some (received c.reqSize (c.request 0))
  | _ => none

inductive Act
  /-- A client calls `snfs_write`, `snfs_create` or `snfs_mkdir`. -/
  | call (i : Fin 2) (c : ApiCall)
  /-- A `sendto` of a client. -/
  | send (i : Fin 2)
  /-- The `j`-th of the responses in flight to a client arrives. -/
  | receive (i : Fin 2) (j : Nat)
  /-- The server of the `j`-th of a client's requests in flight executes it, and responds. -/
  | execute (i : Fin 2) (j : Nat) (stack : Stack)

/-- A client's step. -/
def client (c : Servers) (s : Replicas) (i : Fin 2) (a : Remote.Act (Page 1036) (Page 1540)) :
    Option Replicas :=
  (Remote.step c (s.clients i) a).map fun cl =>
    { s with clients := Function.update s.clients i cl }

/-- One step. -/
def step (c : Servers) (s : Replicas) : Act → Option Replicas
  | .call i a =>
      match update a with
      | none => none
      | some req => s.client c i (.call req.type req.body true)
  | .send i => s.client c i .send
  | .receive i j => s.client c i (.receive j)
  | .execute i j stack =>
      match (s.clients i).requests[j]? with
      | none => none
      | some d =>
          match Args.ofReq d.req, Prog.run Fs.handler (serve stack d.req) (s.servers d.server) with
          | some args, .ok ((res, _), fs') =>
              let s' : Replicas := { s with
                servers := Function.update s.servers d.server fs'
                executed := Function.update s.executed d.server
                  (s.executed d.server ++ [⟨i, d.call, args, res.status⟩]) }
              s'.client c i (.answer j res.type res.status res.body)
          | _, _ => none

/-- No call is under way. -/
def Quiet (s : Replicas) : Prop := ∀ i, (s.clients i).pc = .idle

instance {B R : Type} : (pc : CallPc B R) → Decidable (pc = .idle)
  | .idle => isTrue rfl
  | .sendAll .. => isFalse nofun
  | .receiveAll .. => isFalse nofun
  | .sendSome .. => isFalse nofun
  | .receiveOne .. => isFalse nofun

instance (s : Replicas) : Decidable s.Quiet := inferInstanceAs (Decidable (∀ _, _))

end Replicas

/-! ### Orders -/

namespace Executed

/-- Whose request it was, whatever came of it. -/
def request (e : Executed) : Fin 2 × Nat := (e.client, e.call)

/-- It creates a file or a directory. -/
def creates (e : Executed) : Bool :=
  match e.args with
  | .create .. | .mkdir .. => true
  | _ => false

/-- It writes to this file. -/
def writesTo (file : Nat) (e : Executed) : Bool :=
  match e.args with
  | .write f .. => f == file
  | _ => false

end Executed

/-- Both servers have executed the same creations in the same order. -/
def SameCreations (s : Replicas) (r r' : Nat) : Prop :=
  ((s.executed r).filter Executed.creates).map Executed.request =
    ((s.executed r').filter Executed.creates).map Executed.request

instance (s : Replicas) (r r' : Nat) : Decidable (SameCreations s r r') :=
  inferInstanceAs (Decidable (_ = _))

/-- Both servers have executed the same writes to each file in the same order. -/
def SameWrites (s : Replicas) (r r' : Nat) : Prop :=
  ∀ file, ((s.executed r).filter (Executed.writesTo file)).map Executed.request =
    ((s.executed r').filter (Executed.writesTo file)).map Executed.request

end Sthreads.Client
