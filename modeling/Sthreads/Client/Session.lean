/-
A client that works with one server.

The program makes calls of the library.  Between them there are other requests: those of
`my_listdir`, and those of a program that uses `snfs_api.c` as well.
-/
import Sthreads.Client.Myfs

namespace Sthreads.Client

open Snfs

/-- The library and its server -/
structure Session where
  lib : Lib
  server : Server

inductive SessionAct
  | call (c : UserCall)
  | request (stack : Stack) (req : Req)

namespace Session

/-- A client that has opened nothing -/
def start (server : Server) : Session := ⟨⟨[], 0⟩, server⟩

/-- A call: what it returns, with the bytes in its buffer. -/
def call (s : Session) (c : UserCall) : Except Halt ((Int × List UInt8) × Session) := do
  let ((r, lib), server) ← Prog.run Server.rpc (c.prog s.lib) s.server
  return (r, ⟨lib, server⟩)

def step (s : Session) : SessionAct → Option Session
  | .call c => (s.call c).toOption.map (·.2)
  | .request stack req =>
      match Prog.run Fs.handler (serve stack req) s.server.fs with
      | .ok (_, fs) => some { s with server := { s.server with fs := fs } }
      | .error _ => none

end Session

end Sthreads.Client
