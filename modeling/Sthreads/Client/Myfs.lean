/-
The client library (`snfs_lib/myfs.c`, `queue.c`) over one server.

Its functions are programs over the calls of `snfs_api.c`, and a server that handles one
request at a time runs them: what is sent is a request's `reqsz` bytes, and what comes back is
the response's `ressz` bytes.  A call whose server has ended never returns.

`unsigned` numbers, and the `int`s that are used as such, are kept as what they are modulo
`2 ^ 32`.  The library has been initialised.
-/
import Sthreads.Client.Api
import Sthreads.Client.Remote
import Sthreads.Lib.Prog

namespace Sthreads.Client

open Snfs

/-- What a call returns, and `failedFile`. -/
abbrev ApiM := Prog ApiCall (fun _ => Option Results × UInt32) Halt

/-! ### One server -/

/-- The server, what its handlers find on their stacks and what the calls find in their buffers,
and `next_sn`. -/
structure Server where
  fs : Fs
  stackOf : Nat → Stack
  there : Nat → Page 1540
  calls : Nat
  nextSn : Int

/-- A server at the beginning of a session -/
def Server.start (fs : Fs) : Server := ⟨fs, fun _ => ⟨fun _ => 0, 0⟩, fun _ _ => 0, 0, 0⟩

/-- A call: the request is sent and served, and the response is received. -/
def Server.rpc (c : ApiCall) (s : Server) :
    Except Halt ((Option Results × UInt32) × Server) := do
  let req := received c.reqSize (c.request s.nextSn)
  let ((res, ressz), fs') ← Prog.run Fs.handler (serve (s.stackOf s.calls) req) s.fs
  let res := delivered ressz res (s.there s.calls)
  return ((c.returned res, failedFile res),
    { s with fs := fs', calls := s.calls + 1, nextSn := intSucc s.nextSn })

/-! ### Calls -/

/-- `snfs_lookup`: whether it succeeds, `*file`, and `*fsize` if it is written -/
def snfsLookup (pathname : CStr) : ApiM (Bool × UInt32 × Option UInt32) := do
  match ← Prog.perform (ApiCall.lookup pathname) with
  | (some (.lookup file fsize), _) => return (true, file, some fsize)
  | (_, file) => return (false, file, none)

/-- `snfs_read`: the data and `*nread` -/
def snfsRead (fhandle offset count : Nat) : ApiM (Option (List UInt8 × Nat)) := do
  match ← Prog.perform (ApiCall.read (.ofNat fhandle) (.ofNat offset) (.ofNat count)) with
  | (some (.read data nread), _) => return some (data, nread.toNat)
  | _ => return none

/-- `snfs_write`: `*fsize` -/
def snfsWrite (fhandle offset count : Nat) (buffer : Nat → UInt8) : ApiM (Option Nat) := do
  match ← Prog.perform (ApiCall.write (.ofNat fhandle) (.ofNat offset) (.ofNat count) buffer) with
  | (some (.write fsize), _) => return some fsize.toNat
  | _ => return none

/-- `snfs_create`: `*file` -/
def snfsCreate (dir : UInt32) (name : CStr) : ApiM (Option UInt32) := do
  match ← Prog.perform (ApiCall.create dir name) with
  | (some (.create file), _) => return some file
  | _ => return none

/-- `snfs_mkdir`: `*file` -/
def snfsMkdir (dir : UInt32) (name : CStr) : ApiM (Option UInt32) := do
  match ← Prog.perform (ApiCall.mkdir dir name) with
  | (some (.mkdir file), _) => return some file
  | _ => return none

/-! ### Open files -/

/-- `struct _file_desc` -/
structure FileDesc where
  fileId : Nat
  size : Nat
  readOffset : Nat
  writeOffset : Nat
  deriving DecidableEq, Repr

/-- `Open_files_list` and `Open_files` -/
structure Lib where
  openFilesList : List FileDesc
  openFiles : Nat
  deriving DecidableEq, Repr

namespace Lib

/-- `queue_node_get(Open_files_list, fileId)` -/
def get (lib : Lib) (fileId : Nat) : Option FileDesc :=
  lib.openFilesList.find? (·.fileId == fileId)

/-- What was assigned through the pointer that `queue_node_get` returned -/
def assign (lib : Lib) (fdesc : FileDesc) : Lib :=
  { lib with openFilesList := assignFirst lib.openFilesList }
where
  assignFirst : List FileDesc → List FileDesc
    | [] => []
    | d :: rest => if d.fileId == fdesc.fileId then fdesc :: rest else d :: assignFirst rest

/-- `queue_enqueue(Open_files_list, fdesc); Open_files++;` -/
def enqueue (lib : Lib) (fdesc : FileDesc) : Lib :=
  ⟨lib.openFilesList ++ [fdesc], lib.openFiles + 1⟩

/-- `queue_node_remove(Open_files_list, fileId)`: the first descriptor with this number leaves -/
def remove (lib : Lib) (fileId : Nat) : Option Lib :=
  if lib.openFilesList.any (·.fileId == fileId)
  then some { lib with openFilesList := lib.openFilesList.eraseP (·.fileId == fileId) }
  else none

end Lib

/-! ### `my_open` -/

/-- The loop of `my_open` over the tokens of the path: how many there are, and `newfilename`, to
which `strncpy` copies each of them without a zero. -/
def lastToken : Nat → Option (List UInt8) × List UInt8 → Nat → Page 14 → Nat × Page 14
  | 0, _, i, newfilename => (i, newfilename)
  | _, (none, _), i, newfilename => (i, newfilename)
  | left + 1, (some token, rest), i, newfilename =>
      lastToken left (strtok rest) (i + 1)
        (newfilename.copyTo 0 token.length fun k => token.getD k 0)

/-- The number of tokens, `newfilename` and `newdirname`.  A `newfilename` of 14 characters has no
zero at its end; what follows it on the stack is not part of what the server takes for the name. -/
def splitName (name : CStr) : Nat × CStr × CStr :=
  let (i, newfilename) := lastToken name.chars.length (strtok name.chars) 0 fun _ => 0
  if i > 1 then
    let newfilename := newfilename.cstr 0
    let len := name.chars.length - (newfilename.chars.length + 1)
    (i, newfilename, ⟨name.chars.take len, fun c hc => name.noNul c (List.mem_of_mem_take hc)⟩)
  else
    let newfilename := newfilename.copyTo 0 (name.chars.length - 1) fun k => name.chars.getD (1 + k) 0
    (i, newfilename.cstr 0, name)

/-- `my_open`; `O_CREATE` is 1.  A path of 200 characters or more, whose copy leaves the array of
`myparse` in the source (`myparseLine`), is answered with -1. -/
def myOpen (name : CStr) (flags : Int) (lib : Lib) : ApiM (Int × Lib) := do
  if lib.openFiles ≥ 10 then return (-1, lib)
  if !myparse name then return (-1, lib)
  let opened (file : UInt32) (fsize : Nat) : Int × Lib :=
    (asInt file.toNat, lib.enqueue ⟨file.toNat, fsize, 0, 0⟩)
  let (i, newfilename, newdirname) := splitName name
  let (found, file, fsize) ← snfsLookup name
  if found then return opened file ((fsize.map UInt32.toNat).getD 0)
  else
    let (_, dir, fsize) ← snfsLookup newdirname
    let dir := if i = 1 then 1 else dir
    if flags = 1 then
      match ← snfsCreate dir newfilename with
      | none => return (-1, lib)
      | some file => return opened file ((fsize.map UInt32.toNat).getD 0)
    else return (-1, lib)

/-- `myparse` with its array `line`, which starts with `junk` in it; `none` when the copy of the
path, with the zero at its end, does not stay in the array. -/
def myparseLine (junk : Page 200) (pathname : CStr) : Option Bool :=
  if 200 < pathname.chars.length + 1 then none
  else
    let line := strcpy junk 0 pathname.chars
    let chars := (line.cstr 0).chars
    if chars.length ≥ 200 || chars.length < 1 then some false
    else if chars.contains 32 || hasDoubleSlash chars || line.get 0 != slash then some false
    else
      let i := pathname.chars.length
      if i != 0 && line.get i == slash then some false
      else some (shortTokens chars.length (strtok chars))

/-! ### `my_mkdir` -/

/-- The end of `my_mkdir`, when the directory has been found -/
def mkdirIn (dir : UInt32) (newfilename : CStr) : ApiM Int := do
  match ← snfsMkdir dir newfilename with
  | none => return -1
  | some _ => return 0

/-- `my_mkdir`, with -1 for a path of 200 characters or more as in `myOpen` -/
def myMkdir (dirname : CStr) : ApiM Int := do
  if !myparse dirname then return -1
  let (found, _, _) ← snfsLookup dirname
  if found then return -1
  let (i, newfilename, newdirname) := splitName dirname
  if i = 1 then mkdirIn 1 newfilename
  else
    let (found, dir, _) ← snfsLookup newdirname
    if !found then return -1
    mkdirIn dir newfilename

/-! ### `my_read` and `my_write` -/

/-- The loop of `my_read`, with `counter` and the bytes it has read: `counter` at its end, unless a
call fails.  A server that returns no bytes is asked for ever. -/
def readLoop (fileId : Nat) :
    Nat → FileDesc → Nat → Nat → Nat → List UInt8 →
      ApiM (Option Nat × List UInt8 × FileDesc)
  | 0, fdesc, numBytes, _, counter, buffer =>
      if numBytes = 0 then return (some counter, buffer, fdesc) else .halt .rounds
  | left + 1, fdesc, numBytes, rBytes, counter, buffer =>
      if numBytes = 0 then return (some counter, buffer, fdesc)
      else do
        let rBytes := min rBytes numBytes
        match ← snfsRead fileId fdesc.readOffset rBytes with
        | none => return (none, buffer, fdesc)
        | some (data, nread) =>
            readLoop fileId left { fdesc with readOffset := (fdesc.readOffset + nread) % 2 ^ 32 }
              ((numBytes + 2 ^ 32 - nread) % 2 ^ 32) rBytes (counter + nread) (buffer ++ data)

/-- `my_read`: what it returns and the bytes that it has put in `buffer` -/
def myRead (fileId numBytes : Nat) (lib : Lib) : ApiM ((Int × List UInt8) × Lib) := do
  match lib.get fileId with
  | none => return ((-1, []), lib)
  | some fdesc =>
      if fdesc.readOffset = fdesc.size then return ((0, []), lib)
      else
        let numBytes :=
          if fdesc.size < (fdesc.readOffset + numBytes) % 2 ^ 32
          then (fdesc.size + 2 ^ 32 - fdesc.readOffset) % 2 ^ 32
          else numBytes
        let (counter, buffer, fdesc) ←
          readLoop fileId numBytes fdesc numBytes (min numBytes 1024) 0 []
        return (((counter.map asInt).getD (-1), buffer), lib.assign fdesc)

/-- The loop of `my_write`: `counter` at its end, unless a call fails. -/
def writeLoop (fileId : Nat) (buffer : Nat → UInt8) :
    Nat → FileDesc → Nat → Nat → Nat → ApiM (Option Nat × FileDesc)
  | 0, fdesc, numBytes, _, counter =>
      if numBytes = 0 then return (some counter, fdesc) else .halt .rounds
  | left + 1, fdesc, numBytes, wBytes, counter =>
      if numBytes = 0 then return (some counter, fdesc)
      else do
        let wBytes := min wBytes numBytes
        match ← snfsWrite fileId fdesc.writeOffset wBytes (fun k => buffer (counter + k)) with
        | none => return (none, fdesc)
        | some fsize =>
            writeLoop fileId buffer left
              { fdesc with size := fsize, writeOffset := (fdesc.writeOffset + wBytes) % 2 ^ 32 }
              (numBytes - wBytes) wBytes (counter + wBytes)

/-- `my_write` -/
def myWrite (fileId : Nat) (buffer : Nat → UInt8) (numBytes : Nat) (lib : Lib) :
    ApiM (Int × Lib) := do
  match lib.get fileId with
  | none => return (-1, lib)
  | some fdesc =>
      let (counter, fdesc) ← writeLoop fileId buffer numBytes fdesc numBytes (min numBytes 1024) 0
      return ((counter.map asInt).getD (-1), lib.assign fdesc)

/-- `my_close` -/
def myClose (fileId : Nat) (lib : Lib) : Int × Lib :=
  match lib.remove fileId with
  | none => (-1, lib)
  | some lib => (0, { lib with openFiles := lib.openFiles - 1 })

/-! ### Calls of a program -/

/-- A call that a program makes of the library. -/
inductive UserCall
  | openFile (name : CStr) (flags : Int)
  | read (fileId numBytes : Nat)
  | write (fileId : Nat) (buffer : Nat → UInt8) (numBytes : Nat)
  | close (fileId : Nat)
  | mkdir (dirname : CStr)

/-- What the call returns, the bytes it has put in its buffer, and the library afterwards -/
def UserCall.prog (lib : Lib) : UserCall → ApiM ((Int × List UInt8) × Lib)
  | openFile name flags => do
      let (fileId, lib) ← myOpen name flags lib
      return ((fileId, []), lib)
  | read fileId numBytes => myRead fileId numBytes lib
  | write fileId buffer numBytes => do
      let (counter, lib) ← myWrite fileId buffer numBytes lib
      return ((counter, []), lib)
  | close fileId => return (((myClose fileId lib).1, []), (myClose fileId lib).2)
  | mkdir dirname => do
      let status ← myMkdir dirname
      return ((status, []), lib)

/-! ### Consecutive calls -/

/-- Calls of `my_write` with the pieces of a buffer, from `pos` on: what they return -/
def writePieces (fileId : Nat) (buffer : Nat → UInt8) :
    Nat → List Nat → Lib → ApiM (List Int × Lib)
  | _, [], lib => return ([], lib)
  | pos, n :: rest, lib => do
      let (r, lib) ← myWrite fileId (fun k => buffer (pos + k)) n lib
      let (rs, lib) ← writePieces fileId buffer (pos + n) rest lib
      return (r :: rs, lib)

/-- Calls of `my_read` of these sizes: what they return, and all the bytes that they read -/
def readPieces (fileId : Nat) : List Nat → Lib → ApiM ((List Int × List UInt8) × Lib)
  | [], lib => return (([], []), lib)
  | n :: rest, lib => do
      let ((r, bytes), lib) ← myRead fileId n lib
      let ((rs, more), lib) ← readPieces fileId rest lib
      return ((r :: rs, bytes ++ more), lib)

end Sthreads.Client
