/-
The handlers of the server (`snfs_server/snfs.c`) and the service of a request in
`thread_consumer` (`snfs_server/server.c`).

Every handler has three parts: it takes its input arguments out of the request, calls the
file system, and puts the results in the response.  The first part is `Args.ofReq` and the
last is `respond`, for all handlers; the middle is the function with the handler's name,
which returns `none` where the status stays `RES_ERROR`.

`thread_consumer` fills the response with zeros before it calls the handler.
-/
import Sthreads.Snfs.Cached
import Sthreads.Snfs.Proto

namespace Sthreads.Snfs

/-- What a handler finds on the stack where it has initialised nothing: in the arrays, and in
`fileid` of `snfs_lookup`. -/
structure Stack where
  page : Page 512
  fileid : UInt16

/-! ### Input arguments -/

/-- The input arguments of the handlers. -/
inductive Args
  | ping
  | lookup (file : CStr)
  | read (file offset count : Nat)
  | write (file offset count : Nat) (data : Nat → UInt8)
  | create (dir : Nat) (name : CStr)
  | mkdir (dir : Nat) (f : CStr)
  | readdir (dir maxentries : Nat)
  | copy (srcpath tgtpath : CStr)

namespace Args

/-- `(inodeid_t)`, of a handle -/
def inodeid (fhandle : UInt32) : Nat := fhandle.toNat % 2 ^ 16

def lookupOf (b : Page 1036) : Args := .lookup (b.cstr 0)

def readOf (b : Page 1036) : Args :=
  .read (inodeid (b.word 0)) (b.word 4).toNat (b.word 8).toNat

def writeOf (b : Page 1036) : Args :=
  .write (inodeid (b.word 0)) (b.word 4).toNat (b.word 8).toNat fun i => b.get (12 + i)

/-- With `name[MAX_FILE_NAME_SIZE-1] = '\0'`. -/
def createOf (b : Page 1036) : Args := .create (inodeid (b.word 0)) ((b.set 17 0).cstr 4)

/-- With `f[MAX_FILE_NAME_SIZE-1] = '\0'`. -/
def mkdirOf (b : Page 1036) : Args := .mkdir (inodeid (b.word 0)) ((b.set 17 0).cstr 4)

def readdirOf (b : Page 1036) : Args := .readdir (inodeid (b.word 0)) (b.word 4).toNat

def copyOf (b : Page 1036) : Args := .copy (b.cstr 0) (b.cstr 200)

/-- The arguments that the handler of a request's type takes; a type may have no handler. -/
def ofReq (req : Req) : Option Args :=
  match req.type with
  | 1 => some .ping
  | 2 => some (lookupOf req.body)
  | 3 => some (readOf req.body)
  | 4 => some (writeOf req.body)
  | 5 => some (createOf req.body)
  | 6 => some (mkdirOf req.body)
  | 7 => some (readdirOf req.body)
  | 8 => some (copyOf req.body)
  | _ => none

/-- `res->type` -/
def type : Args → Int
  | ping => 1
  | lookup _ => 2
  | read .. => 3
  | write .. => 4
  | create .. => 5
  | mkdir .. => 6
  | readdir .. => 7
  | copy .. => 8

/-- The size of the response's body. -/
def size : Args → Nat
  | ping => 256
  | lookup _ => 8
  | read .. => 1028
  | write .. => 4
  | create .. => 4
  | mkdir .. => 4
  | readdir .. => 1540
  | copy .. => 0

end Args

/-! ### Handlers -/

/-- `snfs_ping`, which answers `hello` -/
def snfsPing : FsM (Option Results) := return some (.ping [104, 101, 108, 108, 111])

/-- `snfs_lookup`; `fs_lookup` may succeed without writing `fileid` -/
def snfsLookup (stack : Stack) (file : CStr) : FsM (Option Results) := do
  let (found, fileid) ← fsLookup stack.page file
  if found ≠ 1 then return none
  let fileid := fileid.getD stack.fileid.toNat
  let (status, attrs) ← fsGetAttrs fileid
  if status ≠ 0 then return none
  return attrs.map fun a => .lookup (UInt32.ofNat fileid) (UInt32.ofNat a.size)

/-- `snfs_read` -/
def snfsRead (stack : Stack) (file offset count : Nat) : FsM (Option Results) := do
  if count > 1024 then return none
  let (status, nread, data) ← fsRead stack.page file offset count
  if status ≠ 0 then return none
  return nread.map fun n => .read data (UInt32.ofNat n)

/-- `snfs_write` -/
def snfsWrite (stack : Stack) (file offset count : Nat) (data : Nat → UInt8) :
    FsM (Option Results) := do
  if count > 1024 then return none
  let status ← fsWrite stack.page file offset count data
  if status ≠ 0 then return none
  let (status, attrs) ← fsGetAttrs file
  if status ≠ 0 then return none
  return attrs.map fun a => .write (UInt32.ofNat a.size)

/-- `snfs_create` -/
def snfsCreate (stack : Stack) (dir : Nat) (name : CStr) : FsM (Option Results) := do
  let (status, fileid) ← fsCreate stack.page dir name
  if status ≠ 0 then return none
  return fileid.map fun id => .create (UInt32.ofNat id)

/-- `snfs_mkdir` -/
def snfsMkdir (stack : Stack) (dir : Nat) (f : CStr) : FsM (Option Results) := do
  let (status, dirid) ← fsMkdir stack.page dir f
  if status ≠ 0 then return none
  return dirid.map fun id => .mkdir (UInt32.ofNat id)

/-- The body of the loop of `snfs_readdir`. -/
def dirEntry (name : List UInt8) (itype : Nat) : FsM DirEntry :=
  let entry (type : UInt32) : DirEntry :=
    ⟨fun k => name.getD k 0, UInt32.ofNat (min name.length 14), type⟩
  if itype = 1 then return entry 1
  else if itype = 2 then return entry 2
  else .halt .exit

/-- The loop of `snfs_readdir`. -/
def dirEntries : List (List UInt8 × Nat) → FsM (List DirEntry)
  | [] => return []
  | (name, itype) :: rest => do
      let e ← dirEntry name itype
      return e :: (← dirEntries rest)

/-- `snfs_readdir`, whose array has 64 entries -/
def snfsReaddir (stack : Stack) (dir maxentries : Nat) : FsM (Option Results) := do
  let (status, entries) ← fsReaddir stack.page dir (asInt maxentries)
  if status ≠ 0 then return none
  let entries := entries.getD []
  if entries.length > 64 then .halt .entriesOverrun
  return some (.readdir (← dirEntries entries))

/-- `snfs_copy` -/
def snfsCopy (srcpath tgtpath : CStr) : FsM (Option Results) := do
  let status ← fsCopy srcpath tgtpath
  if status ≠ 0 then return none
  return some .copy

/-- Call the handler. -/
def Args.handler (stack : Stack) : Args → FsM (Option Results)
  | ping => snfsPing
  | lookup file => snfsLookup stack file
  | read file offset count => snfsRead stack file offset count
  | write file offset count data => snfsWrite stack file offset count data
  | create dir name => snfsCreate stack dir name
  | mkdir dir f => snfsMkdir stack dir f
  | readdir dir maxentries => snfsReaddir stack dir maxentries
  | copy srcpath tgtpath => snfsCopy srcpath tgtpath

/-! ### The service of a request -/

/-- The response and `ressz`, as the handlers leave them. -/
def respond (a : Args) : Option Results → Res × Nat
  | none => (⟨a.type, 0, resError, fun _ => 0⟩, resHeaderSize + a.size)
  | some r => (⟨a.type, 0, resOk, r.body⟩, resHeaderSize + a.size)

/-- What `thread_consumer` does with a request: the response and its size. -/
def serve (stack : Stack) (req : Req) : FsM (Res × Nat) :=
  match Args.ofReq req with
  | none => return (⟨0, req.sn, resUnknown, fun _ => 0⟩, resHeaderSize)
  | some a => do
      let (res, ressz) := respond a (← a.handler stack)
      return ({ res with sn := req.sn }, ressz)

/-- The server between two requests: with its file system, or ended. -/
inductive ServerState
  | up (fs : Fs)
  | ended (e : Halt)

/-- The server handles a request. -/
def ServerState.step : ServerState → Stack × Req → Option ServerState
  | up fs, (stack, req) =>
      match Prog.run Fs.handler (serve stack req) fs with
      | .ok (_, fs') => some (.up fs')
      | .error e => some (.ended e)
  | ended _, _ => none

/-- `snfs_init`, with storage of so many blocks -/
def snfsInit (numBlocks : Nat) (readings : Nat → Int) : Except Halt ServerState := do
  return .up (← (← Fs.fsNew numBlocks readings).fsFormat)

end Sthreads.Snfs
