/-
The open files of the client library in memory (`snfs_lib/queue.c`, `my_open` and `my_close` of
`snfs_lib/myfs.c`).

The queue, its cells and the descriptors are objects of three heaps; a `fd_t` is the address of
a descriptor.  The library has been initialised.
-/
import Sthreads.Client.Myfs
import Sthreads.Lib.LinkedList

namespace Sthreads.Client

open Snfs

/-- `queue_element_t`; its value is `fd`. -/
abbrev QueueElement := Link Addr

/-- The memory of the library, with `Open_files_list` and `Open_files`. -/
structure FileMem where
  queues : Heap Ends
  elements : Heap QueueElement
  descs : Heap FileDesc
  openFilesList : Addr
  openFiles : Int

namespace FileMem

/-! ### The queue -/

/-- `queue_create` -/
def queueCreate (k : Chunk Ends) (m : FileMem) : Except Fault (Addr × FileMem) := do
  let (queue, queues) := m.queues.malloc k
  let queues ← queues.modify queue fun q => { q with first := 0 }
  let queues ← queues.modify queue fun q => { q with last := 0 }
  return (queue, { m with queues := queues })

/-- `queue_enqueue` -/
def queueEnqueue (queue fd : Addr) (k : Chunk QueueElement) (m : FileMem) :
    Except Fault FileMem := do
  if queue = 0 ∨ fd = 0 then return m
  let (newElement, elements) := m.elements.malloc k
  let elements ← elements.modify newElement fun e => { e with val := fd }
  let elements ← elements.modify newElement fun e => { e with next := 0 }
  let q ← m.queues.load queue
  if q.first = 0 then
    let queues ← m.queues.modify queue fun q => { q with first := newElement }
    let queues ← queues.modify queue fun q => { q with last := newElement }
    return { m with queues := queues, elements := elements }
  else
    let elements ← elements.modify q.last fun e => { e with next := newElement }
    let queues ← m.queues.modify queue fun q => { q with last := newElement }
    return { m with queues := queues, elements := elements }

/-- What `queue_dequeue` assigns to the ends of the queue, whose first cell is `outElement` -/
def dequeueEnds (queue outElement : Addr) (q : Ends) (m : FileMem) : Except Fault (Heap Ends) := do
  if q.first = q.last then
    let queues ← m.queues.modify queue fun q => { q with first := 0 }
    queues.modify queue fun q => { q with last := 0 }
  else
    let element ← m.elements.load outElement
    m.queues.modify queue fun q => { q with first := element.next }

/-- `queue_dequeue` -/
def queueDequeue (queue : Addr) (m : FileMem) : Except Fault (Addr × FileMem) := do
  if queue = 0 then return (0, m)
  let q ← m.queues.load queue
  if q.first = 0 then return (0, m)
  let outElement := q.first
  let queues ← m.dequeueEnds queue outElement q
  let element ← m.elements.load outElement
  let elements ← m.elements.free outElement
  return (element.val, { m with queues := queues, elements := elements })

/-- What `queue_node_remove` assigns to `queue->last` when the cell `aux2` leaves -/
def unlinkEnds (queue aux1 aux2 : Addr) (q : Ends) (m : FileMem) : Except Fault (Heap Ends) :=
  if q.last = aux2 then m.queues.modify queue fun q => { q with last := aux1 } else return m.queues

/-- What `queue_node_remove` does with the cell `aux2`, which follows `aux1` -/
def unlinkNode (queue aux1 aux2 : Addr) (m : FileMem) : Except Fault (Addr × FileMem) := do
  let q ← m.queues.load queue
  let queues ← m.unlinkEnds queue aux1 aux2 q
  let element ← m.elements.load aux2
  let elements ← m.elements.modify aux1 fun e => { e with next := element.next }
  let element ← elements.load aux2
  let elements ← elements.free aux2
  return (element.val, { m with queues := queues, elements := elements })

/-- The loop of `queue_node_remove`.  A list has no more cells than there are objects. -/
def nodeRemoveLoop (queue : Addr) (fileId : Nat) :
    Nat → Addr → Addr → FileMem → Except Fault (Addr × FileMem)
  | 0, _, aux2, m => if aux2 = 0 then return (0, m) else .error .endless
  | left + 1, aux1, aux2, m =>
      if aux2 = 0 then return (0, m)
      else do
        let element ← m.elements.load aux2
        let fd ← m.descs.load element.val
        if fd.fileId = fileId then m.unlinkNode queue aux1 aux2
        else nodeRemoveLoop queue fileId left aux2 element.next m

/-- `queue_node_remove`, which reads `queue->first` before it looks at `queue` -/
def queueNodeRemove (queue : Addr) (fileId : Nat) (m : FileMem) : Except Fault (Addr × FileMem) := do
  let q ← m.queues.load queue
  if queue = 0 then return (0, m)
  let aux1 := q.first
  if aux1 = 0 then return (0, m)
  let element ← m.elements.load aux1
  let fd ← m.descs.load element.val
  if fd.fileId = fileId then m.queueDequeue queue
  else nodeRemoveLoop queue fileId m.elements.top aux1 element.next m

/-! ### `my_open` and `my_close` -/

/-- What `my_init_lib` leaves -/
def initLib (k : Chunk Ends) : Except Fault FileMem := do
  let (queue, m) ← queueCreate k ⟨.empty, .empty, .empty, 0, 0⟩
  return { m with openFilesList := queue }

/-- What `my_open` does with the file that the server names -/
def opened (kd : Chunk FileDesc) (ke : Chunk QueueElement) (file : UInt32) (fsize : Nat)
    (m : FileMem) : Except Fault (Int × FileMem) := do
  let (fdesc, descs) := m.descs.malloc kd
  let descs ← descs.modify fdesc fun d => { d with fileId := file.toNat }
  let descs ← descs.modify fdesc fun d => { d with size := fsize }
  let descs ← descs.modify fdesc fun d => { d with writeOffset := 0 }
  let descs ← descs.modify fdesc fun d => { d with readOffset := 0 }
  let m ← queueEnqueue m.openFilesList fdesc ke { m with descs := descs }
  return (asInt file.toNat, { m with openFiles := m.openFiles + 1 })

end FileMem

/-- What `my_open` asks of the server: the file and its size, if it is found or created. -/
def openOnServer (name : CStr) (flags : Int) : ApiM (Option (UInt32 × Nat)) := do
  let (i, newfilename, newdirname) := splitName name
  let (found, file, fsize) ← snfsLookup name
  if found then return some (file, (fsize.map UInt32.toNat).getD 0)
  else
    let (_, dir, fsize) ← snfsLookup newdirname
    let dir := if i = 1 then 1 else dir
    if flags = 1 then
      match ← snfsCreate dir newfilename with
      | none => return none
      | some file => return some (file, (fsize.map UInt32.toNat).getD 0)
    else return none

namespace FileMem

/-- `my_open` -/
def myOpen (name : CStr) (flags : Int) (kd : Chunk FileDesc) (ke : Chunk QueueElement)
    (m : FileMem) : ApiM (Except Fault (Int × FileMem)) := do
  if m.openFiles ≥ 10 then return .ok (-1, m)
  if !myparse name then return .ok (-1, m)
  match ← openOnServer name flags with
  | none => return .ok (-1, m)
  | some (file, fsize) => return m.opened kd ke file fsize

/-- `my_close` -/
def myClose (fileId : Nat) (m : FileMem) : Except Fault (Int × FileMem) := do
  let (temp, m) ← m.queueNodeRemove m.openFilesList fileId
  if temp = 0 then return (-1, m)
  let descs ← m.descs.free temp
  return (0, { m with descs := descs, openFiles := m.openFiles - 1 })

end FileMem

/-! ### Calls -/

/-- A call of `my_open`, with what `malloc` returns to it, or of `my_close`. -/
inductive FileCall
  | openFile (name : CStr) (flags : Int) (kd : Chunk FileDesc) (ke : Chunk QueueElement)
  | close (fileId : Nat)

/-- The call as one of a program -/
def FileCall.user : FileCall → UserCall
  | openFile name flags _ _ => .openFile name flags
  | close fileId => .close fileId

namespace FileMem

variable {σ : Type} (h : Prog.Handler ApiCall (fun _ => Option Results × UInt32) Halt σ)

/-- A call over some servers, of which nothing is assumed.  It does not return if they end. -/
def call (m : FileMem) (s : σ) : FileCall → Except Halt (Except Fault (Int × FileMem) × σ)
  | .openFile name flags kd ke => Prog.run h (m.myOpen name flags kd ke) s
  | .close fileId => .ok (m.myClose fileId, s)

/-- A call that returns -/
def step (x : FileMem × σ) (c : FileCall) : Option (FileMem × σ) :=
  match x.1.call h x.2 c with
  | .ok (.ok (_, m), s) => some (m, s)
  | _ => none

end FileMem

end Sthreads.Client
