/-
The queues of the scheduler (`sthread_lib/queue.c`).

The cells of all queues are objects of one heap, and one removed cell is kept for the next
insertion, in whatever queue that is.  A pointer `struct _sthread *` is the thread's name, and
zero is `NULL`.
-/
import Sthreads.Lib.LinkedList
import Sthreads.User.Thread

namespace Sthreads.User

/-- `queue_element_t`; its value is `thread`. -/
abbrev QueueElement := Link Tid

/-- What `queue.c` works on, with the threads that it gave to `sthread_user_free`. -/
structure QueueMem where
  queues : Heap Ends
  elements : Heap QueueElement
  emptyElementPtr : Addr
  freed : List Tid

namespace QueueMem

def start : QueueMem := ⟨.empty, .empty, 0, []⟩

/-- `create_queue` -/
def createQueue (k : Chunk Ends) (m : QueueMem) : Except Fault (Addr × QueueMem) := do
  let (queue, queues) := m.queues.malloc k
  let queues ← queues.modify queue fun q => { q with first := 0 }
  let queues ← queues.modify queue fun q => { q with last := 0 }
  return (queue, { m with queues := queues, emptyElementPtr := 0 })

/-- The loop of `delete_queue`.  A list has no more cells than there are objects. -/
def deleteLoop : Nat → Addr → QueueMem → Except Fault QueueMem
  | 0, pointer, m => if pointer = 0 then return m else .error .endless
  | left + 1, pointer, m =>
      if pointer = 0 then return m
      else do
        let element ← m.elements.load pointer
        let next := element.next
        let m := { m with freed := m.freed ++ [element.val] }
        let elements ← m.elements.free pointer
        deleteLoop left next { m with elements := elements }

/-- `delete_queue` -/
def deleteQueue (queue : Addr) (m : QueueMem) : Except Fault QueueMem := do
  let q ← m.queues.load queue
  let m ← deleteLoop m.elements.top q.first m
  let queues ← m.queues.free queue
  return { m with queues := queues }

/-- The cell that `queue_insert` takes: the one that is kept, or a new one. -/
def takeElement (k : Chunk QueueElement) (m : QueueMem) : Addr × QueueMem :=
  if m.emptyElementPtr = 0 then
    let (element, elements) := m.elements.malloc k
    (element, { m with elements := elements })
  else (m.emptyElementPtr, { m with emptyElementPtr := 0 })

/-- `queue_insert` -/
def queueInsert (queue : Addr) (thread : Tid) (k : Chunk QueueElement) (m : QueueMem) :
    Except Fault QueueMem := do
  let (newElement, m) := m.takeElement k
  let elements ← m.elements.modify newElement fun e => { e with val := thread }
  let elements ← elements.modify newElement fun e => { e with next := 0 }
  let q ← m.queues.load queue
  if q.first = 0 then
    let queues ← m.queues.modify queue fun q => { q with first := newElement }
    let queues ← queues.modify queue fun q => { q with last := newElement }
    return { m with queues := queues, elements := elements }
  else
    let elements ← elements.modify q.last fun e => { e with next := newElement }
    let queues ← m.queues.modify queue fun q => { q with last := newElement }
    return { m with queues := queues, elements := elements }

/-- `queue_is_empty` -/
def queueIsEmpty (queue : Addr) (m : QueueMem) : Except Fault Int := do
  let q ← m.queues.load queue
  return if q.first = 0 then 1 else 0

/-- `queue_first` -/
def queueFirst (queue : Addr) (m : QueueMem) : Except Fault Tid := do
  let q ← m.queues.load queue
  let element ← m.elements.load q.first
  return element.val

/-- `queue_remove` -/
def queueRemove (queue : Addr) (m : QueueMem) : Except Fault (Tid × QueueMem) := do
  let q ← m.queues.load queue
  let temp := q.first
  let element ← m.elements.load temp
  let queues ← m.queues.modify queue fun q => { q with first := element.next }
  let thread := element.val
  let elements ← m.elements.modify temp fun e => { e with val := 0 }
  let elements ← elements.modify temp fun e => { e with next := 0 }
  if m.emptyElementPtr ≠ 0 then
    let elements ← elements.free temp
    return (thread, { m with queues := queues, elements := elements })
  else
    return (thread, { m with queues := queues, elements := elements, emptyElementPtr := temp })

end QueueMem

/-! ### Calls -/

/-- A call of a function of `queue.c`. -/
inductive QueueCall
  | create (k : Chunk Ends)
  | insert (queue : Addr) (thread : Tid) (k : Chunk QueueElement)
  | remove (queue : Addr)
  | isEmpty (queue : Addr)
  | first (queue : Addr)
  | delete (queue : Addr)
  deriving DecidableEq, Repr

/-- What a call returns. -/
inductive QueueResult
  | queue (a : Addr)
  | thread (t : Tid)
  | flag (i : Int)
  | unit
  deriving DecidableEq, Repr

namespace QueueMem

def call (m : QueueMem) : QueueCall → Except Fault (QueueResult × QueueMem)
  | .create k => (m.createQueue k).map fun r => (.queue r.1, r.2)
  | .insert queue thread k => (m.queueInsert queue thread k).map fun m' => (.unit, m')
  | .remove queue => (m.queueRemove queue).map fun r => (.thread r.1, r.2)
  | .isEmpty queue => (m.queueIsEmpty queue).map fun i => (.flag i, m)
  | .first queue => (m.queueFirst queue).map fun t => (.thread t, m)
  | .delete queue => (m.deleteQueue queue).map fun m' => (.unit, m')

/-- Calls one after the other, and what they return -/
def calls : List QueueCall → QueueMem → Except Fault (List QueueResult × QueueMem)
  | [], m => return ([], m)
  | c :: rest, m => do
      let (r, m) ← m.call c
      let (rs, m) ← calls rest m
      return (r :: rs, m)

/-- The same memory with something else for the pointer of a queue to its last cell -/
def withLast (m : QueueMem) (queue p : Addr) : QueueMem :=
  match m.queues.obj queue with
  | none => m
  | some q => { m with queues := m.queues.put queue { q with last := p } }

end QueueMem

/-! ### Independent queues -/

/-- What the queues are for: by the address of a queue, the threads in it, oldest first. -/
abbrev Fifos := Addr → Option (List Tid)

namespace Fifos

def start : Fifos := fun _ => none

/-- A call, if there is such a queue; nothing is removed from an empty one, and a new one is where
there is none. -/
def call (qs : Fifos) : QueueCall → Option (QueueResult × Fifos)
  | .create k =>
      if k.addr ≠ 0 ∧ qs k.addr = none then
        some (.queue k.addr, Function.update qs k.addr (some []))
      else none
  | .insert queue thread _ =>
      (qs queue).map fun l => (.unit, Function.update qs queue (some (l ++ [thread])))
  | .remove queue =>
      match qs queue with
      | some (t :: l) => some (.thread t, Function.update qs queue (some l))
      | _ => none
  | .isEmpty queue => (qs queue).map fun l => (.flag (if l.isEmpty then 1 else 0), qs)
  | .first queue => (qs queue).bind fun l => l.head?.map fun t => (.thread t, qs)
  | .delete queue => (qs queue).map fun _ => (.unit, Function.update qs queue none)

def calls : List QueueCall → Fifos → Option (List QueueResult × Fifos)
  | [], qs => some ([], qs)
  | c :: rest, qs => do
      let (r, qs) ← qs.call c
      let (rs, qs) ← calls rest qs
      return (r :: rs, qs)

end Fifos

end Sthreads.User
