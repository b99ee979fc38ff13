/-
The user-level scheduler, its mutexes and its monitors
(`sthread_lib/sthread_user.c`).

The globals of the source are one record.  A function of the interface runs from
its call to its first context switch; what is left of it runs when the thread is
dispatched again, and `Point` says where each thread is.  `sthread_switch` saves
nothing but that point: the interrupt level set by `splx` belongs to the
processor.

Only one function has a switch point inside a callee: `sthread_user_monitor_wait`
calls `sthread_user_mutex_unlock`, which may preempt its caller.  A thread that is
preempted there still has the second half of `sthread_user_monitor_wait` to run.
-/
import Sthreads.User.Thread

namespace Sthreads.User

/-- A lock: a mutex of its own or the mutex inside a monitor. -/
inductive Lock
  | mutex (n : Nat)
  | monitor (m : Nat)
  deriving DecidableEq, Repr

/-- `struct _sthread_mutex` -/
structure Mutex where
  l : Bool
  thr : Option Tid
  queue : List Tid
  deriving DecidableEq, Repr

/-- `sthread_user_mutex_init` -/
def mutexInit : Mutex := ⟨false, none, []⟩

/-- The two interrupt levels of `splx`. -/
inductive Level
  /-- Ticks are ignored. -/
  | high
  /-- Ticks are delivered. -/
  | low
  deriving DecidableEq, Repr

/-- Where a thread is; every constructor but `user` is a call of `sthread_switch`. -/
inductive Point
  /-- In user code. -/
  | user
  /-- Before its first instruction, `sthread_aux_start`. -/
  | start
  | yield
  | sleep
  /-- In `sthread_user_join` of that thread. -/
  | join (u : Tid)
  /-- In the blocking branch of `sthread_user_mutex_lock`. -/
  | lock (l : Lock)
  /-- Preempted in `sthread_user_mutex_unlock`, called by user code. -/
  | unlock
  /-- Preempted in `sthread_user_mutex_unlock`, called by `sthread_user_monitor_wait`. -/
  | unlockInWait (m : Nat)
  /-- At the end of `sthread_user_monitor_wait`. -/
  | wait (m : Nat)
  /-- Preempted in `sthread_user_dispatcher`. -/
  | tick
  | exited
  deriving DecidableEq, Repr

/-- What a thread's last call with a result returned, and what it wrote through `value_ptr`. -/
inductive Result
  | none
  | status (r : Int)
  | joined (r : Int) (value : Option Ptr)
  | created (t : Tid)
  deriving DecidableEq, Repr

/-- The scheduler's globals, with the control blocks, the mutexes and the monitors. -/
structure Sched where
  thr : Tid → Thread
  point : Tid → Point
  result : Tid → Result
  activeRq : Runqueue
  expiredRq : Runqueue
  blockedList : List Tid
  deadThrList : List Tid
  sleepThrList : List Tid
  joinThrList : List Tid
  zombieThrList : List Tid
  activeThr : Option Tid
  tidGen : Nat
  clock : Int
  level : Level
  locks : Lock → Mutex
  mons : Nat → List Tid

namespace Sched

/-! ### Writing one thread, one lock, one monitor -/

def setThread (s : Sched) (t : Tid) (v : Thread) : Sched :=
  { s with thr := Function.update s.thr t v }

def setPoint (s : Sched) (t : Tid) (p : Point) : Sched :=
  { s with point := Function.update s.point t p }

def setResult (s : Sched) (t : Tid) (r : Result) : Sched :=
  { s with result := Function.update s.result t r }

def setLock (s : Sched) (l : Lock) (v : Mutex) : Sched :=
  { s with locks := Function.update s.locks l v }

def setMon (s : Sched) (m : Nat) (q : List Tid) : Sched :=
  { s with mons := Function.update s.mons m q }

/-- `splx` -/
def splx (s : Sched) (v : Level) : Sched := { s with level := v }

/-- `rq_inserir(active_rq, t)` -/
def inserirActive (s : Sched) (t : Tid) : Sched :=
  { s with activeRq := s.activeRq.rqInserir (s.thr t).priority t }

/-- `rq_inserir(expired_rq, t)` -/
def inserirExpired (s : Sched) (t : Tid) : Sched :=
  { s with expiredRq := s.expiredRq.rqInserir (s.thr t).priority t }

/-- `trocar_runqueues` -/
def trocarRunqueues (s : Sched) : Sched :=
  { s with activeRq := s.expiredRq, expiredRq := s.activeRq }

/-- `if (rq_vazia(active_rq)) trocar_runqueues();` -/
def trocarSeVazia (s : Sched) : Sched :=
  if s.activeRq.rqVazia then s.trocarRunqueues else s

/-- `active_thr = rq_retirar(active_rq);` -/
def retirarActive (s : Sched) : Sched :=
  match s.activeRq.rqRetirar with
  | some (t, rq) => { s with activeThr := some t, activeRq := rq }
  | none => { s with activeThr := none }

/-- `sthread_switch(old->saved_ctx, active_thr->saved_ctx)`: `old` is resumed at `p`. -/
def sthreadSwitch (s : Sched) (old : Tid) (p : Point) : Sched := s.setPoint old p

/-- The tail of the blocking functions: the next thread runs, `old` is resumed at `p`. -/
def bloquear (s : Sched) (old : Tid) (p : Point) : Sched :=
  s.trocarSeVazia.retirarActive.sthreadSwitch old p

/-- Set the calling thread's fields to what `recalcular` makes of them. -/
def recalcularThr (s : Sched) (t : Tid) : Sched := s.setThread t (recalcular (s.thr t))

/-! ### Start, creation, nice -/

/-- `sthread_user_init`: the main thread is thread 1. -/
def userInit : Sched where
  thr := Function.update (fun _ => newThread 0) 1 (newThread 7)
  point := fun t => if t = 1 then .user else .start
  result := fun _ => .none
  activeRq := criarRunqueue
  expiredRq := criarRunqueue
  blockedList := []
  deadThrList := []
  sleepThrList := []
  joinThrList := []
  zombieThrList := []
  activeThr := some 1
  tidGen := 2
  clock := 1
  level := .low
  locks := fun _ => mutexInit
  mons := fun _ => []

/-- `sthread_user_create_p` -/
def userCreateP (s : Sched) (t : Tid) (priority : Int) : Sched :=
  let priority := if priority < 0 then 0 else priority
  let priority := if priority > 14 then 14 else priority
  let new := s.tidGen
  let s := (s.setThread new (newThread priority)).splx .high
  let s := { s with tidGen := s.tidGen + 1, point := Function.update s.point new .start }
  ((s.inserirActive new).splx .low).setResult t (.created new)

/-- `sthread_user_create` -/
def userCreate (s : Sched) (t : Tid) : Sched := s.userCreateP t 7

/-- `sthread_user_nice` -/
def userNice (s : Sched) (t : Tid) (nice : Int) : Sched :=
  let nice := if nice < 0 then 0 else nice
  let nice := if nice > 10 then 10 else nice
  let s := s.setThread t { s.thr t with nice := nice }
  s.setResult t
    (.status (clampDynamic ((s.thr t).basePriority - (s.thr t).quantum + nice)))

/-! ### Exit -/

/-- The loop of `sthread_user_exit` over `join_thr_list`: the joiners of `t` become ready.
Returns the list left over and whether no joiner was found. -/
def wakeJoiners (t : Tid) (ret : Ptr) :
    List Tid → Sched → List Tid → Bool → Sched × List Tid × Bool
  | [], s, tmp, isZombie => (s, tmp, isZombie)
  | j :: rest, s, tmp, isZombie =>
      if (s.thr j).joinTid = t then
        wakeJoiners t ret rest
          ((s.setThread j { s.thr j with joinRet := ret }).inserirActive j) tmp false
      else wakeJoiners t ret rest s (tmp ++ [j]) isZombie

/-- `sthread_user_exit` up to the test for the end of the program. -/
def exitLists (s : Sched) (t : Tid) (ret : Ptr) : Sched :=
  let s := s.splx .high
  let (s, tmp, isZombie) := wakeJoiners t ret s.joinThrList s [] true
  let s := { s with joinThrList := tmp }
  if isZombie then { s with zombieThrList := s.zombieThrList ++ [t] }
  else { s with deadThrList := s.deadThrList ++ [t] }

/-- `sthread_user_exit`; `none` is its `exit(0)`. -/
def userExit (s : Sched) (t : Tid) (ret : Ptr) : Option Sched :=
  let s := s.exitLists t ret
  if s.activeRq.rqVazia && s.expiredRq.rqVazia then none
  else some (s.bloquear t .exited)

/-! ### The dispatcher -/

/-- The loop of `sthread_user_dispatcher` over `sleep_thr_list`; returns the list left over. -/
def wakeSleepers : List Tid → Sched → List Tid → Sched × List Tid
  | [], s, tmp => (s, tmp)
  | t :: rest, s, tmp =>
      if (s.thr t).wakeTime ≤ s.clock then
        wakeSleepers rest
          ((s.setThread t { s.thr t with wakeTime := 0, quantum := quantumBase }).inserirActive t)
          tmp
      else wakeSleepers rest s (tmp ++ [t])

/-- `sthread_user_dispatcher` up to the charge of the running thread. -/
def tickWake (s : Sched) : Sched :=
  let s := { s with clock := s.clock + 1 }
  let (s, tmp) := wakeSleepers s.sleepThrList s []
  { s with sleepThrList := tmp }

/-- `sthread_user_dispatcher` -/
def userDispatcher (s : Sched) (t : Tid) : Sched :=
  let s := s.tickWake
  let s := s.setThread t { s.thr t with quantum := (s.thr t).quantum - 1 }
  if (s.thr t).quantum > 0 then
    let melhor := s.activeRq.rqMelhorPrio
    if melhor ≠ -1 ∧ melhor < (s.thr t).priority then
      (s.inserirActive t).retirarActive.sthreadSwitch t .tick
    else s
  else
    let s := (s.setThread t { s.thr t with quantum := 0 }).recalcularThr t
    (s.inserirExpired t).bloquear t .tick

/-! ### Yield, join, sleep -/

/-- `sthread_user_yield`; the test of `rq_vazia` after the insertion is kept as it stands. -/
def userYield (s : Sched) (t : Tid) : Sched :=
  let s := ((s.splx .high).recalcularThr t).inserirActive t
  if s.activeRq.rqVazia then
    let s := s.retirarActive
    if s.activeThr = some t then s.splx .low
    else s.retirarActive.sthreadSwitch t .yield
  else s.retirarActive.sthreadSwitch t .yield

/-- The search of `sthread_user_join` for a thread that has not terminated. -/
def joinFinds (s : Sched) (t u : Tid) : Bool :=
  t == u ||
    (List.range numPriorities).any (fun i => (s.activeRq.filas i).contains u) ||
    (List.range numPriorities).any (fun i => (s.expiredRq.filas i).contains u) ||
    s.sleepThrList.contains u || s.joinThrList.contains u

/-- `sthread_user_join` -/
def userJoin (s : Sched) (t u : Tid) : Sched :=
  let s := s.splx .high
  if s.zombieThrList.contains u then
    let s := { s with
      deadThrList := s.deadThrList ++ s.zombieThrList.filter (· == u)
      zombieThrList := s.zombieThrList.filter (· != u) }
    (s.setResult t (.joined 0 (some (s.thr u).joinRet))).splx .low
  else if s.joinFinds t u then
    let s := s.setThread t { s.thr t with joinTid := u }
    { s with joinThrList := s.joinThrList ++ [t] }.bloquear t (.join u)
  else (s.setResult t (.joined (-1) none)).splx .low

/-- `sthread_user_sleep` -/
def userSleep (s : Sched) (t : Tid) (time : Int) : Sched :=
  let s := s.splx .high
  let numTicks := (10 * time).tdiv clockTick
  if numTicks = 0 then (s.setResult t (.status 0)).splx .low
  else
    let s := s.setThread t { s.thr t with wakeTime := s.clock + numTicks }
    { s with sleepThrList := s.sleepThrList ++ [t] }.bloquear t .sleep

/-! ### Mutexes -/

/-- `while (atomic_test_and_set(&(lock->l))) {}`; a lock that is never cleared spins for ever. -/
def spin (s : Sched) (l : Lock) : Option Sched :=
  if (s.locks l).l then none else some (s.setLock l { s.locks l with l := true })

/-- `atomic_clear(&(lock->l))` -/
def atomicClear (s : Sched) (l : Lock) : Sched := s.setLock l { s.locks l with l := false }

/-- `sthread_user_mutex_lock` -/
def userMutexLock (s : Sched) (t : Tid) (l : Lock) : Option Sched := do
  let s ← s.spin l
  match (s.locks l).thr with
  | none =>
      let s := s.setLock l { s.locks l with thr := some t }
      some (s.atomicClear l)
  | some _ =>
      let s := s.recalcularThr t
      let s := s.setLock l { s.locks l with queue := (s.locks l).queue ++ [t] }
      let s := { s with blockedList := s.blockedList ++ [t] }
      some (((s.atomicClear l).splx .high).bloquear t (.lock l))

/-- `sthread_user_mutex_unlock`, called where a preempted caller is resumed at `p`.  The flag
says whether the call returned, that is, did not preempt its caller. -/
def userMutexUnlock (s : Sched) (t : Tid) (l : Lock) (p : Point) : Option (Sched × Bool) :=
  if (s.locks l).thr ≠ some t then some (s, true)
  else do
    let s ← s.spin l
    match (s.locks l).queue with
    | [] => some ((s.setLock l { s.locks l with thr := none }).atomicClear l, true)
    | u :: rest =>
        let s := { s with blockedList := s.blockedList.filter (· != u) }
        let s := s.setLock l { s.locks l with thr := some u, queue := rest }
        let s := s.inserirActive u
        if (s.thr u).priority < (s.thr t).priority then
          let s := s.atomicClear l
          some ((s.inserirActive t).retirarActive.sthreadSwitch t p, false)
        else some (s.atomicClear l, true)

/-! ### Monitors -/

/-- `sthread_user_monitor_enter` -/
def userMonitorEnter (s : Sched) (t : Tid) (m : Nat) : Option Sched :=
  s.userMutexLock t (.monitor m)

/-- `sthread_user_monitor_exit` -/
def userMonitorExit (s : Sched) (t : Tid) (m : Nat) : Option Sched :=
  (s.userMutexUnlock t (.monitor m) .unlock).map Prod.fst

/-- The second half of `sthread_user_monitor_wait`. -/
def waitBlock (s : Sched) (t : Tid) (m : Nat) : Sched := (s.splx .high).bloquear t (.wait m)

/-- `sthread_user_monitor_wait` -/
def userMonitorWait (s : Sched) (t : Tid) (m : Nat) : Option Sched :=
  if (s.locks (.monitor m)).thr ≠ some t then some s
  else do
    let s := s.recalcularThr t
    let s := s.setMon m (s.mons m ++ [t])
    let s := { s with blockedList := s.blockedList ++ [t] }
    let (s, returned) ← s.userMutexUnlock t (.monitor m) (.unlockInWait m)
    some (if returned then s.waitBlock t m else s)

/-- `sthread_user_monitor_signal` -/
def userMonitorSignal (s : Sched) (t : Tid) (m : Nat) : Option Sched :=
  if (s.locks (.monitor m)).thr ≠ some t then some s
  else do
    let s ← s.spin (.monitor m)
    match s.mons m with
    | [] => some (s.atomicClear (.monitor m))
    | u :: rest =>
        let s := s.setMon m rest
        let s := { s with blockedList := s.blockedList.filter (· != u) }
        let mu := s.locks (.monitor m)
        let s := s.setLock (.monitor m) { mu with queue := mu.queue ++ [u] }
        some (s.atomicClear (.monitor m))

/-! ### The dump -/

/-- What `sthread_user_dump` prints under its headings; a thread in a queue is its id and its
quantum. -/
structure Dump where
  id : Tid
  priority : Int
  quantum : Int
  activeRunqueue : List (List (Tid × Int))
  expiredRunqueue : List (List (Tid × Int))
  blockedList : List (Tid × Int)
  deriving DecidableEq, Repr

/-- The threads of a queue as the loops of `sthread_user_dump` print them. -/
def dumpQueue (s : Sched) (q : List Tid) : List (Tid × Int) :=
  q.map fun u => (u, (s.thr u).quantum)

/-- `sthread_user_dump`, which reads `active_thr` first. -/
def userDump (s : Sched) : Option Dump :=
  s.activeThr.map fun t =>
    { id := t
      priority := (s.thr t).priority
      quantum := (s.thr t).quantum
      activeRunqueue :=
        (List.range numPriorities).map fun i : Nat => s.dumpQueue (s.activeRq.filas i)
      expiredRunqueue :=
        (List.range numPriorities).map fun i : Nat => s.dumpQueue (s.expiredRq.filas i)
      blockedList := s.dumpQueue s.blockedList }

/-! ### Steps -/

/-- A call that user code makes. -/
inductive Call
  | create (priority : Int)
  | nice (nice : Int)
  | exit (ret : Ptr)
  | yield
  | join (u : Tid)
  | sleep (time : Int)
  | mutexLock (n : Nat)
  | mutexUnlock (n : Nat)
  | monitorEnter (m : Nat)
  | monitorExit (m : Nat)
  | monitorWait (m : Nat)
  | monitorSignal (m : Nat)
  deriving DecidableEq, Repr

/-- A call by the running thread, up to its return or its context switch.  The argument of a
join is the control block of a thread that was created. -/
def call (s : Sched) (t : Tid) : Call → Option Sched
  | .create priority => some (s.userCreateP t priority)
  | .nice n => some (s.userNice t n)
  | .exit ret => s.userExit t ret
  | .yield => some (s.userYield t)
  | .join u => if 1 ≤ u ∧ u < s.tidGen then some (s.userJoin t u) else none
  | .sleep time => some (s.userSleep t time)
  | .mutexLock n => s.userMutexLock t (.mutex n)
  | .mutexUnlock n => (s.userMutexUnlock t (.mutex n) .unlock).map Prod.fst
  | .monitorEnter m => s.userMonitorEnter t m
  | .monitorExit m => s.userMonitorExit t m
  | .monitorWait m => s.userMonitorWait t m
  | .monitorSignal m => s.userMonitorSignal t m

/-- What a dispatched thread does before it is in user code again, or gives the processor up. -/
def resume (s : Sched) (t : Tid) : Option Sched :=
  match s.point t with
  | .user => none
  | .start => some ((s.splx .low).setPoint t .user)
  | .yield => some ((s.splx .low).setPoint t .user)
  | .sleep => some (((s.splx .low).setResult t (.status 0)).setPoint t .user)
  | .join u =>
      some (((s.setResult t (.joined 0 (some (s.thr u).joinRet))).splx .low).setPoint t .user)
  | .lock _ => some ((s.splx .low).setPoint t .user)
  | .wait _ => some ((s.splx .low).setPoint t .user)
  | .exited => some ((s.splx .low).setPoint t .user)
  | .unlock => some (s.setPoint t .user)
  | .tick => some (s.setPoint t .user)
  | .unlockInWait m => some (s.waitBlock t m)

/-- A step of the scheduler. -/
inductive Act
  /-- The running thread, in user code, makes a call. -/
  | call (c : Call)
  /-- A tick is delivered while the running thread is in user code. -/
  | tick
  /-- The dispatched thread goes on from its switch point. -/
  | resume
  deriving DecidableEq, Repr

/-- One step.  With `active_thr` null there is none: the program has crashed. -/
def step (s : Sched) (a : Act) : Option Sched :=
  match s.activeThr with
  | none => none
  | some t =>
      match a with
      | .call c => if s.point t = .user then s.call t c else none
      | .tick =>
          if s.point t = .user ∧ s.level = .low then some (s.userDispatcher t) else none
      | .resume => s.resume t

end Sched

end Sthreads.User
