/-
Threads and runqueues of the user-level scheduler (`sthread_lib/sthread_user.c`).

A thread is named by its `tid`; the fields of `struct _sthread` that the scheduler
reads are a record, and the pointer `struct _sthread *` is the name.  A queue is
the list of the threads in it, oldest first.  The fifteen queues of a runqueue are
indexed by the priority as the source indexes `filas`, an `int`.
-/
import Mathlib.Logic.Function.Basic

namespace Sthreads.User

/-- The name of a thread: its `tid`. -/
abbrev Tid := Nat

/-- A `void *`; zero is `NULL`. -/
abbrev Ptr := Nat

/-- `struct _sthread`. -/
structure Thread where
  wakeTime : Int
  joinTid : Tid
  joinRet : Ptr
  priority : Int
  basePriority : Int
  quantum : Int
  nice : Int
  deriving DecidableEq, Repr, Inhabited

/-- `NUM_PRIORITIES` -/
def numPriorities : Nat := 15

/-- `QUANTUM_BASE` -/
def quantumBase : Int := 5

/-- `STATIC_MAX_PRIO` -/
def staticMaxPrio : Int := 4

/-- `DYN_MIN_PRIO` -/
def dynMinPrio : Int := 5

/-- `CLOCK_TICK` -/
def clockTick : Int := 100

/-- A thread as `sthread_user_init` and `sthread_user_create_p` fill it in. -/
def newThread (priority : Int) : Thread :=
  { wakeTime := 0, joinTid := 0, joinRet := 0, priority := priority
    basePriority := priority, quantum := quantumBase, nice := 0 }

/-- The clamp of a dynamic priority to `DYN_MIN_PRIO .. 14`. -/
def clampDynamic (p : Int) : Int :=
  let p := if p < dynMinPrio then dynMinPrio else p
  if p > 14 then 14 else p

/-- `recalcular` -/
def recalcular (t : Thread) : Thread :=
  if t.priority ≤ staticMaxPrio then t
  else
    let qpu := t.quantum
    let novoQ := quantumBase + qpu.tdiv 2
    { t with
      quantum := if novoQ < 1 then 1 else novoQ
      priority := clampDynamic (t.basePriority - qpu + t.nice) }

/-- `runqueue_t` -/
structure Runqueue where
  filas : Int → List Tid

/-- `criar_runqueue` -/
def criarRunqueue : Runqueue := ⟨fun _ => []⟩

namespace Runqueue

/-- `rq_inserir`, for a thread of priority `p`. -/
def rqInserir (rq : Runqueue) (p : Int) (t : Tid) : Runqueue :=
  ⟨Function.update rq.filas p (rq.filas p ++ [t])⟩

/-- The scan over `filas` that `rq_retirar` and `rq_melhor_prio` make. -/
def primeiraFila (rq : Runqueue) : Option Nat :=
  (List.range numPriorities).find? fun i => !(rq.filas i).isEmpty

/-- `rq_retirar`; `none` is `NULL`. -/
def rqRetirar (rq : Runqueue) : Option (Tid × Runqueue) :=
  match rq.primeiraFila with
  | none => none
  | some i =>
      match rq.filas i with
      | [] => none
      | t :: rest => some (t, ⟨Function.update rq.filas i rest⟩)

/-- `rq_melhor_prio` -/
def rqMelhorPrio (rq : Runqueue) : Int :=
  match rq.primeiraFila with
  | none => -1
  | some i => i

/-- `rq_vazia` -/
def rqVazia (rq : Runqueue) : Bool := rq.rqMelhorPrio == -1

end Runqueue

end Sthreads.User
