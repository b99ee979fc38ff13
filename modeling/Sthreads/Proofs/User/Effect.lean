/-
What a step of the scheduler can do, seen from the places, the points and the locks.

`Places` is the abstract state: who runs, who is in a slot, where each thread is
suspended, and the locks and monitors.  The clock, the priorities and the order of
the runqueues are gone; so a dispatch may pick anybody.  `Effect` lists what one
step of the running thread can do to it, and is the only thing the safety proofs
know about the scheduler.  That every step of the model has one of these effects
is `Proofs/User/Refine.lean`.
-/
import Sthreads.Proofs.User.Placed
import Mathlib.Data.Multiset.AddSub

namespace Sthreads.User

/-- The abstract state of the scheduler. -/
structure Places where
  run : Option Tid
  slots : Multiset Tid
  point : Tid → Point
  locks : Lock → Mutex
  mons : Nat → List Tid
  tidGen : Nat

/-- A lock after its owner gave it up: the oldest thread of its queue owns it. -/
def Mutex.handed (v : Mutex) : Mutex := ⟨false, v.queue.head?, v.queue.tail⟩

namespace Sched.Act

/-- The lock that a call takes. -/
def takes : Act → Option Lock
  | call (.mutexLock n) => some (.mutex n)
  | call (.monitorEnter m) => some (.monitor m)
  | _ => none

/-- The lock that a call gives up if its caller owns it. -/
def givesUp : Act → Option Lock
  | call (.mutexUnlock n) => some (.mutex n)
  | call (.monitorExit m) => some (.monitor m)
  | call (.monitorWait m) => some (.monitor m)
  | _ => none

end Sched.Act

open Sched

/-- What a step of the running thread `t` can do. -/
inductive Effect (P : Places) (t : Tid) : Act → Places → Prop
  | stay (a : Act) : Effect P t a P
  | create (a : Act) :
      Effect P t a { P with slots := P.tidGen ::ₘ P.slots
                            point := Function.update P.point P.tidGen .start
                            tidGen := P.tidGen + 1 }
  /-- Returns to user code from a switch point. -/
  | enter (hx : (P.point t).extra = 0) :
      Effect P t .resume { P with point := Function.update P.point t .user }
  /-- Gives the processor up without waiting for a lock. -/
  | leave (a : Act) (p : Point) (r : Option Tid) (hu : P.point t = .user) (hp : p ≠ .user)
      (hneeds : p.needs = none) (hx : p.extra = 0) :
      Effect P t a { P with run := r, point := Function.update P.point t p }
  | acquire (a : Act) (l : Lock) (ha : a.takes = some l) (hfree : (P.locks l).thr = none) :
      Effect P t a
        { P with locks := Function.update P.locks l ⟨false, some t, (P.locks l).queue⟩ }
  | block (a : Act) (l : Lock) (r : Option Tid) (sl : Multiset Tid) (hu : P.point t = .user)
      (ha : a.takes = some l) (htaken : (P.locks l).thr ≠ none) (hsl : P.slots = t ::ₘ sl) :
      Effect P t a
        { P with run := r, slots := sl, point := Function.update P.point t (.lock l)
                 locks := Function.update P.locks l
                   ⟨false, (P.locks l).thr, (P.locks l).queue ++ [t]⟩ }
  | unlock (a : Act) (l : Lock) (hu : P.point t = .user) (ha : a.givesUp = some l)
      (hown : (P.locks l).thr = some t) :
      Effect P t a
        { P with slots := ↑(P.locks l).queue.head?.toList + P.slots
                 locks := Function.update P.locks l (P.locks l).handed }
  /-- Gives a lock up to a thread that is dispatched at once. -/
  | unlockPreempted (a : Act) (l : Lock) (r : Option Tid) (hu : P.point t = .user)
      (ha : a.givesUp = some l) (hown : (P.locks l).thr = some t) :
      Effect P t a
        { P with run := r, slots := ↑(P.locks l).queue.head?.toList + P.slots
                 point := Function.update P.point t .unlock
                 locks := Function.update P.locks l (P.locks l).handed }
  | wait (m : Nat) (r : Option Tid) (sl : Multiset Tid) (hu : P.point t = .user)
      (hown : (P.locks (.monitor m)).thr = some t)
      (hsl : ↑(P.locks (.monitor m)).queue.head?.toList + P.slots = t ::ₘ sl) :
      Effect P t (.call (.monitorWait m))
        { P with run := r, slots := sl, point := Function.update P.point t (.wait m)
                 locks := Function.update P.locks (.monitor m) (P.locks (.monitor m)).handed
                 mons := Function.update P.mons m (P.mons m ++ [t]) }
  /-- The first half of a wait, when the thread that gets the monitor preempts the caller. -/
  | waitPreempted (m : Nat) (r : Option Tid) (hu : P.point t = .user)
      (hown : (P.locks (.monitor m)).thr = some t) :
      Effect P t (.call (.monitorWait m))
        { P with run := r, slots := ↑(P.locks (.monitor m)).queue.head?.toList + P.slots
                 point := Function.update P.point t (.unlockInWait m)
                 locks := Function.update P.locks (.monitor m) (P.locks (.monitor m)).handed
                 mons := Function.update P.mons m (P.mons m ++ [t]) }
  /-- The second half of a wait whose first half was preempted. -/
  | finishWait (m : Nat) (r : Option Tid) (sl : Multiset Tid) (hu : P.point t = .unlockInWait m)
      (hsl : P.slots = t ::ₘ sl) :
      Effect P t .resume
        { P with run := r, slots := sl, point := Function.update P.point t (.wait m) }
  | signal (m : Nat) (u : Tid) (rest : List Tid)
      (hown : (P.locks (.monitor m)).thr = some t) (hmon : P.mons m = u :: rest) :
      Effect P t (.call (.monitorSignal m))
        { P with locks := Function.update P.locks (.monitor m)
                   ⟨false, (P.locks (.monitor m)).thr, (P.locks (.monitor m)).queue ++ [u]⟩
                 mons := Function.update P.mons m rest }

/-! ### Every effect keeps the counting invariant -/

/-- The owner gives a lock up, to the oldest thread of its queue if there is one. -/
theorem Placed.handed {sl : Multiset Tid} {pt : Tid → Point} {lk : Lock → Mutex}
    {mn : Nat → List Tid} {n : Nat} (h : Placed sl pt lk mn n) {t : Tid} {l : Lock}
    (how : (lk l).thr = some t) (ht : (pt t).needs = some l → Waits lk mn t)
    (hq : t ∉ (lk l).queue) :
    Placed (↑(lk l).queue.head?.toList + sl) pt (Function.update lk l (lk l).handed) mn n := by
  cases hqueue : (lk l).queue with
  | nil =>
      have hrel := h.release (v := (lk l).handed) how ht hqueue (by simp [Mutex.handed, hqueue])
      simpa using hrel
  | cons u rest =>
      have hne : u ≠ t := by
        rintro rfl
        exact hq (by rw [hqueue]; simp)
      exact h.handover how ht hqueue (by simp [Mutex.handed, hqueue])
        (by simp [Mutex.handed, hqueue]) hne rfl

/-- The invariant of the abstract state. -/
structure Places.Ok (P : Places) : Prop where
  placed : Placed P.slots P.point P.locks P.mons P.tidGen
  clear : ∀ l, (P.locks l).l = false
  user : ∀ t, P.point t = .user → P.run = some t
  tids : 1 ≤ P.tidGen

namespace Places.Ok

variable {P : Places}

/-- A thread in user code needs no lock, so it waits for none. -/
theorem user_not_waits (h : P.Ok) {t : Tid} (hu : P.point t = .user) :
    ¬ Waits P.locks P.mons t := h.placed.not_waits (by rw [hu]; rfl)

/-- A thread in a slot with one switch point to pass does not wait. -/
theorem slot_not_waits (h : P.Ok) {t : Tid} (ht : t ∈ P.slots) (hx : (P.point t).extra = 0) :
    ¬ Waits P.locks P.mons t := by
  intro hw
  have hc := h.placed.countWaits t hw
  rw [hx, Multiset.count_eq_zero] at hc
  exact hc ht

theorem clear_update (h : P.Ok) {l : Lock} {v : Mutex} (hv : v.l = false) :
    ∀ l', (Function.update P.locks l v l').l = false := by
  intro l'
  by_cases hl : l' = l
  · rw [hl, Function.update_self, hv]
  · rw [Function.update_of_ne hl]
    exact h.clear l'

/-- When the running thread leaves user code, nobody is in user code. -/
theorem user_update (h : P.Ok) {t : Tid} {p : Point} {r : Option Tid} (hrun : P.run = some t)
    (hp : p ≠ .user) : ∀ u, Function.update P.point t p u = .user → r = some u := by
  intro u hu
  by_cases hut : u = t
  · rw [hut, Function.update_self] at hu
    exact absurd hu hp
  · rw [Function.update_of_ne hut] at hu
    have := h.user u hu
    rw [hrun, Option.some.injEq] at this
    exact absurd this.symm hut

end Places.Ok

/-- The registration, the release and the switch of `sthread_user_monitor_wait`, up to the
switch. -/
theorem Places.Ok.registered {P : Places} (h : P.Ok) {t : Tid} {m : Nat} (ht : t ∈ P.slots)
    (hu : P.point t = .user) (hown : (P.locks (.monitor m)).thr = some t) :
    Placed (↑(P.locks (.monitor m)).queue.head?.toList + P.slots)
      (Function.update P.point t (.unlockInWait m))
      (Function.update P.locks (.monitor m) (P.locks (.monitor m)).handed)
      (Function.update P.mons m (P.mons m ++ [t])) P.tidGen := by
  have hneeds : (P.point t).needs = none := by rw [hu]; rfl
  have hreg := h.placed.register (m := m) ht hneeds (by rw [hu]; rfl)
  refine hreg.handed hown (fun _ => Or.inl ⟨m, by simp⟩) ?_
  intro hq
  exact h.user_not_waits hu (Or.inr ⟨_, hq⟩)

/-- What one step can do keeps the invariant. -/
theorem Effect.ok {P P' : Places} {t : Tid} {a : Act} (he : Effect P t a P') (h : P.Ok)
    (hrun : P.run = some t) (ht : t ∈ P.slots) : P'.Ok := by
  cases he with
  | stay => exact h
  | create =>
      have hpl := h.placed.create h.tids
      refine ⟨hpl, h.clear, fun u hu => ?_, Nat.le_succ_of_le h.tids⟩
      by_cases hun : u = P.tidGen
      · simp [hun] at hu
      · exact h.user u (by simpa [Function.update_of_ne hun] using hu)
  | enter hx =>
      have hpl := h.placed.move (p := .user) ht (h.slot_not_waits ht hx) hx rfl rfl
      refine ⟨hpl, h.clear, fun u hu => ?_, h.tids⟩
      by_cases hut : u = t
      · rw [hut]
        exact hrun
      · exact h.user u (by simpa [Function.update_of_ne hut] using hu)
  | leave a p r hu hp hneeds hx =>
      have hpl := h.placed.move ht (h.user_not_waits hu) (by rw [hu]; rfl) hneeds hx
      exact ⟨hpl, h.clear, h.user_update hrun hp, h.tids⟩
  | acquire a l ha hfree =>
      exact ⟨h.placed.acquire hfree rfl, h.clear_update rfl, h.user, h.tids⟩
  | block a l r sl hu ha htaken hsl =>
      have hpl := h.placed.block (v := ⟨false, (P.locks l).thr, (P.locks l).queue ++ [t]⟩) hsl
        (by rw [hu]; rfl) (by rw [hu]; rfl) rfl htaken rfl
      exact ⟨hpl, h.clear_update rfl, h.user_update hrun (by simp), h.tids⟩
  | unlock a l hu ha hown =>
      have hpl := h.placed.handed hown (fun hn => by rw [hu] at hn; simp [Point.needs] at hn)
        fun hq => h.user_not_waits hu (Or.inr ⟨l, hq⟩)
      exact ⟨hpl, h.clear_update rfl, h.user, h.tids⟩
  | unlockPreempted a l r hu ha hown =>
      have hpl := h.placed.handed hown (fun hn => by rw [hu] at hn; simp [Point.needs] at hn)
        fun hq => h.user_not_waits hu (Or.inr ⟨l, hq⟩)
      have hnw := hpl.not_waits (t := t) (by rw [hu]; rfl)
      have hmv := hpl.move (p := .unlock) (Multiset.mem_add.mpr (Or.inr ht)) hnw (by rw [hu]; rfl)
        rfl rfl
      exact ⟨hmv, h.clear_update rfl, h.user_update hrun (by simp), h.tids⟩
  | wait m r sl hu hown hsl =>
      have hfin := (h.registered ht hu hown).finishWait hsl (Function.update_self _ _ _)
      rw [Function.update_idem] at hfin
      exact ⟨hfin, h.clear_update rfl, h.user_update hrun (by simp), h.tids⟩
  | waitPreempted m r hu hown =>
      exact ⟨h.registered ht hu hown, h.clear_update rfl, h.user_update hrun (by simp), h.tids⟩
  | finishWait m r sl hu hsl =>
      exact ⟨h.placed.finishWait hsl hu, h.clear, h.user_update hrun (by simp), h.tids⟩
  | signal m u rest hown hmon =>
      have hpl := h.placed.signal
        (v := ⟨false, (P.locks (.monitor m)).thr, (P.locks (.monitor m)).queue ++ [u]⟩)
        hmon rfl (by rw [hown]; simp) rfl
      exact ⟨hpl, h.clear_update rfl, h.user, h.tids⟩

/-- No step takes a created thread back. -/
theorem Effect.tidGen_le {P P' : Places} {t : Tid} {a : Act} (h : Effect P t a P') :
    P.tidGen ≤ P'.tidGen := by
  cases h with
  | create => exact Nat.le_succ _
  | _ => exact Nat.le_refl _

end Sthreads.User
