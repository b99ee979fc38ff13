/-
Giving the processor up and getting it.

`ready` is what the two runqueues hold, in the order in which it would be
dispatched; a function that gives the processor up takes the head of it, whichever
of the two runqueues that is in.  Every such function of the source ends in
`bloquear` or, when it has just filed the caller or a thread that the caller
released, in `rq_retirar` alone.

The loops of the source that rebuild a list (`sthread_user_exit` over the joiners,
`sthread_user_dispatcher` over the sleepers) move threads between the lists and
change no more than that; what they keep is proved by induction on the list.
-/
import Sthreads.User.Sched
import Sthreads.Proofs.User.Runqueue
import Mathlib.Data.Multiset.ZeroCons

namespace Sthreads.User

open Runqueue

namespace Sched

/-- The threads of the two runqueues, in the order in which they would be dispatched. -/
def ready (s : Sched) : List Tid := s.activeRq.threads ++ s.expiredRq.threads

/-- The lists of threads that are neither ready nor in the wait queue of a lock. -/
def lists (s : Sched) : List Tid :=
  s.sleepThrList ++ (s.joinThrList ++ (s.zombieThrList ++ s.deadThrList))

/-- The places that are neither the processor nor the wait queue of a lock. -/
def offCpu (s : Sched) : Multiset Tid := ↑(s.ready ++ s.lists)

/-- The places that are not the wait queue of a lock. -/
def slots (s : Sched) : Multiset Tid := ↑(s.activeThr.toList ++ (s.ready ++ s.lists))

/-- Every thread is filed under one of the fifteen priorities. -/
def PrioInRange (s : Sched) : Prop := ∀ t, InRange (s.thr t).priority

/-! ### Filing a thread -/

theorem offCpu_inserirActive {s : Sched} (h : s.PrioInRange) (t : Tid) :
    (s.inserirActive t).offCpu = t ::ₘ s.offCpu := by
  rw [offCpu, offCpu, Multiset.cons_coe, Multiset.coe_eq_coe]
  have hp := threads_rqInserir s.activeRq (h t) t
  exact (hp.append_right s.expiredRq.threads).append_right s.lists

theorem offCpu_inserirExpired {s : Sched} (h : s.PrioInRange) (t : Tid) :
    (s.inserirExpired t).offCpu = t ::ₘ s.offCpu := by
  rw [offCpu, offCpu, Multiset.cons_coe, Multiset.coe_eq_coe]
  have hp := threads_rqInserir s.expiredRq (h t) t
  exact ((hp.append_left s.activeRq.threads).trans List.perm_middle).append_right s.lists

/-- A runqueue a thread was just filed in is not empty. -/
theorem rqInserir_ne_nil (rq : Runqueue) {p : Int} (hp : InRange p) (t : Tid) :
    (rq.rqInserir p t).threads ≠ [] := by
  intro hnil
  have hperm := threads_rqInserir rq hp t
  rw [hnil] at hperm
  exact absurd hperm.symm.eq_nil (by simp)

theorem inserirActive_ne_nil {s : Sched} (h : s.PrioInRange) (t : Tid) :
    (s.inserirActive t).activeRq.threads ≠ [] := rqInserir_ne_nil s.activeRq (h t) t

theorem ready_inserirActive_ne_nil {s : Sched} (h : s.PrioInRange) (t : Tid) :
    (s.inserirActive t).ready ≠ [] :=
  fun hc => inserirActive_ne_nil h t (List.append_eq_nil_iff.mp hc).1

theorem ready_inserirExpired_ne_nil {s : Sched} (h : s.PrioInRange) (t : Tid) :
    (s.inserirExpired t).ready ≠ [] :=
  fun hc => rqInserir_ne_nil s.expiredRq (h t) t (List.append_eq_nil_iff.mp hc).2

/-! ### Taking the next thread -/

/-- `s'` is `s` after `old`, to be resumed at `p`, gave the processor to the head of `ready`. -/
def Dispatches (s s' : Sched) (old : Tid) (p : Point) : Prop :=
  ∃ a e, s' = { s with activeThr := s.ready.head?, activeRq := a, expiredRq := e
                       point := Function.update s.point old p } ∧
    a.threads ++ e.threads = s.ready.tail

/-- `rq_retirar` on an `active_rq` with threads in it, and the switch. -/
theorem dispatches_retirarActive {s : Sched} (h : s.activeRq.threads ≠ []) (old : Tid)
    (p : Point) : Dispatches s (s.retirarActive.sthreadSwitch old p) old p := by
  unfold Dispatches retirarActive ready
  cases hr : s.activeRq.rqRetirar with
  | none => exact absurd (rqRetirar_none.mp hr) h
  | some pr =>
      obtain ⟨t, rq⟩ := pr
      have hth := rqRetirar_some hr
      exact ⟨rq, s.expiredRq, by simp [hth, sthreadSwitch, setPoint], by simp [hth]⟩

/-- The tail of the blocking functions. -/
theorem dispatches_bloquear (s : Sched) (old : Tid) (p : Point) :
    Dispatches s (s.bloquear old p) old p := by
  unfold bloquear trocarSeVazia
  by_cases hv : s.activeRq.rqVazia = true
  · rw [if_pos hv]
    have hnil := rqVazia_iff.mp hv
    have hready : s.trocarRunqueues.ready = s.ready := by simp [ready, trocarRunqueues, hnil]
    by_cases he : s.expiredRq.threads = []
    · refine ⟨s.expiredRq, s.activeRq, ?_, by simp [ready, hnil, he]⟩
      simp [trocarRunqueues, retirarActive, rqRetirar_none.mpr he, sthreadSwitch, setPoint,
        ready, hnil, he]
    · obtain ⟨a, e, heq, hth⟩ := dispatches_retirarActive (s := s.trocarRunqueues) he old p
      rw [hready] at heq hth
      exact ⟨a, e, heq, hth⟩
  · rw [if_neg hv]
    exact dispatches_retirarActive (fun hc => hv (rqVazia_iff.mpr hc)) old p

namespace Dispatches

variable {s s' : Sched} {old : Tid} {p : Point}

theorem activeThr (h : Dispatches s s' old p) : s'.activeThr = s.ready.head? := by
  obtain ⟨a, e, rfl, -⟩ := h
  rfl

theorem point (h : Dispatches s s' old p) : s'.point = Function.update s.point old p := by
  obtain ⟨a, e, rfl, -⟩ := h
  rfl

theorem locks (h : Dispatches s s' old p) : s'.locks = s.locks := by
  obtain ⟨a, e, rfl, -⟩ := h
  rfl

theorem mons (h : Dispatches s s' old p) : s'.mons = s.mons := by
  obtain ⟨a, e, rfl, -⟩ := h
  rfl

theorem tidGen (h : Dispatches s s' old p) : s'.tidGen = s.tidGen := by
  obtain ⟨a, e, rfl, -⟩ := h
  rfl

theorem level (h : Dispatches s s' old p) : s'.level = s.level := by
  obtain ⟨a, e, rfl, -⟩ := h
  rfl

theorem thr (h : Dispatches s s' old p) : s'.thr = s.thr := by
  obtain ⟨a, e, rfl, -⟩ := h
  rfl

theorem sleepThrList (h : Dispatches s s' old p) : s'.sleepThrList = s.sleepThrList := by
  obtain ⟨a, e, rfl, -⟩ := h
  rfl

theorem ready (h : Dispatches s s' old p) : s'.ready = s.ready.tail := by
  obtain ⟨a, e, rfl, hth⟩ := h
  exact hth

/-- After a dispatch the slots are what was off the processor before it. -/
theorem slots (h : Dispatches s s' old p) : s'.slots = s.offCpu := by
  obtain ⟨a, e, rfl, hth⟩ := h
  have hsplit : s.ready.head?.toList ++ s.ready.tail = s.ready := by cases s.ready <;> rfl
  change ((s.ready.head?.toList ++ ((a.threads ++ e.threads) ++ s.lists) : List Tid) :
    Multiset Tid) = ↑(s.ready ++ s.lists)
  rw [hth, ← List.append_assoc, hsplit]

end Dispatches

/-! ### The loops over the lists -/

/-- `s'` is `s` after the threads of `xs` that are not left in `ys` were filed in `active_rq`. -/
def Refiles (s s' : Sched) (xs ys : List Tid) : Prop :=
  ∃ th a, s' = { s with thr := th, activeRq := a } ∧
    (∀ u, (th u).priority = (s.thr u).priority) ∧
    (a.threads ++ ys).Perm (s.activeRq.threads ++ xs)

namespace Refiles

variable {s s' s'' : Sched} {t : Tid} {xs ys zs : List Tid}

theorem refl (s : Sched) (xs : List Tid) : Refiles s s xs xs :=
  ⟨s.thr, s.activeRq, rfl, fun _ => rfl, List.Perm.refl _⟩

/-- One thread, with fields other than its priority changed, is filed; the rest follows. -/
theorem file {v : Thread} (h : s.PrioInRange)
    (hrest : Refiles ((s.setThread t v).inserirActive t) s' xs ys)
    (hv : v.priority = (s.thr t).priority) : Refiles s s' (t :: xs) ys := by
  obtain ⟨th, a, rfl, hth, hperm⟩ := hrest
  have hprio : ∀ u, (Function.update s.thr t v u).priority = (s.thr u).priority := by
    intro u
    by_cases hu : u = t
    · rw [hu, Function.update_self, hv]
    · rw [Function.update_of_ne hu]
  have hfile : (s.activeRq.rqInserir (Function.update s.thr t v t).priority t).threads.Perm
      (t :: s.activeRq.threads) := threads_rqInserir _ (hprio t ▸ h t) t
  refine ⟨th, a, rfl, fun u => (hth u).trans (hprio u), hperm.trans ?_⟩
  exact (hfile.append_right xs).trans List.perm_middle.symm

/-- A thread is left where it is; the rest follows. -/
theorem keep (hperm : xs.Perm zs) (hrest : Refiles s s' xs ys) : Refiles s s' zs ys := by
  obtain ⟨th, a, rfl, hth, hp⟩ := hrest
  exact ⟨th, a, rfl, hth, hp.trans (hperm.append_left _)⟩

theorem prioInRange (h : Refiles s s' xs ys) (hs : s.PrioInRange) : s'.PrioInRange := by
  obtain ⟨th, a, rfl, hth, -⟩ := h
  intro u
  change InRange (th u).priority
  rw [hth u]
  exact hs u

end Refiles

theorem PrioInRange.setThread {s : Sched} (h : s.PrioInRange) {t : Tid} {v : Thread}
    (hv : InRange v.priority) : (s.setThread t v).PrioInRange := by
  intro u
  change InRange (Function.update s.thr t v u).priority
  by_cases hu : u = t
  · rwa [hu, Function.update_self]
  · rw [Function.update_of_ne hu]
    exact h u

theorem refiles_wakeJoiners (t : Tid) (ret : Ptr) :
    ∀ (xs : List Tid) (s : Sched) (tmp : List Tid) (z : Bool), s.PrioInRange →
      Refiles s (wakeJoiners t ret xs s tmp z).1 (xs ++ tmp) (wakeJoiners t ret xs s tmp z).2.1 := by
  intro xs
  induction xs with
  | nil =>
      intro s tmp z _
      exact Refiles.refl s tmp
  | cons j rest ih =>
      intro s tmp z hs
      unfold wakeJoiners
      split
      · have hfiled : ((s.setThread j { s.thr j with joinRet := ret }).inserirActive j).PrioInRange :=
          hs.setThread (hs j)
        exact Refiles.file hs (ih _ tmp false hfiled) rfl
      · exact Refiles.keep (by rw [← List.append_assoc]; exact List.perm_append_singleton j _)
          (ih s (tmp ++ [j]) z hs)

theorem refiles_wakeSleepers :
    ∀ (xs : List Tid) (s : Sched) (tmp : List Tid), s.PrioInRange →
      Refiles s (wakeSleepers xs s tmp).1 (xs ++ tmp) (wakeSleepers xs s tmp).2 := by
  intro xs
  induction xs with
  | nil =>
      intro s tmp _
      exact Refiles.refl s tmp
  | cons j rest ih =>
      intro s tmp hs
      unfold wakeSleepers
      split
      · have hfiled : ((s.setThread j { s.thr j with wakeTime := 0, quantum := quantumBase
                                       }).inserirActive j).PrioInRange := hs.setThread (hs j)
        exact Refiles.file hs (ih _ tmp hfiled) rfl
      · exact Refiles.keep (by rw [← List.append_assoc]; exact List.perm_append_singleton j _)
          (ih s (tmp ++ [j]) hs)

end Sched

end Sthreads.User
