/-
What a step writes to the control blocks.

A step writes to the block of the running thread, of a thread it creates, of the sleepers a
tick wakes and of the threads that join the one that exits.  `Writes` lists what is
written; `step_writes` says that a step does nothing else, so that what is said of a field
of the control blocks over a run is a case analysis of `Writes`.
-/
import Sthreads.Proofs.User.Epoch
import Sthreads.Proofs.User.MutexSafety

namespace Sthreads.User

open Sched Runqueue

/-- What a step of the running thread `t` can leave in the control block of `u`. -/
inductive Writes (s : Sched) (t : Tid) (a : Act) (u : Tid) : Thread → Prop
  | nothing : Writes s t a u (s.thr u)
  | create (priority : Int) (hu : u = s.tidGen) : Writes s t a u (newThread priority)
  | nice (n : Int) (hu : u = t) : Writes s t a u { s.thr u with nice := n }
  | recalcular (hu : u = t) : Writes s t a u (recalcular (s.thr u))
  | join (v : Tid) (hu : u = t) (ha : a = .call (.join v)) :
      Writes s t a u { s.thr u with joinTid := v }
  | sleep (time : Int) (hu : u = t) : Writes s t a u { s.thr u with wakeTime := time }
  /-- A joiner of the thread that exits. -/
  | joined (ret : Ptr) (ha : a = .call (.exit ret)) (hu : u ∈ s.joinThrList)
      (hj : (s.thr u).joinTid = t) : Writes s t a u { s.thr u with joinRet := ret }
  /-- A sleeper that is woken. -/
  | wake (ha : a = .tick) (hu : u ∈ s.sleepThrList) :
      Writes s t a u { s.thr u with wakeTime := 0, quantum := quantumBase }
  | charge (ha : a = .tick) (hu : u = t) (hq : 1 < (s.thr u).quantum) :
      Writes s t a u { s.thr u with quantum := (s.thr u).quantum - 1 }
  | expire (ha : a = .tick) (hu : u = t) (hq : (s.thr u).quantum ≤ 1) :
      Writes s t a u (Sthreads.User.recalcular { s.thr u with quantum := 0 })

namespace Sched

variable {s s₁ s' : Sched} {t u : Tid} {a : Act}

theorem setThread_thr (s : Sched) (t : Tid) (v : Thread) :
    (s.setThread t v).thr = Function.update s.thr t v := rfl

/-- A step that writes to one block. -/
theorem writes_update {w : Tid} {v : Thread} (hthr : s'.thr = Function.update s.thr w v)
    (hv : Writes s t a w v) (u : Tid) : Writes s t a u (s'.thr u) := by
  rw [hthr]
  by_cases hu : u = w
  · rw [hu, Function.update_self]
    exact hv
  · rw [Function.update_of_ne hu]
    exact .nothing

theorem writes_same (hthr : s'.thr = s.thr) (u : Tid) : Writes s t a u (s'.thr u) := by
  rw [hthr]
  exact .nothing

/-- A thread leaves the processor after its block was recalculated. -/
theorem writes_recalcular (hthr : s'.thr = (s.recalcularThr t).thr) (u : Tid) :
    Writes s t a u (s'.thr u) := writes_update hthr (.recalcular rfl) u

/-! ### The loops over the lists -/

/-- The loop of `sthread_user_exit` hands the value to the joiners. -/
theorem wakeJoiners_thr (t : Tid) (ret : Ptr) :
    ∀ (xs : List Tid) (s : Sched) (tmp : List Tid) (z : Bool) (u : Tid),
      (wakeJoiners t ret xs s tmp z).1.thr u =
        if u ∈ xs ∧ (s.thr u).joinTid = t then { s.thr u with joinRet := ret } else s.thr u := by
  intro xs
  induction xs with
  | nil => intro s tmp z u; simp [wakeJoiners]
  | cons j rest ih =>
      intro s tmp z u
      by_cases hj : (s.thr j).joinTid = t
      · rw [wakeJoiners, if_pos hj, ih]
        change (if u ∈ rest ∧ (Function.update s.thr j { s.thr j with joinRet := ret } u).joinTid = t
          then { Function.update s.thr j { s.thr j with joinRet := ret } u with joinRet := ret }
          else Function.update s.thr j { s.thr j with joinRet := ret } u) = _
        by_cases huj : u = j
        · subst huj
          simp [hj]
        · simp [huj]
      · rw [wakeJoiners, if_neg hj, ih]
        by_cases huj : u = j
        · subst huj
          simp [hj]
        · simp [huj]

theorem exitLists_thr (s : Sched) (t : Tid) (ret : Ptr) (u : Tid) :
    (s.exitLists t ret).thr u =
      if u ∈ s.joinThrList ∧ (s.thr u).joinTid = t then { s.thr u with joinRet := ret }
      else s.thr u := by
  have hloop := wakeJoiners_thr t ret (s.splx .high).joinThrList (s.splx .high) [] true u
  rw [← show (s.splx .high).thr = s.thr from rfl, ← show (s.splx .high).joinThrList = s.joinThrList
    from rfl, ← hloop]
  unfold exitLists
  dsimp only
  generalize wakeJoiners t ret (s.splx .high).joinThrList (s.splx .high) [] true = w
  obtain ⟨s₁, tmp, z⟩ := w
  cases z <;> rfl

/-- The loop of `sthread_user_dispatcher` writes to sleepers. -/
theorem wakeSleepers_thr :
    ∀ (xs : List Tid) (s : Sched) (tmp : List Tid) (u : Tid),
      (wakeSleepers xs s tmp).1.thr u = s.thr u ∨ u ∈ xs ∧
        (wakeSleepers xs s tmp).1.thr u =
          { s.thr u with wakeTime := 0, quantum := quantumBase } := by
  intro xs
  induction xs with
  | nil => exact fun s tmp u => Or.inl rfl
  | cons j rest ih =>
      intro s tmp u
      rw [wakeSleepers]
      split
      · have hrest := ih ((s.setThread j { s.thr j with
          wakeTime := 0, quantum := quantumBase }).inserirActive j) tmp u
        change _ = Function.update s.thr j _ u ∨ u ∈ rest ∧
          _ = { Function.update s.thr j _ u with wakeTime := 0, quantum := quantumBase } at hrest
        by_cases huj : u = j
        · subst huj
          rw [Function.update_self] at hrest
          exact Or.inr ⟨List.mem_cons_self, hrest.elim id And.right⟩
        · rw [Function.update_of_ne huj] at hrest
          exact hrest.imp_right fun h => ⟨List.mem_cons_of_mem _ h.1, h.2⟩
      · exact (ih s (tmp ++ [j]) u).imp_right fun h => ⟨List.mem_cons_of_mem _ h.1, h.2⟩

theorem tickWake_thr (s : Sched) (u : Tid) :
    s.tickWake.thr u = s.thr u ∨ u ∈ s.sleepThrList ∧
      s.tickWake.thr u = { s.thr u with wakeTime := 0, quantum := quantumBase } :=
  wakeSleepers_thr s.sleepThrList { s with clock := s.clock + 1 } [] u

/-! ### Steps -/

theorem writes_userDispatcher (hp : s.PrioInRange) (ht : t ∉ s.sleepThrList) (u : Tid) :
    Writes s t .tick u ((s.userDispatcher t).thr u) := by
  have hself : s.tickWake.thr t = s.thr t := (tickWake_keeps hp).2 t ht
  have hother : ∀ u, Writes s t .tick u (s.tickWake.thr u) := by
    intro u
    rcases tickWake_thr s u with hthr | ⟨hu, hthr⟩
    · rw [hthr]
      exact .nothing
    · rw [hthr]
      exact .wake rfl hu
  rw [userDispatcher_eq, hself]
  split
  · rename_i hq
    have hcharge : Writes s t .tick u ((s.tickCharge t).thr u) := by
      rw [tickCharge_thr, hself]
      by_cases hu : u = t
      · subst hu
        rw [Function.update_self]
        exact .charge rfl rfl (by omega)
      · rw [Function.update_of_ne hu]
        exact hother u
    split
    · rw [(dispatches_retirarActive (inserirActive_ne_nil (tickCharge_prio hp t) t) t .tick).thr]
      exact hcharge
    · exact hcharge
  · rename_i hq
    rw [(dispatches_bloquear ((s.tickExpire t).inserirExpired t) t .tick).thr]
    change Writes s t .tick u ((s.tickExpire t).thr u)
    by_cases hu : u = t
    · subst hu
      have hthr : (s.tickExpire u).thr u = recalcular { s.thr u with quantum := 0 } := by
        simp [tickExpire, recalcularThr, setThread, tickCharge_thr, hself]
      rw [hthr]
      exact .expire rfl rfl (by omega)
    · rw [tickExpire_thr s hu]
      exact hother u

theorem writes_userExit {ret : Ptr} (h : s.userExit t ret = some s') (u : Tid) :
    Writes s t (.call (.exit ret)) u (s'.thr u) := by
  unfold userExit at h
  dsimp only at h
  split at h
  · cases h
  · cases h
    rw [(dispatches_bloquear (s.exitLists t ret) t .exited).thr, exitLists_thr]
    split
    · rename_i hu
      exact .joined ret rfl hu.1 hu.2
    · exact .nothing

theorem writes_userJoin (s : Sched) (t v u : Tid) :
    Writes s t (.call (.join v)) u ((s.userJoin t v).thr u) := by
  unfold userJoin
  dsimp only
  split
  · exact .nothing
  · split
    · exact writes_update (dispatches_bloquear _ t (.join v)).thr (.join v rfl rfl) u
    · exact .nothing

theorem writes_userSleep (s : Sched) (t : Tid) (time : Int) (a : Act) (u : Tid) :
    Writes s t a u ((s.userSleep t time).thr u) := by
  unfold userSleep
  dsimp only
  split
  · exact .nothing
  · exact writes_update (dispatches_bloquear _ t .sleep).thr (.sleep _ rfl) u

theorem writes_userMutexLock (hi : s.Inv) {l : Lock} (h : s.userMutexLock t l = some s')
    (u : Tid) : Writes s t a u (s'.thr u) := by
  have hc : (s.locks l).l = false := hi.ok.clear l
  by_cases hfree : (s.locks l).thr = none
  · rw [userMutexLock_free hc hfree] at h
    cases h
    exact .nothing
  · rw [userMutexLock_taken hc hfree] at h
    cases h
    exact writes_recalcular (dispatches_bloquear (s.queued t l) t (.lock l)).thr u

/-- A release writes to no control block, whether or not it preempts its caller. -/
theorem thr_preempted (hp : s₁.PrioInRange) (l : Lock) (p : Point) :
    (((s₁.granted l).inserirActive t).retirarActive.sthreadSwitch t p).thr = s₁.thr :=
  (dispatches_granted hp t l p).thr.trans (granted_spec hp l).2.1

theorem thr_userMutexUnlock (hi : s.Inv) {l : Lock} {p : Point} {r : Sched × Bool}
    (h : s.userMutexUnlock t l p = some r) : r.1.thr = s.thr := by
  by_cases hown : (s.locks l).thr = some t
  · rw [userMutexUnlock_owner (hi.ok.clear l) hown] at h
    split at h <;> cases h
    · exact thr_preempted hi.prio l p
    · exact (granted_spec hi.prio l).2.1
  · rw [userMutexUnlock, if_pos hown] at h
    cases h
    rfl

theorem writes_userMonitorWait (hi : s.Inv) {m : Nat} (h : s.userMonitorWait t m = some s')
    (u : Tid) : Writes s t a u (s'.thr u) := by
  by_cases hown : (s.locks (.monitor m)).thr = some t
  · have hp : (s.registered t m).PrioInRange := hi.prio.registered t m
    rw [userMonitorWait_owner (hi.ok.clear _) hown] at h
    split at h <;> cases h
    · exact writes_recalcular (thr_preempted hp (.monitor m) _) u
    · refine writes_recalcular ((dispatches_bloquear _ t (.wait m)).thr.trans ?_) u
      exact (granted_spec hp (.monitor m)).2.1
  · rw [userMonitorWait, if_pos hown] at h
    cases h
    exact .nothing

theorem thr_userMonitorSignal (hi : s.Inv) {m : Nat} (h : s.userMonitorSignal t m = some s') :
    s'.thr = s.thr := by
  have hc : (s.locks (.monitor m)).l = false := hi.ok.clear _
  by_cases hown : (s.locks (.monitor m)).thr = some t
  · cases hmon : s.mons m with
    | nil =>
        rw [userMonitorSignal_nil hc hown hmon] at h
        cases h
        rfl
    | cons u rest =>
        rw [userMonitorSignal_cons hc hown hmon] at h
        cases h
        rfl
  · rw [userMonitorSignal, if_pos hown] at h
    cases h
    rfl

theorem writes_call (hi : s.Inv) {c : Call} (h : s.call t c = some s') (u : Tid) :
    Writes s t (.call c) u (s'.thr u) := by
  cases c with
  | create priority =>
      cases h
      exact writes_update (w := s.tidGen) rfl (.create _ rfl) u
  | nice n =>
      cases h
      exact writes_update (w := t) rfl (.nice _ rfl) u
  | exit ret => exact writes_userExit h u
  | yield =>
      cases h
      have hthr : (s.userYield t).thr = (s.recalcularThr t).thr :=
        (dispatches_userYield hi.prio t).thr
      exact writes_recalcular hthr u
  | join v =>
      rw [call] at h
      split at h
      · cases h
        exact writes_userJoin s t v u
      · cases h
  | sleep time =>
      cases h
      exact writes_userSleep s t time _ u
  | mutexLock n => exact writes_userMutexLock hi h u
  | mutexUnlock n =>
      obtain ⟨r, hr, rfl⟩ := Option.map_eq_some_iff.mp h
      exact writes_same (thr_userMutexUnlock hi hr) u
  | monitorEnter m => exact writes_userMutexLock hi h u
  | monitorExit m =>
      obtain ⟨r, hr, rfl⟩ := Option.map_eq_some_iff.mp h
      exact writes_same (thr_userMutexUnlock hi hr) u
  | monitorWait m => exact writes_userMonitorWait hi h u
  | monitorSignal m => exact writes_same (thr_userMonitorSignal hi h) u

theorem step_tick (ht : s.activeThr = some t) (h : step s .tick = some s') :
    s.point t = .user ∧ s.level = .low ∧ s' = s.userDispatcher t := by
  unfold step at h
  simp only [ht] at h
  split at h
  · rename_i hu
    cases h
    exact ⟨hu.1, hu.2, rfl⟩
  · cases h

/-- A thread in user code is in no runqueue and does not sleep. -/
theorem Inv.user_only (hi : s.Inv) (ht : s.activeThr = some t) (hu : s.point t = .user) :
    t ∉ s.activeRq.threads ∧ t ∉ s.expiredRq.threads ∧ t ∉ s.sleepThrList := by
  have hmem : t ∈ s.current := by rw [current, ht]; exact List.mem_cons_self
  have hone := hi.once (mem_slots_of_current hmem) (by rw [hu]; rfl)
  rw [count_slots, current, List.count_append, ht] at hone
  simp only [Option.toList_some, List.count_singleton_self] at hone
  refine ⟨?_, ?_, ?_⟩ <;> exact List.count_eq_zero.mp (by omega)

/-- What a step of the running thread writes. -/
theorem step_writes (hi : s.Inv) (ht : s.activeThr = some t) (h : step s a = some s') (u : Tid) :
    Writes s t a u (s'.thr u) := by
  cases a with
  | call c => exact writes_call hi (step_call ht h).2 u
  | tick =>
      obtain ⟨hu, -, rfl⟩ := step_tick ht h
      exact writes_userDispatcher hi.prio (hi.user_only ht hu).2.2 u
  | resume =>
      have hres : s.resume t = some s' := by simpa [step, ht] using h
      obtain ⟨m, -, rfl⟩ | ⟨-, -, v, r, rfl, -⟩ := resume_cases hres
      · have hthr : (s.waitBlock t m).thr = s.thr :=
          (dispatches_bloquear (s.splx .high) t (.wait m)).thr
        exact writes_same hthr u
      · exact .nothing

end Sched

end Sthreads.User
