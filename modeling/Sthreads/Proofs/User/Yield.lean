/-
Whether a yield lets somebody else run.

`sthread_user_yield` recalculates the caller's priority before it files the caller in
`active_rq`.  What is charged to the caller there is the quantum it has left, not the
quantum it has used, so that a caller with much of its quantum left gets a better priority
and is dispatched again before its peers.

`AllFiled` says that the threads of the runqueues are in the queues of their priorities;
with it the thread that is dispatched is the oldest of those with the best priority.
-/
import Sthreads.Proofs.User.Nice

namespace Sthreads.User

open Sched Runqueue

/-- Every thread of the runqueues is in the queue of its priority. -/
structure AllFiled (s : Sched) : Prop where
  active : s.activeRq.Filed s.prio
  expired : s.expiredRq.Filed s.prio

variable {s s' : Sched} {t u : Tid} {a : Act} {v : Thread}

/-! ### The queues are kept by priority -/

namespace AllFiled

theorem congr (h : AllFiled s) (hact : s'.activeRq = s.activeRq)
    (hexp : s'.expiredRq = s.expiredRq) (hthr : s'.thr = s.thr) : AllFiled s' := by
  have hprio : s'.prio = s.prio := by
    funext u
    rw [prio, prio, hthr]
  exact ⟨by rw [hact, hprio]; exact h.active, by rw [hexp, hprio]; exact h.expired⟩

theorem setThread (h : AllFiled s) (hv : v.priority = s.prio t) : AllFiled (s.setThread t v) := by
  have hprio : (s.setThread t v).prio = s.prio := by
    funext u
    by_cases hu : u = t
    · rw [prio, setThread_thr, hu, Function.update_self, hv]
    · rw [prio, setThread_thr, Function.update_of_ne hu]
      rfl
  refine ⟨?_, ?_⟩
  · rw [hprio]
    exact h.active
  · rw [hprio]
    exact h.expired

/-- A thread that is not ready may change its priority. -/
theorem setThread_of_not_ready (h : AllFiled s) (ht : t ∉ s.ready) :
    AllFiled (s.setThread t v) := by
  have hprio : ∀ u, u ∈ s.ready → (s.setThread t v).prio u = s.prio u := by
    intro u hu
    have hut : u ≠ t := fun hut => ht (hut ▸ hu)
    rw [prio, setThread_thr, Function.update_of_ne hut]
    rfl
  exact ⟨h.active.congr fun u hu => hprio u (List.mem_append_left _ hu),
    h.expired.congr fun u hu => hprio u (List.mem_append_right _ hu)⟩

theorem inserirActive (h : AllFiled s) (t : Tid) : AllFiled (s.inserirActive t) :=
  ⟨h.active.rqInserir t, h.expired⟩

theorem inserirExpired (h : AllFiled s) (t : Tid) : AllFiled (s.inserirExpired t) :=
  ⟨h.active, h.expired.rqInserir t⟩

theorem retirarActive (h : AllFiled s) (old : Tid) (p : Point) :
    AllFiled (s.retirarActive.sthreadSwitch old p) := by
  unfold Sched.retirarActive
  cases hr : s.activeRq.rqRetirar with
  | none => exact ⟨h.active, h.expired⟩
  | some pr => exact ⟨(h.active.rqRetirar hr).1, h.expired⟩

theorem bloquear (h : AllFiled s) (old : Tid) (p : Point) : AllFiled (s.bloquear old p) := by
  unfold Sched.bloquear trocarSeVazia
  split
  · exact retirarActive (s := s.trocarRunqueues) ⟨h.expired, h.active⟩ old p
  · exact h.retirarActive old p

theorem granted (h : AllFiled s) (l : Lock) : AllFiled (s.granted l) := by
  unfold Sched.granted
  split
  · exact ⟨h.active, h.expired⟩
  · exact inserirActive (s := { s.setLock l (s.locks l).handed with blockedList := _ })
      ⟨h.active, h.expired⟩ _

theorem preempted (h : AllFiled s) (t : Tid) (l : Lock) (p : Point) :
    AllFiled (((s.granted l).inserirActive t).retirarActive.sthreadSwitch t p) :=
  ((h.granted l).inserirActive t).retirarActive t p

/-! ### The loops over the lists -/

theorem wakeJoiners (t : Tid) (ret : Ptr) :
    ∀ (xs : List Tid) (s : Sched) (tmp : List Tid) (z : Bool), AllFiled s →
      AllFiled (wakeJoiners t ret xs s tmp z).1 := by
  intro xs
  induction xs with
  | nil => exact fun s tmp z h => h
  | cons j rest ih =>
      intro s tmp z h
      unfold Sched.wakeJoiners
      split
      · have hset := h.setThread (t := j) (v := { s.thr j with joinRet := ret }) rfl
        exact ih _ tmp false (hset.inserirActive j)
      · exact ih s (tmp ++ [j]) z h

theorem exitLists (h : AllFiled s) (t : Tid) (ret : Ptr) : AllFiled (s.exitLists t ret) := by
  have hloop : AllFiled (Sched.wakeJoiners t ret s.joinThrList (s.splx .high) [] true).1 :=
    AllFiled.wakeJoiners t ret _ _ _ _ ⟨h.active, h.expired⟩
  revert hloop
  unfold Sched.exitLists
  dsimp only
  rw [show (s.splx .high).joinThrList = s.joinThrList from rfl]
  generalize Sched.wakeJoiners t ret s.joinThrList (s.splx .high) [] true = w
  obtain ⟨s₁, tmp, z⟩ := w
  intro hloop
  cases z <;> exact ⟨hloop.active, hloop.expired⟩

theorem wakeSleepers :
    ∀ (xs : List Tid) (s : Sched) (tmp : List Tid), AllFiled s →
      AllFiled (wakeSleepers xs s tmp).1 := by
  intro xs
  induction xs with
  | nil => exact fun s tmp h => h
  | cons j rest ih =>
      intro s tmp h
      unfold Sched.wakeSleepers
      split
      · have hset := h.setThread (t := j)
          (v := { s.thr j with wakeTime := 0, quantum := quantumBase }) rfl
        exact ih _ tmp (hset.inserirActive j)
      · exact ih s (tmp ++ [j]) h

theorem tickWake (h : AllFiled s) : AllFiled s.tickWake := by
  have hloop := wakeSleepers s.sleepThrList { s with clock := s.clock + 1 } []
    ⟨h.active, h.expired⟩
  exact ⟨hloop.active, hloop.expired⟩

/-! ### Calls and ticks -/

/-- A running thread in user code is not ready. -/
theorem not_ready (hi : s.Inv) (ht : s.activeThr = some t) (hu : s.point t = .user) :
    t ∉ s.ready := by
  obtain ⟨hact, hexp, -⟩ := hi.user_only ht hu
  exact fun hc => (List.mem_append.mp hc).elim hact hexp

theorem recalcularThr (h : AllFiled s) (ht : t ∉ s.ready) : AllFiled (s.recalcularThr t) :=
  h.setThread_of_not_ready ht

theorem userDispatcher (h : AllFiled s) (hi : s.Inv) (ht : s.activeThr = some t)
    (hu : s.point t = .user) : AllFiled (s.userDispatcher t) := by
  have hcharge : AllFiled (s.tickCharge t) := h.tickWake.setThread rfl
  rw [userDispatcher_eq]
  split
  · split
    · exact (hcharge.inserirActive t).retirarActive t .tick
    · exact hcharge
  · -- waking the sleepers does not make the running thread ready
    have hnot : t ∉ (s.tickCharge t).ready := by
      intro hc
      have hcount := (hi.once (running_mem_slots ht) (by rw [hu]; rfl) :
        s.slots.count t = 1)
      have hoff : s.tickWake.offCpu = s.offCpu := (tickWake_spec hi.prio).1
      rw [slots_of_running ht, Multiset.count_cons_self, ← hoff] at hcount
      have hmem : t ∈ s.tickWake.offCpu := List.mem_append_left _ hc
      have := Multiset.one_le_count_iff_mem.mpr hmem
      omega
    refine AllFiled.bloquear (inserirExpired ?_ t) t .tick
    exact recalcularThr (s := (s.tickCharge t).setThread t _) (hcharge.setThread rfl) hnot

theorem userMutexLock (h : AllFiled s) (hi : s.Inv) (ht : t ∉ s.ready) {l : Lock}
    (hs : s.userMutexLock t l = some s') : AllFiled s' := by
  by_cases hfree : (s.locks l).thr = none
  · rw [userMutexLock_free (hi.ok.clear l) hfree] at hs
    cases hs
    exact ⟨h.active, h.expired⟩
  · rw [userMutexLock_taken (hi.ok.clear l) hfree] at hs
    cases hs
    have hrec := h.recalcularThr ht
    exact bloquear (s := s.queued t l) ⟨hrec.active, hrec.expired⟩ t (.lock l)

theorem userMutexUnlock (h : AllFiled s) (hi : s.Inv) {l : Lock} {p : Point} {r : Sched × Bool}
    (hs : s.userMutexUnlock t l p = some r) : AllFiled r.1 := by
  by_cases hown : (s.locks l).thr = some t
  · rw [userMutexUnlock_owner (hi.ok.clear l) hown] at hs
    split at hs <;> cases hs
    · exact h.preempted t l p
    · exact h.granted l
  · rw [Sched.userMutexUnlock, if_pos hown] at hs
    cases hs
    exact h

theorem userMonitorWait (h : AllFiled s) (hi : s.Inv) (ht : t ∉ s.ready) {m : Nat}
    (hs : s.userMonitorWait t m = some s') : AllFiled s' := by
  by_cases hown : (s.locks (.monitor m)).thr = some t
  · have hrec := h.recalcularThr ht
    have hreg : AllFiled (s.registered t m) := ⟨hrec.active, hrec.expired⟩
    rw [userMonitorWait_owner (hi.ok.clear _) hown] at hs
    split at hs <;> cases hs
    · exact hreg.preempted t _ _
    · have hgr := hreg.granted (.monitor m)
      exact bloquear (s := ((s.registered t m).granted (.monitor m)).splx .high)
        ⟨hgr.active, hgr.expired⟩ t (.wait m)
  · rw [Sched.userMonitorWait, if_pos hown] at hs
    cases hs
    exact h

theorem userMonitorSignal (h : AllFiled s) (hi : s.Inv) {m : Nat}
    (hs : s.userMonitorSignal t m = some s') : AllFiled s' := by
  by_cases hown : (s.locks (.monitor m)).thr = some t
  · cases hmon : s.mons m with
    | nil =>
        rw [userMonitorSignal_nil (hi.ok.clear _) hown hmon] at hs
        cases hs
        exact h
    | cons u rest =>
        rw [userMonitorSignal_cons (hi.ok.clear _) hown hmon] at hs
        cases hs
        exact ⟨h.active, h.expired⟩
  · rw [Sched.userMonitorSignal, if_pos hown] at hs
    cases hs
    exact h

/-- A thread that was just created is not ready yet. -/
theorem fresh_not_ready (hi : s.Inv) : s.tidGen ∉ s.ready := by
  intro hc
  have hmem : s.tidGen ∈ s.slots := by
    rw [slots_eq, Multiset.mem_add]
    exact Or.inr (List.mem_append_left _ hc)
  exact absurd (hi.ok.placed.created _ (Or.inl hmem)).2 (Nat.lt_irrefl _)

theorem call (h : AllFiled s) (hi : s.Inv) (ht : t ∉ s.ready) {c : Call}
    (hs : s.call t c = some s') : AllFiled s' := by
  cases c with
  | create priority =>
      cases hs
      have hnew := h.setThread_of_not_ready (v := newThread
        (if (if priority < 0 then 0 else priority) > 14 then 14
          else (if priority < 0 then 0 else priority))) (fresh_not_ready hi)
      have hfiled := hnew.inserirActive s.tidGen
      exact ⟨hfiled.active, hfiled.expired⟩
  | nice n =>
      cases hs
      have hset := h.setThread (t := t)
        (v := { s.thr t with nice := if (if n < 0 then 0 else n) > 10 then 10
                                     else (if n < 0 then 0 else n) }) rfl
      exact ⟨hset.active, hset.expired⟩
  | exit ret =>
      change s.userExit t ret = some s' at hs
      unfold userExit at hs
      dsimp only at hs
      split at hs <;> cases hs
      exact (h.exitLists t ret).bloquear t .exited
  | yield =>
      cases hs
      have hrec := (h.recalcularThr ht).inserirActive t
      obtain ⟨a, e, heq, -⟩ := dispatches_userYield hi.prio t
      have hne : ¬ (((s.splx .high).recalcularThr t).inserirActive t).activeRq.rqVazia = true :=
        fun hv => inserirActive_ne_nil (hi.prio.recalcularThr t) t (rqVazia_iff.mp hv)
      unfold userYield
      rw [if_neg hne]
      exact retirarActive (s := ((s.splx .high).recalcularThr t).inserirActive t)
        ⟨hrec.active, hrec.expired⟩ t .yield
  | join u =>
      rw [Sched.call] at hs
      split at hs <;> cases hs
      unfold userJoin
      dsimp only
      split
      · exact ⟨h.active, h.expired⟩
      · split
        · have hset := h.setThread (t := t) (v := { s.thr t with joinTid := u }) rfl
          refine bloquear ?_ t (.join u)
          exact hset.congr rfl rfl rfl
        · exact ⟨h.active, h.expired⟩
  | sleep time =>
      cases hs
      unfold userSleep
      dsimp only
      split
      · exact ⟨h.active, h.expired⟩
      · have hset := h.setThread (t := t)
          (v := { s.thr t with wakeTime := s.clock + (10 * time).tdiv clockTick }) rfl
        refine bloquear ?_ t .sleep
        exact hset.congr rfl rfl rfl
  | mutexLock n => exact h.userMutexLock hi ht hs
  | monitorEnter m => exact h.userMutexLock hi ht hs
  | mutexUnlock n =>
      obtain ⟨r, hr, rfl⟩ := Option.map_eq_some_iff.mp hs
      exact h.userMutexUnlock hi hr
  | monitorExit m =>
      obtain ⟨r, hr, rfl⟩ := Option.map_eq_some_iff.mp hs
      exact h.userMutexUnlock hi hr
  | monitorWait m => exact h.userMonitorWait hi ht hs
  | monitorSignal m => exact h.userMonitorSignal hi hs

theorem step (h : AllFiled s) (hi : s.Inv) (hs : Sched.step s a = some s') : AllFiled s' := by
  obtain ⟨t, ht, -⟩ := step_refines hi hs
  cases a with
  | call c =>
      obtain ⟨hu, hc⟩ := step_call ht hs
      exact h.call hi (not_ready hi ht hu) hc
  | tick =>
      obtain ⟨hu, -, rfl⟩ := step_tick ht hs
      exact h.userDispatcher hi ht hu
  | resume =>
      have hres : s.resume t = some s' := by simpa [Sched.step, ht] using hs
      obtain ⟨m, -, rfl⟩ | ⟨-, -, l, r, rfl, -⟩ := resume_cases hres
      · exact bloquear (s := s.splx .high) ⟨h.active, h.expired⟩ t (.wait m)
      · exact ⟨h.active, h.expired⟩

theorem of_reaches (h : Reaches Sched.step userInit s) : AllFiled s := by
  obtain ⟨tr, htr⟩ := h
  refine (htr.invariant (fun x => x.Inv ∧ AllFiled x) ⟨Inv.init, ?_⟩
    fun x a x' hx hs => ⟨hx.1.step hs, hx.2.step hx.1 hs⟩).2
  refine ⟨fun i _ u hu => ?_, fun i _ u hu => ?_⟩ <;> cases hu

end AllFiled

/-! ### The yield -/

namespace Sched

/-- `u` is the oldest of the threads with the best priority in `active_rq`. -/
def Foremost (s : Sched) (u : Tid) : Prop :=
  (∃ rest, s.activeRq.filas (s.prio u) = u :: rest) ∧
    ∀ w ∈ s.activeRq.threads, s.prio u ≤ s.prio w

end Sched

/-- A yield gives way: the oldest of the threads with the best priority runs, and the caller,
which it is not, is ready. -/
def GivesWay (s s' : Sched) (t : Tid) : Prop :=
  ∃ u, s.Foremost u ∧ u ≠ t ∧ s'.activeThr = some u ∧ t ∈ s'.activeRq.threads

/-- Some thread of `active_rq` is as good as the caller of a yield once the quantum that the
caller has left was taken off its priority. -/
def NotOutrun (s : Sched) (t : Tid) : Prop :=
  (s.thr t).priority ≤ staticMaxPrio ∨ ∃ u ∈ s.activeRq.threads, s.prio u ≤ dynMinPrio ∨
    s.prio u ≤ (s.thr t).basePriority - (s.thr t).quantum + (s.thr t).nice

/-- A thread with the best priority of a runqueue is the foremost if it was dequeued from it. -/
theorem foremost_of_retirar (h : AllFiled s) {rq : Runqueue}
    (hr : s.activeRq.rqRetirar = some (u, rq)) : s.Foremost u := by
  obtain ⟨-, hbest, hfilas⟩ := h.active.rqRetirar hr
  refine ⟨⟨rq.filas (s.prio u), ?_⟩, fun w hw => ?_⟩
  · rw [← hfilas, if_pos rfl]
    rfl
  · rw [rqRetirar_some hr, List.mem_cons] at hw
    rcases hw with rfl | hw
    · exact Int.le_refl _
    · exact hbest w hw

theorem le_clampDynamic_iff {b p : Int} (hb : b ≤ 14) :
    b ≤ clampDynamic p ↔ b ≤ dynMinPrio ∨ b ≤ p := by
  unfold clampDynamic dynMinPrio
  grind

/-- The state in which the caller of a yield was filed. -/
def yielded (s : Sched) (t : Tid) : Sched := ((s.splx .high).recalcularThr t).inserirActive t

theorem yielded_prio (s : Sched) (t : Tid) :
    (yielded s t).prio t = (recalcular (s.thr t)).priority := by
  unfold yielded prio recalcularThr inserirActive
  rw [setThread_thr, Function.update_self]
  rfl

theorem yielded_prio_of_ne (s : Sched) (hut : u ≠ t) : (yielded s t).prio u = s.prio u := by
  unfold yielded prio recalcularThr inserirActive
  rw [setThread_thr, Function.update_of_ne hut]
  rfl

theorem yielded_filas (s : Sched) (t : Tid) (p : Int) : (yielded s t).activeRq.filas p =
    s.activeRq.filas p ++ if p = (yielded s t).prio t then [t] else [] :=
  rqInserir_filas _ _ _ _

/-- The caller is dispatched again, or the foremost of the others is. -/
theorem yield_runs (hi : s.Inv) (h : AllFiled s) (hnot : t ∉ s.ready) {x : Tid}
    (hx : s.Foremost x) (hmem : x ∈ s.activeRq.threads) :
    (s.userYield t).activeThr =
        some (if s.prio x ≤ (recalcular (s.thr t)).priority then x else t) ∧
      (s.prio x ≤ (recalcular (s.thr t)).priority → t ∈ (s.userYield t).activeRq.threads) := by
  have hfiled : AllFiled (yielded s t) :=
    ((h.recalcularThr hnot).inserirActive t).congr rfl rfl rfl
  have hprio : (yielded s t).PrioInRange := hi.prio.recalcularThr t
  have hne : (yielded s t).activeRq.threads ≠ [] :=
    inserirActive_ne_nil (s := (s.splx .high).recalcularThr t) hprio t
  have hact : ∀ w ∈ s.activeRq.threads, w ≠ t := by
    intro w hw hwt
    exact hnot (List.mem_append_left _ (hwt ▸ hw))
  have hperm : (yielded s t).activeRq.threads.Perm (t :: s.activeRq.threads) :=
    threads_rqInserir s.activeRq (hprio t) t
  have hyield : s.userYield t = (yielded s t).retirarActive.sthreadSwitch t .yield := by
    unfold userYield
    exact if_neg fun hv => hne (rqVazia_iff.mp hv)
  obtain ⟨u, rq, heq, hbest, hfilas⟩ := retirarActive_best hfiled.active hne
  have hthreads : (yielded s t).activeRq.threads = u :: rq.threads := by
    cases hr : (yielded s t).activeRq.rqRetirar with
    | none => exact absurd (rqRetirar_none.mp hr) hne
    | some pr =>
        unfold retirarActive at heq
        rw [hr] at heq
        have hrun := congrArg Sched.activeThr heq
        have hrest := congrArg Sched.activeRq heq
        rw [← Option.some.inj hrun, ← show pr.2 = rq from hrest]
        exact rqRetirar_some hr
  have hleast : ∀ w ∈ (yielded s t).activeRq.threads,
      (yielded s t).prio u ≤ (yielded s t).prio w := by
    intro w hw
    rw [hthreads, List.mem_cons] at hw
    rcases hw with rfl | hw
    · exact Int.le_refl _
    · exact hbest w hw
  have hu : u = t ∨ u ∈ s.activeRq.threads := by
    have hmem : u ∈ (yielded s t).activeRq.threads := by
      rw [hthreads]
      exact List.mem_cons_self
    exact List.mem_cons.mp (hperm.mem_iff.mp hmem)
  have ht : t ∈ (yielded s t).activeRq.threads := hperm.mem_iff.mpr List.mem_cons_self
  have hxt := hact x hmem
  have hux : (yielded s t).prio u ≤ s.prio x := by
    rw [← yielded_prio_of_ne s hxt]
    exact hleast x (hperm.mem_iff.mpr (List.mem_cons_of_mem _ hmem))
  rw [hyield, heq]
  change some u = _ ∧ (_ → t ∈ rq.threads)
  rw [← yielded_prio]
  by_cases hle : s.prio x ≤ (yielded s t).prio t
  · -- `x` was at the head of its queue before the caller was filed there
    have hux' : u = x := by
      have huprio : (yielded s t).prio u = s.prio x := by
        refine Int.le_antisymm hux ?_
        rcases hu with rfl | hu
        · exact hle
        · rw [yielded_prio_of_ne s (hact u hu)]
          exact hx.2 u hu
      obtain ⟨⟨rest, hhead⟩, -⟩ := hx
      have hq := hfilas (s.prio x)
      rw [filedAt, if_pos huprio.symm, yielded_filas, hhead] at hq
      exact (List.cons.inj hq).1
    subst hux'
    rw [if_pos hle]
    refine ⟨rfl, fun _ => ?_⟩
    rw [hthreads, List.mem_cons] at ht
    exact ht.resolve_left (Ne.symm hxt)
  · rw [if_neg hle]
    refine ⟨?_, fun hc => absurd hc hle⟩
    rcases hu with rfl | hu
    · rfl
    · have hut := hleast t ht
      have hxu := hx.2 u hu
      rw [yielded_prio_of_ne s (hact u hu)] at hut
      omega

/-- What the caller's priority is recalculated to, against that of the foremost thread. -/
theorem notOutrun_iff (hp : s.PrioInRange) {x : Tid} (hx : s.Foremost x)
    (hmem : x ∈ s.activeRq.threads) (hpeer : s.prio x ≤ s.prio t) :
    s.prio x ≤ (recalcular (s.thr t)).priority ↔ NotOutrun s t := by
  by_cases hstatic : (s.thr t).priority ≤ staticMaxPrio
  · rw [recalcular_static hstatic]
    exact ⟨fun _ => Or.inl hstatic, fun _ => hpeer⟩
  · have hb : s.prio x ≤ 14 := (hp x).2
    rw [recalcular_priority (Int.not_le.mp hstatic), le_clampDynamic_iff hb]
    constructor
    · exact fun h => Or.inr ⟨x, hmem, h⟩
    · rintro (h | ⟨u, hu, h⟩)
      · exact absurd h hstatic
      · have hbest := hx.2 u hu
        exact h.imp (fun h => by omega) fun h => by omega

/--
A yield in a state in which some other ready thread is as good as the caller.

The oldest of the threads with the best priority in `active_rq` runs after it, with the
caller ready, if and only if the caller's priority is static or some thread of `active_rq`
is as good as the caller is after the recalculation, which takes the quantum left off its
base priority.
-/
theorem yield_gives_way_iff {s s' : Sched} {t : Tid} (hreach : Reaches step userInit s)
    (ht : s.activeThr = some t) (hyield : step s (.call .yield) = some s')
    (hpeer : ∃ u ∈ s.activeRq.threads, u ≠ t ∧ s.prio u ≤ s.prio t) :
    GivesWay s s' t ↔ NotOutrun s t := by
  have hfiled := AllFiled.of_reaches hreach
  obtain ⟨tr, htr⟩ := hreach
  have hi := inv_of_run htr
  obtain ⟨hu, hcalled⟩ := step_call ht hyield
  obtain rfl : s.userYield t = s' := Option.some.inj hcalled
  have hnot := AllFiled.not_ready hi ht hu
  obtain ⟨u, humem, -, hule⟩ := hpeer
  obtain ⟨⟨x, rq⟩, hr⟩ : ∃ pr, s.activeRq.rqRetirar = some pr := by
    refine Option.ne_none_iff_exists'.mp fun hnone => ?_
    rw [rqRetirar_none.mp hnone] at humem
    cases humem
  have hx := foremost_of_retirar hfiled hr
  have hmem : x ∈ s.activeRq.threads := by
    rw [rqRetirar_some hr]
    exact List.mem_cons_self
  have hxt : x ≠ t := fun hxt => hnot (List.mem_append_left _ (hxt ▸ hmem))
  obtain ⟨hrun, hready⟩ := yield_runs hi hfiled hnot hx hmem
  rw [← notOutrun_iff hi.prio hx hmem (Int.le_trans (hx.2 u humem) hule)]
  constructor
  · rintro ⟨y, -, hyt, hyrun, -⟩
    by_contra hle
    rw [if_neg hle] at hrun
    exact hyt (Option.some.inj (hyrun.symm.trans hrun))
  · intro hle
    rw [if_pos hle] at hrun
    exact ⟨x, hx, hxt, hrun, hready hle⟩

/-- The main thread creates a thread of its own priority and yields: it goes on itself. -/
theorem yield_keeps_processor :
    ∃ s s', Reaches step userInit s ∧ s.activeThr = some 1 ∧ s.activeRq.threads = [2] ∧
      s.prio 2 = s.prio 1 ∧ step s (.call .yield) = some s' ∧ s'.activeThr = some 1 ∧
      ¬ GivesWay s s' 1 := by
  have hreach : Reaches step userInit (userInit.userCreateP 1 7) :=
    reaches_runActs [.call (.create 7)] rfl
  have hrun : ((userInit.userCreateP 1 7).userYield 1).activeThr = some 1 := by decide
  refine ⟨_, _, hreach, rfl, by decide, by decide, rfl, hrun, ?_⟩
  rintro ⟨u, -, hne, hu, -⟩
  exact hne (Option.some.inj (hu.symm.trans hrun))

/-- With a nice value that makes up for the quantum it gives way. -/
theorem yield_gives_way_iff_nice :
    ∃ s s', Reaches step userInit s ∧ step s (.call .yield) = some s' ∧ GivesWay s s' 1 := by
  have hreach : Reaches step userInit ((userInit.userCreateP 1 7).userNice 1 5) :=
    reaches_runActs [.call (.create 7), .call (.nice 5)] rfl
  have hpeer : 2 ∈ ((userInit.userCreateP 1 7).userNice 1 5).activeRq.threads := by decide
  refine ⟨_, _, hreach, rfl, ?_⟩
  refine (yield_gives_way_iff hreach rfl rfl ⟨2, hpeer, by decide, by decide⟩).mpr ?_
  exact Or.inr ⟨2, hpeer, Or.inr (by decide)⟩

end Sthreads.User
