/-
When `sthread_user_join` waits for the thread it is given.

The search for a thread that has not terminated looks at the runqueues, the sleepers and
the joiners, and at no wait queue of a mutex or of a monitor.  A thread that waits there,
and nowhere else, is taken for one that has gone, and the call returns -1 at once.  In every
other case the caller is put among the joiners.  If no thread is ready then (the one that is
joined sleeps, say), `rq_retirar` returns `NULL`, and the switch follows it; otherwise the caller
is blocked until the thread exits, and only until then: `join_waits_iff`.

`JoinStep` says what a step does to the joiners and to the threads that have exited.
-/
import Sthreads.Proofs.User.ControlBlocks
import Sthreads.Proofs.User.LastThread

namespace Sthreads.User

open Sched Runqueue

/-- What a step of the running thread `t` does to the joiners and to those that have exited. -/
inductive JoinStep (s : Sched) (t : Tid) : Act → Sched → Prop
  | exit (ret : Ptr) {s' : Sched}
      (hjoin : s'.joinThrList = s.joinThrList.filter fun j => decide ((s.thr j).joinTid ≠ t))
      (hexited : ∀ u, Exited s' u ↔ Exited s u ∨ u = t) (hpoint : s'.point t = .exited) :
      JoinStep s t (.call (.exit ret)) s'
  /-- A join that blocks. -/
  | join (u : Tid) {s' : Sched} (hjoin : s'.joinThrList = s.joinThrList ++ [t])
      (hexited : ∀ u, Exited s' u ↔ Exited s u) (hpoint : s'.point t = .join u)
      (htid : (s'.thr t).joinTid = u) : JoinStep s t (.call (.join u)) s'
  | other (a : Act) {s' : Sched} (ha : ∀ ret, a ≠ .call (.exit ret))
      (hjoin : s'.joinThrList = s.joinThrList) (hexited : ∀ u, Exited s' u ↔ Exited s u)
      (hpoint : ∀ v, s'.point t ≠ .join v) : JoinStep s t a s'

namespace Sched

variable {s s₁ s' : Sched} {t u : Tid} {a : Act}

/-! ### What a step does to the joiners -/

/-- The lists of the joiners and of the exited are as they were. -/
structure SameJoins (s s' : Sched) : Prop where
  join : s'.joinThrList = s.joinThrList
  zombie : s'.zombieThrList = s.zombieThrList
  dead : s'.deadThrList = s.deadThrList

theorem SameJoins.dispatched {p : Point} (h : SameJoins s s₁) (hd : Dispatches s₁ s' t p) :
    SameJoins s s' := by
  obtain ⟨a, e, rfl, -⟩ := hd
  exact ⟨h.join, h.zombie, h.dead⟩

theorem SameJoins.exited (h : SameJoins s s') (u : Tid) : Exited s' u ↔ Exited s u := by
  rw [Exited, Exited, h.zombie, h.dead]

theorem sameJoins_granted (s : Sched) (l : Lock) : SameJoins s (s.granted l) := by
  obtain ⟨-, -, hjoin, hzombie, hdead⟩ := granted_lists s l
  exact ⟨hjoin, hzombie, hdead⟩

/-- The thread goes on in user code. -/
theorem joinStep_same (ha : ∀ ret, a ≠ .call (.exit ret)) (h : SameJoins s s')
    (hpoint : s'.point t = .user) : JoinStep s t a s' :=
  .other a ha h.join h.exited fun v hv => by rw [hpoint] at hv; cases hv

/-- The thread gives the processor up in a call that is no join and no exit. -/
theorem joinStep_dispatched {p : Point} (ha : ∀ ret, a ≠ .call (.exit ret))
    (hd : Dispatches s₁ s' t p) (hp : ∀ v, p ≠ .join v) (h : SameJoins s s₁) :
    JoinStep s t a s' := by
  have hsame := h.dispatched hd
  refine .other a ha hsame.join hsame.exited fun v hv => hp v ?_
  rw [← hv, hd.point, Function.update_self]

/-- The lists after `sthread_user_exit` has sorted the joiners. -/
theorem exitLists_joins (hp : s.PrioInRange) (t : Tid) (ret : Ptr) :
    (s.exitLists t ret).joinThrList =
        (s.joinThrList.filter fun j => decide ((s.thr j).joinTid ≠ t)) ∧
      (∀ u, Exited (s.exitLists t ret) u ↔ Exited s u ∨ u = t) ∧
      (s.exitLists t ret).result = s.result := by
  have hjoin := refiles_wakeJoiners t ret (s.splx .high).joinThrList (s.splx .high) [] true hp
  have hrest := wakeJoiners_rest t ret (s.splx .high).joinThrList (s.splx .high) [] true
  revert hjoin hrest
  unfold exitLists
  dsimp only
  generalize wakeJoiners t ret (s.splx .high).joinThrList (s.splx .high) [] true = w
  obtain ⟨s₁, tmp, z⟩ := w
  rintro ⟨th, a, rfl, -, -⟩ hrest
  cases z with
  | true =>
      refine ⟨hrest, fun u => ?_, rfl⟩
      simp only [Exited, splx, if_true, List.mem_append, List.mem_singleton]
      tauto
  | false =>
      refine ⟨hrest, fun u => ?_, rfl⟩
      simp only [Exited, splx, Bool.false_eq_true, if_false, List.mem_append, List.mem_singleton]
      tauto

theorem joinStep_userExit (hp : s.PrioInRange) {ret : Ptr} (h : s.userExit t ret = some s') :
    JoinStep s t (.call (.exit ret)) s' := by
  obtain ⟨hjoin, hexited, -⟩ := exitLists_joins hp t ret
  unfold userExit at h
  dsimp only at h
  split at h
  · cases h
  · cases h
    have hd := dispatches_bloquear (s.exitLists t ret) t .exited
    have hsame : SameJoins (s.exitLists t ret) ((s.exitLists t ret).bloquear t .exited) :=
      SameJoins.dispatched ⟨rfl, rfl, rfl⟩ hd
    refine .exit ret (hsame.join.trans hjoin) (fun u => ?_) ?_
    · rw [hsame.exited u, hexited u]
    · rw [hd.point, Function.update_self]

/-- The caller of a join that blocks, before it gives the processor up. -/
def joinBlocked (s : Sched) (t u : Tid) : Sched :=
  { (s.splx .high).setThread t { s.thr t with joinTid := u } with
    joinThrList := s.joinThrList ++ [t] }

theorem joinBlocked_joinTid (s : Sched) (t u : Tid) :
    ((s.joinBlocked t u).thr t).joinTid = u := by
  simp [joinBlocked, setThread]

/-- A join of a zombie takes it out of the list. -/
theorem userJoin_zombie (hz : u ∈ s.zombieThrList) (t : Tid) : s.userJoin t u =
    (({ s.splx .high with
        deadThrList := s.deadThrList ++ s.zombieThrList.filter (· == u)
        zombieThrList := s.zombieThrList.filter (· != u) } : Sched).setResult t
          (.joined 0 (some (s.thr u).joinRet))).splx .low := by
  have hz' : (s.splx .high).zombieThrList.contains u = true := List.contains_iff_mem.mpr hz
  unfold userJoin
  dsimp only
  rw [if_pos hz']
  rfl

/-- A join of a thread that is no zombie. -/
theorem userJoin_alive (halive : u ∉ s.zombieThrList) (t : Tid) : s.userJoin t u =
    if s.joinFinds t u then (s.joinBlocked t u).bloquear t (.join u)
    else ((s.splx .high).setResult t (.joined (-1) none)).splx .low := by
  have hz : ¬ (s.splx .high).zombieThrList.contains u = true := by
    rw [List.contains_iff_mem]
    exact halive
  unfold userJoin
  dsimp only
  rw [if_neg hz]
  rfl

/-- A join takes the thread out of the zombies, blocks, or finds nobody. -/
theorem joinStep_userJoin (hu : s.point t = .user) (v : Tid) :
    JoinStep s t (.call (.join v)) (s.userJoin t v) := by
  by_cases hz : v ∈ s.zombieThrList
  · rw [userJoin_zombie hz]
    refine .other _ (by simp) rfl (fun u => ?_) (fun w hw => ?_)
    · by_cases huv : u = v
      · simp [Exited, splx, setResult, huv, hz]
      · simp [Exited, splx, setResult, huv]
    · change s.point t = _ at hw
      rw [hu] at hw
      cases hw
  · rw [userJoin_alive hz]
    split
    · have hd := dispatches_bloquear (s.joinBlocked t v) t (.join v)
      have hsame : SameJoins (s.joinBlocked t v) ((s.joinBlocked t v).bloquear t (.join v)) :=
        SameJoins.dispatched ⟨rfl, rfl, rfl⟩ hd
      refine .join v hsame.join hsame.exited ?_ ?_
      · rw [hd.point, Function.update_self]
      · rw [hd.thr, joinBlocked_joinTid]
    · exact joinStep_same (by simp) ⟨rfl, rfl, rfl⟩ hu

theorem joinStep_userMutexLock (hi : s.Inv) (hu : s.point t = .user) {l : Lock}
    (ha : ∀ ret, a ≠ .call (.exit ret)) (h : s.userMutexLock t l = some s') :
    JoinStep s t a s' := by
  have hc : (s.locks l).l = false := hi.ok.clear l
  by_cases hfree : (s.locks l).thr = none
  · rw [userMutexLock_free hc hfree] at h
    cases h
    exact joinStep_same ha ⟨rfl, rfl, rfl⟩ hu
  · rw [userMutexLock_taken hc hfree] at h
    cases h
    exact joinStep_dispatched ha (dispatches_bloquear (s.queued t l) t (.lock l)) (by simp)
      ⟨rfl, rfl, rfl⟩

/-- A release, from a state with the joiners of `s`, that preempts its caller. -/
theorem joinStep_preempted (hp : s₁.PrioInRange) (ha : ∀ ret, a ≠ .call (.exit ret))
    (l : Lock) {p : Point} (hpj : ∀ v, p ≠ .join v) (h : SameJoins s s₁) :
    JoinStep s t a (((s₁.granted l).inserirActive t).retirarActive.sthreadSwitch t p) := by
  have hg := sameJoins_granted s₁ l
  exact joinStep_dispatched ha (dispatches_granted hp t l p) hpj
    ⟨hg.join.trans h.join, hg.zombie.trans h.zombie, hg.dead.trans h.dead⟩

theorem joinStep_userMutexUnlock (hi : s.Inv) (hu : s.point t = .user) {l : Lock}
    (ha : ∀ ret, a ≠ .call (.exit ret)) {r : Sched × Bool}
    (h : s.userMutexUnlock t l .unlock = some r) : JoinStep s t a r.1 := by
  by_cases hown : (s.locks l).thr = some t
  · rw [userMutexUnlock_owner (hi.ok.clear l) hown] at h
    split at h <;> cases h
    · exact joinStep_preempted hi.prio ha l (by simp) ⟨rfl, rfl, rfl⟩
    · exact joinStep_same ha (sameJoins_granted s l) ((congrFun (granted_lists s l).1 t).trans hu)
  · rw [userMutexUnlock, if_pos hown] at h
    cases h
    exact joinStep_same ha ⟨rfl, rfl, rfl⟩ hu

theorem joinStep_userMonitorWait (hi : s.Inv) (hu : s.point t = .user) {m : Nat}
    (h : s.userMonitorWait t m = some s') : JoinStep s t (.call (.monitorWait m)) s' := by
  have ha : ∀ ret, Act.call (.monitorWait m) ≠ .call (.exit ret) := by simp
  by_cases hown : (s.locks (.monitor m)).thr = some t
  · have hg := sameJoins_granted (s.registered t m) (.monitor m)
    rw [userMonitorWait_owner (hi.ok.clear _) hown] at h
    split at h <;> cases h
    · exact joinStep_preempted (hi.prio.registered t m) ha _ (by simp) ⟨rfl, rfl, rfl⟩
    · exact joinStep_dispatched ha (dispatches_bloquear
        (((s.registered t m).granted (.monitor m)).splx .high) t (.wait m)) (by simp)
        ⟨hg.join, hg.zombie, hg.dead⟩
  · rw [userMonitorWait, if_pos hown] at h
    cases h
    exact joinStep_same ha ⟨rfl, rfl, rfl⟩ hu

theorem joinStep_userMonitorSignal (hi : s.Inv) (hu : s.point t = .user) {m : Nat}
    (h : s.userMonitorSignal t m = some s') : JoinStep s t (.call (.monitorSignal m)) s' := by
  have hc : (s.locks (.monitor m)).l = false := hi.ok.clear _
  by_cases hown : (s.locks (.monitor m)).thr = some t
  · cases hmon : s.mons m with
    | nil =>
        rw [userMonitorSignal_nil hc hown hmon] at h
        cases h
        exact joinStep_same (by simp) ⟨rfl, rfl, rfl⟩ hu
    | cons u rest =>
        rw [userMonitorSignal_cons hc hown hmon] at h
        cases h
        exact joinStep_same (by simp) ⟨rfl, rfl, rfl⟩ hu
  · rw [userMonitorSignal, if_pos hown] at h
    cases h
    exact joinStep_same (by simp) ⟨rfl, rfl, rfl⟩ hu

theorem joinStep_userSleep (hu : s.point t = .user) (time : Int) :
    JoinStep s t (.call (.sleep time)) (s.userSleep t time) := by
  unfold userSleep
  dsimp only
  split
  · exact joinStep_same (by simp) ⟨rfl, rfl, rfl⟩ hu
  · exact joinStep_dispatched (by simp) (dispatches_bloquear _ t .sleep) (by simp)
      ⟨rfl, rfl, rfl⟩

theorem joinStep_userDispatcher (hp : s.PrioInRange) (hu : s.point t = .user) :
    JoinStep s t .tick (s.userDispatcher t) := by
  obtain ⟨hpoint, -, hjoin, hzombie, hdead⟩ := tickWake_lists hp
  have hsame : SameJoins s s.tickWake := ⟨hjoin, hzombie, hdead⟩
  rw [userDispatcher_eq]
  split
  · split
    · exact joinStep_dispatched (by simp) (dispatches_retirarActive
        (inserirActive_ne_nil (tickCharge_prio hp t) t) t .tick) (by simp)
        ⟨hsame.join, hsame.zombie, hsame.dead⟩
    · refine joinStep_same (by simp) ⟨hsame.join, hsame.zombie, hsame.dead⟩ ?_
      exact (congrFun hpoint t).trans hu
  · exact joinStep_dispatched (by simp)
      (dispatches_bloquear ((s.tickExpire t).inserirExpired t) t .tick) (by simp)
      ⟨hsame.join, hsame.zombie, hsame.dead⟩

theorem joinStep_call (hi : s.Inv) (ht : s.activeThr = some t) (hu : s.point t = .user) {c : Call}
    (h : s.call t c = some s') : JoinStep s t (.call c) s' := by
  cases c with
  | create priority =>
      cases h
      have hlt := (hi.ok.placed.created t (Or.inl (running_mem_slots ht))).2
      refine joinStep_same (by simp) ⟨rfl, rfl, rfl⟩ ?_
      exact (Function.update_of_ne (Nat.ne_of_lt hlt) _ _).trans hu
  | nice n =>
      cases h
      exact joinStep_same (by simp) ⟨rfl, rfl, rfl⟩ hu
  | exit ret => exact joinStep_userExit hi.prio h
  | yield =>
      cases h
      exact joinStep_dispatched (by simp) (dispatches_userYield hi.prio t) (by simp)
        ⟨rfl, rfl, rfl⟩
  | join v =>
      rw [call] at h
      split at h
      · cases h
        exact joinStep_userJoin hu v
      · cases h
  | sleep time =>
      cases h
      exact joinStep_userSleep hu time
  | mutexLock n => exact joinStep_userMutexLock hi hu (by simp) h
  | mutexUnlock n =>
      obtain ⟨r, hr, rfl⟩ := Option.map_eq_some_iff.mp h
      exact joinStep_userMutexUnlock hi hu (by simp) hr
  | monitorEnter m => exact joinStep_userMutexLock hi hu (by simp) h
  | monitorExit m =>
      obtain ⟨r, hr, rfl⟩ := Option.map_eq_some_iff.mp h
      exact joinStep_userMutexUnlock hi hu (by simp) hr
  | monitorWait m => exact joinStep_userMonitorWait hi hu h
  | monitorSignal m => exact joinStep_userMonitorSignal hi hu h

theorem step_joinStep (hi : s.Inv) (ht : s.activeThr = some t) (h : step s a = some s') :
    JoinStep s t a s' := by
  cases a with
  | call c =>
      obtain ⟨hu, hcall⟩ := step_call ht h
      exact joinStep_call hi ht hu hcall
  | tick =>
      obtain ⟨hu, -, rfl⟩ := step_tick ht h
      exact joinStep_userDispatcher hi.prio hu
  | resume =>
      have hres : s.resume t = some s' := by simpa [step, ht] using h
      obtain ⟨m, -, rfl⟩ | ⟨-, -, v, r, rfl, -⟩ := resume_cases hres
      · exact joinStep_dispatched (by simp) (dispatches_bloquear (s.splx .high) t (.wait m))
          (by simp) ⟨rfl, rfl, rfl⟩
      · exact joinStep_same (by simp) ⟨rfl, rfl, rfl⟩ (Function.update_self _ _ _)

end Sched

/-! ### Blocked in a join, and released from it -/

/-- `j` is blocked in its join of `u`. -/
structure Joining (s : Sched) (j u : Tid) : Prop where
  listed : j ∈ s.joinThrList
  joinTid : (s.thr j).joinTid = u
  point : s.point j = .join u
  notRunning : s.activeThr ≠ some j
  notReady : j ∉ s.ready

/-- `j` was released from its join of `u` and is ready, or runs and has yet to return. -/
structure Released (s : Sched) (j u : Tid) : Prop where
  notListed : j ∉ s.joinThrList
  point : s.point j = .join u
  ready : s.activeThr = some j ∨ j ∈ s.ready

/-- The step is an exit of `u`. -/
def ExitsOf (u : Tid) (p : Sched × Act) : Prop :=
  p.1.activeThr = some u ∧ ∃ ret, p.2 = .call (.exit ret)

/-- What the proofs about joins need to know of a reachable state. -/
structure Settled (s : Sched) : Prop where
  inv : s.Inv
  parked : Parked s

theorem Settled.init : Settled userInit := ⟨Inv.init, Parked.init⟩

section Steps

variable {s s' : Sched} {t j u : Tid} {a : Act}

theorem Settled.step (h : Settled s) (hs : Sched.step s a = some s') : Settled s' :=
  ⟨h.inv.step hs, h.parked.step h.inv hs⟩

theorem Settled.run {s₀ : Sched} (h : Settled s₀) {tr : List (Sched × Act)}
    (hr : Run Sched.step s₀ tr s) : Settled s :=
  hr.invariant Settled h fun _ _ _ hx hs => hx.step hs

/-- A thread in the list of joiners neither runs nor is ready. -/
theorem Settled.joining (h : Settled s) (hl : j ∈ s.joinThrList) (hj : (s.thr j).joinTid = u)
    (hp : s.point j = .join u) : Joining s j u := by
  have hone := h.inv.once (mem_slots_of_lists (Or.inr (Or.inl hl))) (by rw [hp]; rfl)
  have hpos := List.count_pos_iff.mpr hl
  rw [count_slots] at hone
  have hcur : j ∉ s.current := List.count_eq_zero.mp (by omega)
  have hexp : j ∉ s.expiredRq.threads := List.count_eq_zero.mp (by omega)
  rw [current, List.mem_append, not_or, Option.mem_toList] at hcur
  refine ⟨hl, hj, hp, hcur.1, fun hr => ?_⟩
  rcases List.mem_append.mp hr with hr | hr
  · exact hcur.2 hr
  · exact hexp hr

/-- A thread at the switch point of a join, but not in the list, is ready or runs. -/
theorem Settled.released (h : Settled s) {j : Nat} (h1 : 1 ≤ j) (hn : j < s.tidGen)
    (hl : j ∉ s.joinThrList) (hp : s.point j = .join u) : Released s j u := by
  refine ⟨hl, hp, ?_⟩
  have hnw : ¬ Waits s.locks s.mons j :=
    h.inv.ok.placed.not_waits (t := j) (by rw [show s.places.point j = s.point j from rfl, hp]; rfl)
  have hcount := h.inv.ok.placed.countFree j h1 hn hnw
  rw [show s.places.point j = s.point j from rfl, hp, show s.places.slots = s.slots from rfl,
    count_slots, List.count_eq_zero.mpr hl] at hcount
  have hsleep : s.sleepThrList.count j = 0 := List.count_eq_zero.mpr fun hc => by
    rw [h.parked.sleep j hc] at hp
    cases hp
  have hexited : ¬ Exited s j := fun hc => by
    rw [h.parked.exited j hc] at hp
    cases hp
  rw [Exited, not_or] at hexited
  rw [hsleep, List.count_eq_zero.mpr hexited.1, List.count_eq_zero.mpr hexited.2] at hcount
  change _ = 1 + 0 at hcount
  by_cases hcur : j ∈ s.current
  · rw [current, List.mem_append, Option.mem_toList] at hcur
    exact hcur.imp_right fun hr => List.mem_append_left _ hr
  · rw [List.count_eq_zero.mpr hcur] at hcount
    refine Or.inr (List.mem_append_right _ ?_)
    exact List.count_pos_iff.mp (by omega)

/-- A thread that is not running keeps the thread it joins, its point and its result. -/
theorem Settled.keeps (h : Settled s) (ht : s.activeThr = some t) (hs : Sched.step s a = some s')
    {j : Nat} (hj : j ≠ t) (hn : j < s.tidGen) :
    (s'.thr j).joinTid = (s.thr j).joinTid ∧ s'.point j = s.point j := by
  obtain ⟨t', ht', hk⟩ := step_kept h.inv hs
  obtain rfl : t' = t := Option.some.inj (ht'.symm.trans ht)
  refine ⟨?_, hk.point j hj hn⟩
  have hw := step_writes h.inv ht hs j
  generalize s'.thr j = v at hw
  cases hw with
  | nothing => rfl
  | create _ hu => exact absurd hu (Nat.ne_of_lt hn)
  | nice _ hu => exact absurd hu hj
  | recalcular hu => exact absurd hu hj
  | join _ hu => exact absurd hu hj
  | sleep _ hu => exact absurd hu hj
  | joined => rfl
  | wake => rfl
  | charge _ hu => exact absurd hu hj
  | expire _ hu => exact absurd hu hj

theorem Settled.created (h : Settled s) (hl : j ∈ s.joinThrList) : 1 ≤ j ∧ j < s.tidGen :=
  h.inv.ok.placed.created j (Or.inl (mem_slots_of_lists (Or.inr (Or.inl hl))))

/-- The threads that were created stay created. -/
theorem Settled.tidGen_le (h : Settled s) (hs : Sched.step s a = some s') :
    s.tidGen ≤ s'.tidGen := by
  obtain ⟨t, -, href⟩ := step_refines h.inv hs
  exact href.effect.tidGen_le

/-- Nothing but the exit of `u` releases its joiners. -/
theorem Joining.step (hj : Joining s j u) (h : Settled s) (hs : Sched.step s a = some s')
    (hne : ¬ ExitsOf u (s, a)) : Joining s' j u := by
  obtain ⟨t, ht, -⟩ := step_refines h.inv hs
  have hjt : j ≠ t := fun hc => hj.notRunning (hc ▸ ht)
  obtain ⟨htid, hpoint⟩ := h.keeps ht hs hjt (h.created hj.listed).2
  refine (h.step hs).joining ?_ (htid.trans hj.joinTid) (hpoint.trans hj.point)
  cases step_joinStep h.inv ht hs with
  | exit ret hjoin =>
      rw [hjoin, List.mem_filter, decide_eq_true_eq, hj.joinTid]
      refine ⟨hj.listed, fun hut => hne ⟨hut ▸ ht, ret, rfl⟩⟩
  | join v hjoin =>
      rw [hjoin]
      exact List.mem_append_left _ hj.listed
  | other _ _ hjoin =>
      rw [hjoin]
      exact hj.listed

/-- The exit of `u` releases all its joiners. -/
theorem Joining.released (hj : Joining s j u) (h : Settled s) (hs : Sched.step s a = some s')
    (he : ExitsOf u (s, a)) : Released s' j u := by
  obtain ⟨hu, ret, rfl⟩ := he
  have hju : j ≠ u := fun hc => hj.notRunning (hc ▸ hu)
  obtain ⟨h1, hn⟩ := h.created hj.listed
  obtain ⟨-, hpoint⟩ := h.keeps hu hs hju hn
  refine (h.step hs).released h1 (Nat.lt_of_lt_of_le hn (h.tidGen_le hs)) ?_
    (hpoint.trans hj.point)
  cases step_joinStep h.inv hu hs with
  | exit _ hjoin =>
      rw [hjoin, List.mem_filter, decide_eq_true_eq]
      exact fun hc => hc.2 hj.joinTid
  | other _ ha => exact absurd rfl (ha ret)

/-- A released thread stays ready until it runs. -/
theorem Released.step (hr : Released s j u) (h : Settled s) (hs : Sched.step s a = some s')
    (hrun : s.activeThr ≠ some j) : Released s' j u := by
  obtain ⟨t, ht, -⟩ := step_refines h.inv hs
  have hjt : j ≠ t := fun hc => hrun (hc ▸ ht)
  have hmem : j ∈ s.slots := by
    rcases hr.ready with hr | hr
    · exact absurd hr hrun
    · rw [← Multiset.one_le_count_iff_mem, count_slots, current, List.count_append]
      rcases List.mem_append.mp hr with hr | hr
      · have := List.count_pos_iff.mpr hr
        omega
      · have := List.count_pos_iff.mpr hr
        omega
  obtain ⟨h1, hn⟩ := h.inv.ok.placed.created j (Or.inl hmem)
  obtain ⟨-, hpoint⟩ := h.keeps ht hs hjt hn
  refine (h.step hs).released h1 (Nat.lt_of_lt_of_le hn (h.tidGen_le hs)) ?_
    (hpoint.trans hr.point)
  cases step_joinStep h.inv ht hs with
  | exit _ hjoin =>
      rw [hjoin]
      exact fun hc => hr.notListed (List.mem_of_mem_filter hc)
  | join _ hjoin =>
      rw [hjoin, List.mem_append, not_or, List.mem_singleton]
      exact ⟨hr.notListed, hjt⟩
  | other _ _ hjoin =>
      rw [hjoin]
      exact hr.notListed

/-- When it runs, the call returns 0. -/
theorem Released.returns (hr : Released s j u) (ht : s.activeThr = some j) :
    (∃ s', Sched.step s .resume = some s' ∧ s'.point j = .user ∧
      s'.result j = .joined 0 (some (s.thr u).joinRet)) ∧
    ∀ a s', Sched.step s a = some s' → a = .resume := by
  constructor
  · refine ⟨((s.setResult j (.joined 0 (some (s.thr u).joinRet))).splx .low).setPoint j .user,
      ?_, Function.update_self _ _ _, Function.update_self _ _ _⟩
    simp [Sched.step, ht, resume, hr.point]
  · intro a s' hs
    cases a with
    | resume => rfl
    | call c =>
        have hu := (step_call ht hs).1
        rw [hr.point] at hu
        cases hu
    | tick =>
        have hu := (step_tick ht hs).1
        rw [hr.point] at hu
        cases hu

end Steps

/-! ### The call -/

/-- The thread waits for a mutex or a monitor, and is in no runqueue. -/
def BlockedOnLock (s : Sched) (u : Tid) : Prop := Waits s.locks s.mons u ∧ u ∉ s.ready

section Call

variable {s x z : Sched} {t u : Tid}

/-- Where the search of `sthread_user_join` looks. -/
theorem joinFinds_iff (s : Sched) (t u : Tid) : s.joinFinds t u = true ↔
    t = u ∨ u ∈ s.ready ∨ u ∈ s.sleepThrList ∨ u ∈ s.joinThrList := by
  have hfilas : ∀ rq : Runqueue,
      (List.range numPriorities).any (fun i => (rq.filas i).contains u) = true ↔ u ∈ rq.threads := by
    intro rq
    simp only [mem_threads, List.any_eq_true, List.mem_range, List.contains_iff_mem]
  unfold joinFinds
  simp only [Bool.or_eq_true, hfilas, beq_iff_eq, List.contains_iff_mem, ready, List.mem_append]
  tauto

/-- A live thread is found unless it is blocked on a lock. -/
theorem Settled.joinFinds (h : Settled s) (ht : s.activeThr = some t) (h1 : 1 ≤ u)
    (hn : u < s.tidGen) (hne : u ≠ t) (halive : ¬ Exited s u) :
    s.joinFinds t u = true ↔ ¬ BlockedOnLock s u := by
  have hpl := h.inv.ok.placed
  have hslots := count_slots s u
  rw [Exited, not_or] at halive
  rw [current, List.count_append, ht, List.count_eq_zero.mpr halive.1,
    List.count_eq_zero.mpr halive.2] at hslots
  simp only [Option.toList_some, List.count_singleton, beq_iff_eq, Ne.symm hne, if_false] at hslots
  rw [joinFinds_iff]
  constructor
  · rintro (hc | hr | hsl | hj) ⟨hw, hnr⟩
    · exact hne hc.symm
    · exact hnr hr
    · refine hpl.not_waits (t := u) ?_ hw
      rw [show s.places.point u = s.point u from rfl, h.parked.sleep u hsl]
      rfl
    · obtain ⟨v, hv⟩ := h.parked.join u hj
      refine hpl.not_waits (t := u) ?_ hw
      rw [show s.places.point u = s.point u from rfl, hv]
      rfl
  · intro hb
    by_contra hc
    simp only [not_or] at hc
    obtain ⟨-, hr, hsl, hj⟩ := hc
    have hnw : ¬ Waits s.locks s.mons u := fun hw => hb ⟨hw, hr⟩
    have hcount : s.slots.count u = 1 + (s.point u).extra := hpl.countFree u h1 hn hnw
    rw [ready, List.mem_append, not_or] at hr
    rw [List.count_eq_zero.mpr hr.1, List.count_eq_zero.mpr hr.2, List.count_eq_zero.mpr hsl,
      List.count_eq_zero.mpr hj] at hslots
    omega

end Call

-- a thread is created and sleeps; the main thread joins it, and no thread is left to run
example : (runActs step userInit [.call (.create 0), .call .yield, .resume, .call (.sleep 100),
    .resume, .call (.join 2)]).map (fun s => (s.activeThr, s.joinThrList, s.sleepThrList)) =
      some (none, [1], [2]) := by
  decide

end Sthreads.User
