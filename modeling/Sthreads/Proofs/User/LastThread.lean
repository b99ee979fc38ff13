/-
When the end of the program is the end of its last thread.

`sthread_user_exit` ends the program when both runqueues are empty.  A thread that sleeps,
joins another one or waits for a lock is in neither of them, so the program is also ended
while such threads are left; a sleeper would have been woken by a later tick.

`Parked` says at which switch point the threads of the lists are.  With the count of
places it follows that a thread that is in none of them, and in no wait queue, has exited.
-/
import Sthreads.Proofs.User.Epoch
import Sthreads.Proofs.User.MutexSafety

namespace Sthreads.User

open Sched Runqueue

/-- The thread has exited. -/
def Exited (s : Sched) (u : Tid) : Prop := u ∈ s.zombieThrList ∨ u ∈ s.deadThrList

/-- Nobody is left to run when `t` exits: no thread is ready, and none joins `t`. -/
def LastReady (s : Sched) (t : Tid) : Prop :=
  s.activeRq.rqVazia = true ∧ s.expiredRq.rqVazia = true ∧
    ∀ j ∈ s.joinThrList, (s.thr j).joinTid ≠ t

/-- No thread sleeps, joins another one, or waits for a mutex or a monitor. -/
def NobodyWaits (s : Sched) : Prop :=
  s.sleepThrList = [] ∧ s.joinThrList = [] ∧ (∀ l, (s.locks l).queue = []) ∧ ∀ m, s.mons m = []

/-- The threads of the lists are at the switch points they were put there with. -/
structure Parked (s : Sched) : Prop where
  sleep : ∀ u ∈ s.sleepThrList, s.point u = .sleep
  join : ∀ u ∈ s.joinThrList, ∃ v, s.point u = .join v
  exited : ∀ u, Exited s u → s.point u = .exited

namespace Sched

variable {s s₁ s' : Sched} {t : Tid}

/-! ### The loops over the lists -/

theorem wakeSleepers_left :
    ∀ (xs : List Tid) (s : Sched) (tmp : List Tid) (u : Tid),
      u ∈ (wakeSleepers xs s tmp).2 → u ∈ xs ∨ u ∈ tmp := by
  intro xs
  induction xs with
  | nil => exact fun s tmp u hu => Or.inr hu
  | cons j rest ih =>
      intro s tmp u hu
      unfold wakeSleepers at hu
      split at hu
      · exact (ih _ tmp u hu).imp_left (List.mem_cons_of_mem _)
      · rcases ih s (tmp ++ [j]) u hu with h | h
        · exact Or.inl (List.mem_cons_of_mem _ h)
        · rcases List.mem_append.mp h with h | h
          · exact Or.inr h
          · exact Or.inl (by rw [List.mem_singleton.mp h]; exact List.mem_cons_self)

/-- The loop of `sthread_user_exit` leaves the joiners of other threads, in their order. -/
theorem wakeJoiners_rest (t : Tid) (ret : Ptr) :
    ∀ (xs : List Tid) (s : Sched) (tmp : List Tid) (z : Bool),
      (wakeJoiners t ret xs s tmp z).2.1 =
        tmp ++ xs.filter fun j => decide ((s.thr j).joinTid ≠ t) := by
  intro xs
  induction xs with
  | nil => intro s tmp z; simp [wakeJoiners]
  | cons j rest ih =>
      intro s tmp z
      by_cases hj : (s.thr j).joinTid = t
      · rw [wakeJoiners, if_pos hj, ih, List.filter_cons_of_neg (by simp [hj])]
        congr 1
        refine List.filter_congr fun u _ => ?_
        change decide ((Function.update s.thr j { s.thr j with joinRet := ret } u).joinTid ≠ t) = _
        by_cases huj : u = j
        · subst huj
          rw [Function.update_self]
        · rw [Function.update_of_ne huj]
      · rw [wakeJoiners, if_neg hj, ih, List.filter_cons_of_pos (by simp [hj]), List.append_assoc,
          List.singleton_append]

/-- A thread without joiners releases nobody, one with joiners leaves them in `active_rq`. -/
theorem wakeJoiners_ready (t : Tid) (ret : Ptr) :
    ∀ (xs : List Tid) (s : Sched) (tmp : List Tid) (z : Bool), s.PrioInRange →
      ((wakeJoiners t ret xs s tmp z).1.activeRq.threads = [] ↔
        s.activeRq.threads = [] ∧ ∀ j ∈ xs, (s.thr j).joinTid ≠ t) := by
  intro xs
  induction xs with
  | nil => exact fun s tmp z _ => ⟨fun h => ⟨h, fun j hj => by cases hj⟩, fun h => h.1⟩
  | cons j rest ih =>
      intro s tmp z hs
      unfold wakeJoiners
      split
      · rename_i hj
        have hset : (s.setThread j { s.thr j with joinRet := ret }).PrioInRange :=
          hs.setThread (hs j)
        rw [ih ((s.setThread j { s.thr j with joinRet := ret }).inserirActive j) tmp false hset]
        constructor
        · rintro ⟨h, -⟩
          exact absurd h (inserirActive_ne_nil hset j)
        · rintro ⟨-, h⟩
          exact absurd hj (h j List.mem_cons_self)
      · rename_i hj
        rw [ih s (tmp ++ [j]) z hs, List.forall_mem_cons]
        exact ⟨fun h => ⟨h.1, hj, h.2⟩, fun h => ⟨h.1, h.2.2⟩⟩

/-- The lists after the loop of `sthread_user_exit`. -/
theorem exitLists_lists (hp : s.PrioInRange) (t : Tid) (ret : Ptr) :
    (s.exitLists t ret).point = s.point ∧ (s.exitLists t ret).sleepThrList = s.sleepThrList ∧
      (∀ u ∈ (s.exitLists t ret).joinThrList, u ∈ s.joinThrList) ∧
      (∀ u, Exited (s.exitLists t ret) u → Exited s u ∨ u = t) ∧
      (s.exitLists t ret).expiredRq = s.expiredRq ∧
      ((s.exitLists t ret).activeRq.threads = [] ↔
        s.activeRq.threads = [] ∧ ∀ j ∈ s.joinThrList, (s.thr j).joinTid ≠ t) := by
  have hjoin := refiles_wakeJoiners t ret (s.splx .high).joinThrList (s.splx .high) [] true hp
  have hrest := wakeJoiners_rest t ret (s.splx .high).joinThrList (s.splx .high) [] true
  have hready := wakeJoiners_ready t ret (s.splx .high).joinThrList (s.splx .high) [] true hp
  revert hjoin hrest hready
  unfold exitLists
  dsimp only
  generalize wakeJoiners t ret (s.splx .high).joinThrList (s.splx .high) [] true = w
  obtain ⟨s₁, tmp, z⟩ := w
  rintro ⟨th, a, rfl, hth, hperm⟩ hrest hready
  have hjl : ∀ u ∈ tmp, u ∈ s.joinThrList := by
    intro u hu
    rw [show tmp = _ from hrest, List.nil_append] at hu
    exact List.mem_of_mem_filter hu
  cases z with
  | false =>
      refine ⟨rfl, rfl, hjl, fun u hu => ?_, rfl, hready⟩
      rcases hu with hu | hu
      · exact Or.inl (Or.inl hu)
      · rcases List.mem_append.mp hu with hu | hu
        · exact Or.inl (Or.inr hu)
        · exact Or.inr (List.mem_singleton.mp hu)
  | true =>
      refine ⟨rfl, rfl, hjl, fun u hu => ?_, rfl, hready⟩
      rcases hu with hu | hu
      · rcases List.mem_append.mp hu with hu | hu
        · exact Or.inl (Or.inl hu)
        · exact Or.inr (List.mem_singleton.mp hu)
      · exact Or.inl (Or.inr hu)

/-! ### What a step does to the lists -/

/-- Only the running thread moves to another point, and only it is put in a list. -/
structure Kept (s s' : Sched) (t : Tid) : Prop where
  point : ∀ u : Nat, u ≠ t → u < s.tidGen → s'.point u = s.point u
  sleep : ∀ u ∈ s'.sleepThrList, u ∈ s.sleepThrList ∨ u = t ∧ s'.point t = .sleep
  join : ∀ u ∈ s'.joinThrList, u ∈ s.joinThrList ∨ u = t ∧ ∃ v, s'.point t = .join v
  exited : ∀ u, Exited s' u → Exited s u ∨ u = t ∧ s'.point t = .exited

/-- The lists stay as they are. -/
theorem Kept.of_lists (hpoint : ∀ u : Nat, u ≠ t → u < s.tidGen → s'.point u = s.point u)
    (hsleep : s'.sleepThrList = s.sleepThrList) (hjoin : s'.joinThrList = s.joinThrList)
    (hzombie : s'.zombieThrList = s.zombieThrList) (hdead : s'.deadThrList = s.deadThrList) :
    Kept s s' t where
  point := hpoint
  sleep u hu := Or.inl (hsleep ▸ hu)
  join u hu := Or.inl (hjoin ▸ hu)
  exited u hu := Or.inl (by rwa [Exited, hzombie, hdead] at hu)

/-- The running thread gives the processor up at `p`. -/
theorem Kept.dispatched {p : Point} (hd : Dispatches s₁ s' t p) (hpoint : s₁.point = s.point)
    (hsleep : ∀ u ∈ s₁.sleepThrList, u ∈ s.sleepThrList ∨ u = t ∧ p = .sleep)
    (hjoin : ∀ u ∈ s₁.joinThrList, u ∈ s.joinThrList ∨ u = t ∧ ∃ v, p = .join v)
    (hexited : ∀ u, Exited s₁ u → Exited s u ∨ u = t ∧ p = .exited) : Kept s s' t := by
  have hpt : s'.point t = p := by rw [hd.point, Function.update_self]
  obtain ⟨a, e, rfl, -⟩ := hd
  refine ⟨fun u hu _ => ?_, ?_, ?_, ?_⟩
  · rw [← hpoint]
    exact Function.update_of_ne hu _ _
  · rw [hpt]; exact hsleep
  · rw [hpt]; exact hjoin
  · rw [hpt]; exact hexited

/-- The same without a change of the lists. -/
theorem Kept.of_dispatches {p : Point} (hd : Dispatches s₁ s' t p) (hpoint : s₁.point = s.point)
    (hsleep : s₁.sleepThrList = s.sleepThrList) (hjoin : s₁.joinThrList = s.joinThrList)
    (hzombie : s₁.zombieThrList = s.zombieThrList) (hdead : s₁.deadThrList = s.deadThrList) :
    Kept s s' t :=
  Kept.dispatched hd hpoint (fun _ hu => Or.inl (hsleep ▸ hu)) (fun _ hu => Or.inl (hjoin ▸ hu))
    fun _ hu => Or.inl (by rwa [Exited, hzombie, hdead] at hu)

/-- A release touches no list. -/
theorem granted_lists (s : Sched) (l : Lock) :
    (s.granted l).point = s.point ∧ (s.granted l).sleepThrList = s.sleepThrList ∧
      (s.granted l).joinThrList = s.joinThrList ∧
      (s.granted l).zombieThrList = s.zombieThrList ∧
      (s.granted l).deadThrList = s.deadThrList := by
  unfold granted
  split <;> exact ⟨rfl, rfl, rfl, rfl, rfl⟩

theorem kept_userMutexLock (hi : s.Inv) {l : Lock} (h : s.userMutexLock t l = some s') :
    Kept s s' t := by
  have hc : (s.locks l).l = false := hi.ok.clear l
  by_cases hfree : (s.locks l).thr = none
  · rw [userMutexLock_free hc hfree] at h
    cases h
    exact Kept.of_lists (fun _ _ _ => rfl) rfl rfl rfl rfl
  · rw [userMutexLock_taken hc hfree] at h
    cases h
    exact Kept.of_dispatches (dispatches_bloquear (s.queued t l) t (.lock l)) rfl rfl rfl rfl rfl

/-- The release that preempts its caller, from a state with the lists of `s`. -/
theorem kept_preempted (hp : s₁.PrioInRange) (l : Lock) (p : Point) (hpoint : s₁.point = s.point)
    (hsleep : s₁.sleepThrList = s.sleepThrList) (hjoin : s₁.joinThrList = s.joinThrList)
    (hzombie : s₁.zombieThrList = s.zombieThrList) (hdead : s₁.deadThrList = s.deadThrList) :
    Kept s (((s₁.granted l).inserirActive t).retirarActive.sthreadSwitch t p) t := by
  obtain ⟨g1, g2, g3, g4, g5⟩ := granted_lists s₁ l
  exact Kept.of_dispatches (dispatches_granted hp t l p) (g1.trans hpoint) (g2.trans hsleep)
    (g3.trans hjoin) (g4.trans hzombie) (g5.trans hdead)

theorem kept_userMutexUnlock (hi : s.Inv) {l : Lock} {p : Point} {r : Sched × Bool}
    (h : s.userMutexUnlock t l p = some r) : Kept s r.1 t := by
  have hc : (s.locks l).l = false := hi.ok.clear l
  by_cases hown : (s.locks l).thr = some t
  · rw [userMutexUnlock_owner hc hown] at h
    split at h
    · cases h
      exact kept_preempted hi.prio l p rfl rfl rfl rfl rfl
    · cases h
      obtain ⟨g1, g2, g3, g4, g5⟩ := granted_lists s l
      exact Kept.of_lists (fun u _ _ => congrFun g1 u) g2 g3 g4 g5
  · rw [userMutexUnlock, if_pos hown] at h
    cases h
    exact Kept.of_lists (fun _ _ _ => rfl) rfl rfl rfl rfl

theorem kept_userMonitorWait (hi : s.Inv) {m : Nat} (h : s.userMonitorWait t m = some s') :
    Kept s s' t := by
  have hc : (s.locks (.monitor m)).l = false := hi.ok.clear _
  by_cases hown : (s.locks (.monitor m)).thr = some t
  · rw [userMonitorWait_owner hc hown] at h
    split at h
    · cases h
      exact kept_preempted (hi.prio.registered t m) _ _ rfl rfl rfl rfl rfl
    · cases h
      obtain ⟨g1, g2, g3, g4, g5⟩ := granted_lists (s.registered t m) (.monitor m)
      exact Kept.of_dispatches (dispatches_bloquear
        (((s.registered t m).granted (.monitor m)).splx .high) t (.wait m)) g1 g2 g3 g4 g5
  · rw [userMonitorWait, if_pos hown] at h
    cases h
    exact Kept.of_lists (fun _ _ _ => rfl) rfl rfl rfl rfl

theorem kept_userMonitorSignal (hi : s.Inv) {m : Nat} (h : s.userMonitorSignal t m = some s') :
    Kept s s' t := by
  have hc : (s.locks (.monitor m)).l = false := hi.ok.clear _
  by_cases hown : (s.locks (.monitor m)).thr = some t
  · cases hmon : s.mons m with
    | nil =>
        rw [userMonitorSignal_nil hc hown hmon] at h
        cases h
        exact Kept.of_lists (fun _ _ _ => rfl) rfl rfl rfl rfl
    | cons u rest =>
        rw [userMonitorSignal_cons hc hown hmon] at h
        cases h
        exact Kept.of_lists (fun _ _ _ => rfl) rfl rfl rfl rfl
  · rw [userMonitorSignal, if_pos hown] at h
    cases h
    exact Kept.of_lists (fun _ _ _ => rfl) rfl rfl rfl rfl

theorem kept_userExit (hp : s.PrioInRange) (ret : Ptr) (h : s.userExit t ret = some s') :
    Kept s s' t := by
  obtain ⟨h1, h2, h3, h4, -⟩ := exitLists_lists hp t ret
  unfold userExit at h
  dsimp only at h
  split at h
  · cases h
  · cases h
    exact Kept.dispatched (dispatches_bloquear _ t .exited) h1 (fun _ hu => Or.inl (h2 ▸ hu))
      (fun u hu => Or.inl (h3 u hu)) fun u hu => (h4 u hu).imp_right fun he => ⟨he, rfl⟩

theorem kept_userJoin (s : Sched) (t u : Tid) : Kept s (s.userJoin t u) t := by
  unfold userJoin
  dsimp only
  split
  · -- the zombie goes to the dead threads
    refine ⟨fun _ _ _ => rfl, fun _ hx => Or.inl hx, fun _ hx => Or.inl hx, fun x hx => Or.inl ?_⟩
    rcases hx with hx | hx
    · exact Or.inl (List.mem_of_mem_filter hx)
    · rcases List.mem_append.mp hx with hx | hx
      · exact Or.inr hx
      · exact Or.inl (List.mem_of_mem_filter hx)
  · split
    · refine Kept.dispatched (dispatches_bloquear _ t (.join u)) rfl (fun _ hx => Or.inl hx)
        (fun x hx => ?_) fun _ hx => Or.inl hx
      rcases List.mem_append.mp hx with hx | hx
      · exact Or.inl hx
      · exact Or.inr ⟨List.mem_singleton.mp hx, u, rfl⟩
    · exact Kept.of_lists (fun _ _ _ => rfl) rfl rfl rfl rfl

theorem kept_userSleep (s : Sched) (t : Tid) (time : Int) : Kept s (s.userSleep t time) t := by
  unfold userSleep
  dsimp only
  split
  · exact Kept.of_lists (fun _ _ _ => rfl) rfl rfl rfl rfl
  · refine Kept.dispatched (dispatches_bloquear _ t .sleep) rfl (fun x hx => ?_)
      (fun _ hx => Or.inl hx) fun _ hx => Or.inl hx
    rcases List.mem_append.mp hx with hx | hx
    · exact Or.inl hx
    · exact Or.inr ⟨List.mem_singleton.mp hx, rfl⟩

/-- A tick wakes sleepers. -/
theorem tickWake_lists (hp : s.PrioInRange) :
    s.tickWake.point = s.point ∧ (∀ u ∈ s.tickWake.sleepThrList, u ∈ s.sleepThrList) ∧
      s.tickWake.joinThrList = s.joinThrList ∧ s.tickWake.zombieThrList = s.zombieThrList ∧
      s.tickWake.deadThrList = s.deadThrList := by
  have hwake := refiles_wakeSleepers s.sleepThrList { s with clock := s.clock + 1 } [] hp
  have hleft := wakeSleepers_left s.sleepThrList { s with clock := s.clock + 1 } []
  revert hwake hleft
  unfold tickWake
  dsimp only
  generalize wakeSleepers s.sleepThrList { s with clock := s.clock + 1 } [] = w
  obtain ⟨s₁, tmp⟩ := w
  rintro ⟨th, a, rfl, -, -⟩ hleft
  exact ⟨rfl, fun u hu => (hleft u hu).resolve_right (by simp), rfl, rfl, rfl⟩

theorem kept_userDispatcher (hp : s.PrioInRange) (t : Tid) : Kept s (s.userDispatcher t) t := by
  obtain ⟨h1, h2, h3, h4, h5⟩ := tickWake_lists hp
  have hsleep : ∀ {p : Point}, ∀ u ∈ s.tickWake.sleepThrList,
      u ∈ s.sleepThrList ∨ u = t ∧ p = .sleep := fun u hu => Or.inl (h2 u hu)
  have hexited : ∀ {p : Point}, ∀ u, Exited s.tickWake u → Exited s u ∨ u = t ∧ p = .exited :=
    fun u hu => Or.inl (by rwa [Exited, h4, h5] at hu)
  rw [userDispatcher_eq]
  split
  · split
    · exact Kept.dispatched
        (dispatches_retirarActive (inserirActive_ne_nil (tickCharge_prio hp t) t) t .tick) h1
        hsleep (fun u hu => Or.inl (h3 ▸ hu)) hexited
    · exact ⟨fun u _ _ => congrFun h1 u, hsleep, fun u hu => Or.inl (h3 ▸ hu), hexited⟩
  · exact Kept.dispatched (dispatches_bloquear ((s.tickExpire t).inserirExpired t) t .tick) h1
      hsleep (fun u hu => Or.inl (h3 ▸ hu)) hexited

theorem kept_call (hi : s.Inv) {c : Call} (h : s.call t c = some s') : Kept s s' t := by
  cases c with
  | create priority =>
      cases h
      refine Kept.of_lists (fun u _ hu => ?_) rfl rfl rfl rfl
      exact Function.update_of_ne (Nat.ne_of_lt hu) _ _
  | nice n =>
      cases h
      exact Kept.of_lists (fun _ _ _ => rfl) rfl rfl rfl rfl
  | exit ret => exact kept_userExit hi.prio ret h
  | yield =>
      cases h
      exact Kept.of_dispatches (dispatches_userYield hi.prio t) rfl rfl rfl rfl rfl
  | join u =>
      rw [call] at h
      split at h
      · cases h
        exact kept_userJoin s t u
      · cases h
  | sleep time =>
      cases h
      exact kept_userSleep s t time
  | mutexLock n => exact kept_userMutexLock hi h
  | mutexUnlock n =>
      obtain ⟨r, hr, rfl⟩ := Option.map_eq_some_iff.mp h
      exact kept_userMutexUnlock hi hr
  | monitorEnter m => exact kept_userMutexLock hi h
  | monitorExit m =>
      obtain ⟨r, hr, rfl⟩ := Option.map_eq_some_iff.mp h
      exact kept_userMutexUnlock hi hr
  | monitorWait m => exact kept_userMonitorWait hi h
  | monitorSignal m => exact kept_userMonitorSignal hi h

/-- Every step keeps the lists as `Kept` says. -/
theorem step_kept (hi : s.Inv) {a : Act} (h : Sched.step s a = some s') :
    ∃ t, s.activeThr = some t ∧ Kept s s' t := by
  unfold Sched.step at h
  cases ht : s.activeThr with
  | none => rw [ht] at h; cases h
  | some t =>
      refine ⟨t, rfl, ?_⟩
      rw [ht] at h
      cases a with
      | tick =>
          simp only at h
          split at h
          · cases h
            exact kept_userDispatcher hi.prio t
          · cases h
      | resume =>
          obtain ⟨m, -, rfl⟩ | ⟨-, -, v, r, rfl, -⟩ := resume_cases h
          · exact Kept.of_dispatches (dispatches_bloquear (s.splx .high) t (.wait m)) rfl rfl rfl
              rfl rfl
          · exact Kept.of_lists (fun u hu _ => Function.update_of_ne hu _ _) rfl rfl rfl rfl
      | call c =>
          simp only at h
          split at h
          · exact kept_call hi h
          · cases h

/-- The threads of the lists are slots other than the processor and the runqueues. -/
theorem count_lists_le (s : Sched) (x : Tid) :
    s.current.count x + s.sleepThrList.count x + s.joinThrList.count x +
      s.zombieThrList.count x + s.deadThrList.count x ≤ s.slots.count x := by
  rw [count_slots]
  omega

theorem mem_slots_of_lists (ht : t ∈ s.sleepThrList ∨ t ∈ s.joinThrList ∨ Exited s t) :
    t ∈ s.slots := by
  have hle := count_lists_le s t
  rw [← Multiset.one_le_count_iff_mem]
  rcases ht with h | h | h | h <;>
    · have := List.count_pos_iff.mpr h
      omega

/-- The running thread is in none of the lists. -/
theorem running_not_parked (hi : s.Inv) (hp : Parked s) (ht : s.activeThr = some t) :
    t ∉ s.sleepThrList ∧ t ∉ s.joinThrList ∧ ¬ Exited s t := by
  have hcur : t ∈ s.current := by
    rw [current, ht]
    exact List.mem_cons_self
  by_cases hx : (s.point t).extra = 0
  · have hone := hi.once (mem_slots_of_current hcur) hx
    have hle := count_lists_le s t
    have hpos := List.count_pos_iff.mpr hcur
    refine ⟨List.count_eq_zero.mp (by omega), List.count_eq_zero.mp (by omega), ?_⟩
    rintro (h | h)
    · have := List.count_pos_iff.mpr h
      omega
    · have := List.count_pos_iff.mpr h
      omega
  · -- a thread with a wait to finish is at `unlockInWait`
    refine ⟨fun h => hx ?_, fun h => hx ?_, fun h => hx ?_⟩
    · rw [hp.sleep t h]; rfl
    · obtain ⟨v, hv⟩ := hp.join t h
      rw [hv]; rfl
    · rw [hp.exited t h]; rfl

end Sched

namespace Parked

variable {s s' : Sched} {t : Tid}

theorem init : Parked userInit := by
  refine ⟨fun u hu => ?_, fun u hu => ?_, fun u hu => ?_⟩
  · cases hu
  · cases hu
  · rcases hu with hu | hu <;> cases hu

theorem step (h : Parked s) (hi : s.Inv) {a : Act} (hs : Sched.step s a = some s') :
    Parked s' := by
  obtain ⟨t, ht, hk⟩ := step_kept hi hs
  obtain ⟨n1, n2, n3⟩ := running_not_parked hi h ht
  have hpoint : ∀ u, (u ∈ s.sleepThrList ∨ u ∈ s.joinThrList ∨ Exited s u) →
      s'.point u = s.point u := by
    intro u hu
    refine hk.point u ?_ (hi.ok.placed.created u (Or.inl (mem_slots_of_lists hu))).2
    rintro rfl
    rcases hu with hu | hu | hu
    · exact n1 hu
    · exact n2 hu
    · exact n3 hu
  refine ⟨fun u hu => ?_, fun u hu => ?_, fun u hu => ?_⟩
  · rcases hk.sleep u hu with hu | ⟨rfl, hp⟩
    · rw [hpoint u (Or.inl hu)]; exact h.sleep u hu
    · exact hp
  · rcases hk.join u hu with hu | ⟨rfl, hp⟩
    · rw [hpoint u (Or.inr (Or.inl hu))]; exact h.join u hu
    · exact hp
  · rcases hk.exited u hu with hu | ⟨rfl, hp⟩
    · rw [hpoint u (Or.inr (Or.inr hu))]; exact h.exited u hu
    · exact hp

/-- A thread that has exited waits for nothing. -/
theorem not_exited (h : Parked s) (hi : s.Inv) {u : Tid}
    (hu : u ∈ s.sleepThrList ∨ u ∈ s.joinThrList ∨ Waits s.locks s.mons u) : ¬ Exited s u := by
  intro hex
  have hp := h.exited u hex
  rcases hu with hu | hu | hu
  · rw [h.sleep u hu] at hp; cases hp
  · obtain ⟨v, hv⟩ := h.join u hu
    rw [hv] at hp; cases hp
  · exact hi.ok.placed.not_waits (show (s.places.point u).needs = none by
      rw [show s.places.point = s.point from rfl, hp]; rfl) hu

end Parked

/-- A created thread that is in no list but those of the exited, and not ready, has exited. -/
theorem exited_of_nobodyWaits {s : Sched} (hi : s.Inv) {t : Tid} (ht : s.activeThr = some t)
    (hlast : LastReady s t) (hn : NobodyWaits s) {u : Nat} (h1 : 1 ≤ u) (hu : u < s.tidGen)
    (hne : u ≠ t) : Exited s u := by
  obtain ⟨hsleep, hjoin, hlocks, hmons⟩ := hn
  have hnw : ¬ Waits s.locks s.mons u := by
    rintro (⟨m, hm⟩ | ⟨l, hl⟩)
    · rw [hmons m] at hm; cases hm
    · rw [hlocks l] at hl; cases hl
  have hcount : s.slots.count u = 1 + (s.point u).extra := hi.ok.placed.countFree u h1 hu hnw
  rw [count_slots, current, ht, rqVazia_iff.mp hlast.1, rqVazia_iff.mp hlast.2.1, hsleep,
    hjoin] at hcount
  simp only [Option.toList_some, List.append_nil, List.count_nil, List.count_singleton,
    beq_iff_eq, Ne.symm hne, if_false] at hcount
  by_contra hc
  rw [Exited, not_or] at hc
  rw [List.count_eq_zero.mpr hc.1, List.count_eq_zero.mpr hc.2] at hcount
  omega

/-- `sthread_user_exit` ends the program exactly when nobody is ready and nobody joins the caller. -/
theorem userExit_none_iff {s : Sched} (hp : s.PrioInRange) (t : Tid) (ret : Ptr) :
    s.userExit t ret = none ↔ LastReady s t := by
  obtain ⟨-, -, -, -, hexp, hact⟩ := exitLists_lists hp t ret
  have hready : ((s.exitLists t ret).activeRq.rqVazia &&
      (s.exitLists t ret).expiredRq.rqVazia) = true ↔ LastReady s t := by
    simp only [Bool.and_eq_true, LastReady, rqVazia_iff, hexp, hact]
    tauto
  unfold userExit
  dsimp only
  split
  · rename_i h
    exact ⟨fun _ => hready.mp h, fun _ => rfl⟩
  · rename_i h
    exact Iff.intro (fun hc => (by cases hc)) fun hl => absurd (hready.mpr hl) h

/-- Wherever a thread calls `sthread_user_exit`, the call ends the program only if every other
created thread has exited, if and only if it is not made as the last ready thread, joined by
nobody, while some thread sleeps, joins another one or waits for a lock. -/
theorem exit_zero_iff {s : Sched} (hreach : Reaches step userInit s) {t : Tid}
    (ht : s.activeThr = some t) (hu : s.point t = .user) (ret : Ptr) :
    (s.userExit t ret = none →
      ∀ u : Nat, 1 ≤ u → u < s.tidGen → u ≠ t → Exited s u) ↔
      (LastReady s t → NobodyWaits s) := by
  obtain ⟨tr, htr⟩ := hreach
  have hinv : s.Inv ∧ Parked s := htr.invariant (fun s => s.Inv ∧ Parked s)
    ⟨Inv.init, Parked.init⟩ fun _ _ _ h hs => ⟨h.1.step hs, h.2.step h.1 hs⟩
  obtain ⟨hi, hp⟩ := hinv
  rw [userExit_none_iff hi.prio]
  constructor
  · intro h hlast
    -- a thread that sleeps, joins or waits is created, not running, and has not exited
    have hnone : ∀ u : Nat,
        ¬ (u ∈ s.sleepThrList ∨ u ∈ s.joinThrList ∨ Waits s.locks s.mons u) := by
      intro u hw
      have hcr : 1 ≤ u ∧ u < s.tidGen := by
        rcases hw with hs | hj | hw
        · exact hi.ok.placed.created u (Or.inl (mem_slots_of_lists (Or.inl hs)))
        · exact hi.ok.placed.created u (Or.inl (mem_slots_of_lists (Or.inr (Or.inl hj))))
        · exact hi.ok.placed.created u (Or.inr hw)
      have hne : u ≠ t := by
        rintro rfl
        obtain ⟨n1, n2, -⟩ := running_not_parked hi hp ht
        rcases hw with hs | hj | hw
        · exact n1 hs
        · exact n2 hj
        · exact hi.ok.user_not_waits hu hw
      exact hp.not_exited hi hw (h hlast u hcr.1 hcr.2 hne)
    refine ⟨List.eq_nil_iff_forall_not_mem.mpr fun u hu => hnone u (Or.inl hu),
      List.eq_nil_iff_forall_not_mem.mpr fun u hu => hnone u (Or.inr (Or.inl hu)),
      fun l => List.eq_nil_iff_forall_not_mem.mpr fun u hu =>
        hnone u (Or.inr (Or.inr (Or.inr ⟨l, hu⟩))),
      fun m => List.eq_nil_iff_forall_not_mem.mpr fun u hu =>
        hnone u (Or.inr (Or.inr (Or.inl ⟨m, hu⟩)))⟩
  · exact fun h hlast u h1 hu hne => exited_of_nobodyWaits hi ht hlast (h hlast) h1 hu hne

/-- The main thread sleeps for a second; the thread it created is dispatched. -/
def exitWhileAsleep : List Act := [.call (.create 7), .call (.sleep 100), .resume]

/-- The created thread exits, and the program ends, while the main thread is asleep. -/
theorem exit_zero_with_sleeper :
    ∃ s, Reaches step userInit s ∧ s.activeThr = some 2 ∧ s.point 2 = .user ∧
      s.userExit 2 0 = none ∧ s.sleepThrList = [1] ∧ ¬ Exited s 1 := by
  have hrun : (runActs step userInit exitWhileAsleep).map (fun s =>
      (s.activeThr, s.point 2, (s.userExit 2 0).isNone, s.sleepThrList)) =
        some (some 2, .user, true, [1]) := by decide
  have hdone : (runActs step userInit exitWhileAsleep).map (fun s =>
      (s.zombieThrList, s.deadThrList)) = some ([], []) := by decide
  obtain ⟨s, hs, heq⟩ := Option.map_eq_some_iff.mp hrun
  rw [hs] at hdone
  simp only [Option.map_some, Option.some.injEq, Prod.mk.injEq, Option.isNone_iff_eq_none]
    at heq hdone
  obtain ⟨hact, hpoint, hexit, hsleep⟩ := heq
  refine ⟨s, reaches_runActs _ hs, hact, hpoint, hexit, hsleep, ?_⟩
  rw [Exited, hdone.1, hdone.2]
  simp

/-- The created thread exits first, and nobody waits when the main thread does. -/
theorem exit_zero_iff_two_threads :
    ∃ s, Reaches step userInit s ∧ s.activeThr = some 1 ∧ s.userExit 1 0 = none ∧
      s.tidGen = 3 ∧ ∀ u : Nat, 1 ≤ u → u < s.tidGen → u ≠ 1 → Exited s u := by
  have hrun : (runActs step userInit
      [.call (.create 0), .call .yield, .resume, .call (.exit 0), .resume]).map (fun s =>
      (s.activeThr, s.point 1, (s.userExit 1 0).isNone, s.tidGen)) =
        some (some 1, .user, true, 3) := by decide
  have hwait : (runActs step userInit
      [.call (.create 0), .call .yield, .resume, .call (.exit 0), .resume]).map (fun s =>
      (s.sleepThrList, s.joinThrList)) = some ([], []) := by decide
  obtain ⟨s, hs, heq⟩ := Option.map_eq_some_iff.mp hrun
  rw [hs] at hwait
  simp only [Option.map_some, Option.some.injEq, Prod.mk.injEq, Option.isNone_iff_eq_none]
    at heq hwait
  obtain ⟨hact, hpoint, hexit, hgen⟩ := heq
  have hlocks : s.locks = userInit.locks ∧ s.mons = userInit.mons := by
    obtain rfl := Option.some.inj hs
    exact ⟨rfl, rfl⟩
  refine ⟨s, reaches_runActs _ hs, hact, hexit, hgen, ?_⟩
  refine (exit_zero_iff (reaches_runActs _ hs) hact hpoint 0).mpr (fun _ => ?_) hexit
  refine ⟨hwait.1, hwait.2, fun l => ?_, fun m => ?_⟩
  · rw [hlocks.1]; rfl
  · rw [hlocks.2]; rfl

end Sthreads.User
