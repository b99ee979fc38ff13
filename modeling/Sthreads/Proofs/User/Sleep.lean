/-
How long a thread sleeps.

`sthread_user_sleep` turns the time into ticks, and the dispatcher counts them.  A thread that has
called it is woken by the last of these ticks and not before: until then it does not run and is
not ready, and then it runs or is in `active_rq`.  A call of less than one tick returns at once,
and one of minus one tick or less sleeps to the next tick.
-/
import Sthreads.Proofs.User.Join
import Sthreads.Proofs.User.Tick

namespace Sthreads.User

open Sched Runqueue

/-- How many ticks a run has. -/
def ticksIn (tr : List (Sched × Act)) : Nat := tr.countP fun p => p.2 == .tick

/-- How many ticks `sthread_user_sleep` sleeps, if the time is not less than a tick. -/
def sleepTicks (time : Int) : Int := max 1 ((10 * time).tdiv clockTick)

/-- The thread sleeps until the clock is at `w`. -/
structure Asleep (s : Sched) (t : Tid) (w : Int) : Prop where
  mem : t ∈ s.sleepThrList
  wake : (s.thr t).wakeTime = w

namespace Sched

variable {s s₁ s' : Sched} {t u : Tid} {a : Act}

/-! ### Steps that are no ticks -/

/-- Time does not pass and nobody is woken. -/
structure Slumbers (s s' : Sched) : Prop where
  clock : s'.clock = s.clock
  sleep : ∀ u ∈ s.sleepThrList, u ∈ s'.sleepThrList

theorem Slumbers.same (hclock : s'.clock = s.clock) (hsleep : s'.sleepThrList = s.sleepThrList) :
    Slumbers s s' := ⟨hclock, fun u hu => by rwa [hsleep]⟩

theorem Slumbers.dispatched {p : Point} (h : Slumbers s s₁) (hd : Dispatches s₁ s' t p) :
    Slumbers s s' := by
  obtain ⟨a, e, rfl, -⟩ := hd
  exact ⟨h.clock, h.sleep⟩

theorem slumbers_granted (s : Sched) (l : Lock) : Slumbers s (s.granted l) := by
  unfold granted
  split <;> exact .same rfl rfl

/-- The release of a lock that preempts its caller. -/
theorem slumbers_preempted (h : Slumbers s s₁) (hp : s₁.PrioInRange) (t : Tid) (l : Lock)
    (p : Point) :
    Slumbers s (((s₁.granted l).inserirActive t).retirarActive.sthreadSwitch t p) := by
  have hgranted := slumbers_granted s₁ l
  have hfiled : Slumbers s ((s₁.granted l).inserirActive t) :=
    ⟨hgranted.clock.trans h.clock, fun u hu => hgranted.sleep u (h.sleep u hu)⟩
  exact hfiled.dispatched (dispatches_granted hp t l p)

theorem slumbers_exitLists (hp : s.PrioInRange) (t : Tid) (ret : Ptr) :
    Slumbers s (s.exitLists t ret) := by
  have hjoin := refiles_wakeJoiners t ret (s.splx .high).joinThrList (s.splx .high) [] true hp
  apply Slumbers.same _ (exitLists_lists hp t ret).2.1
  revert hjoin
  unfold exitLists
  dsimp only
  generalize wakeJoiners t ret (s.splx .high).joinThrList (s.splx .high) [] true = w
  intro hjoin
  obtain ⟨s₁, tmp, z⟩ := w
  obtain ⟨th, a, rfl, -, -⟩ := hjoin
  cases z <;> rfl

theorem slumbers_userMutexLock (hi : s.Inv) {l : Lock} (h : s.userMutexLock t l = some s') :
    Slumbers s s' := by
  have hc : (s.locks l).l = false := hi.ok.clear l
  by_cases hfree : (s.locks l).thr = none
  · rw [userMutexLock_free hc hfree] at h
    rw [← Option.some.inj h]
    exact .same rfl rfl
  · rw [userMutexLock_taken hc hfree] at h
    rw [← Option.some.inj h]
    have hqueued : Slumbers s (s.queued t l) := .same rfl rfl
    exact hqueued.dispatched (dispatches_bloquear _ t _)

theorem slumbers_userMutexUnlock (hi : s.Inv) {l : Lock} {p : Point} {r : Sched × Bool}
    (h : s.userMutexUnlock t l p = some r) : Slumbers s r.1 := by
  by_cases hown : (s.locks l).thr = some t
  · rw [userMutexUnlock_owner (hi.ok.clear l) hown] at h
    split at h
    · rw [← Option.some.inj h]
      exact slumbers_preempted (.same rfl rfl) hi.prio t l p
    · rw [← Option.some.inj h]
      exact slumbers_granted s l
  · rw [userMutexUnlock, if_pos hown] at h
    rw [← Option.some.inj h]
    exact .same rfl rfl

theorem slumbers_userMonitorWait (hi : s.Inv) {m : Nat} (h : s.userMonitorWait t m = some s') :
    Slumbers s s' := by
  by_cases hown : (s.locks (.monitor m)).thr = some t
  · have hregistered : Slumbers s (s.registered t m) := .same rfl rfl
    rw [userMonitorWait_owner (hi.ok.clear _) hown] at h
    split at h
    · rw [← Option.some.inj h]
      exact slumbers_preempted hregistered (hi.prio.registered t m) t _ _
    · rw [← Option.some.inj h]
      have hgranted := slumbers_granted (s.registered t m) (.monitor m)
      have hsplx : Slumbers s (((s.registered t m).granted (.monitor m)).splx .high) :=
        ⟨hgranted.clock, hgranted.sleep⟩
      exact hsplx.dispatched (dispatches_bloquear _ t _)
  · rw [userMonitorWait, if_pos hown] at h
    rw [← Option.some.inj h]
    exact .same rfl rfl

theorem slumbers_userMonitorSignal (hi : s.Inv) {m : Nat}
    (h : s.userMonitorSignal t m = some s') : Slumbers s s' := by
  by_cases hown : (s.locks (.monitor m)).thr = some t
  · cases hmon : s.mons m with
    | nil =>
        rw [userMonitorSignal_nil (hi.ok.clear _) hown hmon] at h
        rw [← Option.some.inj h]
        exact .same rfl rfl
    | cons u rest =>
        rw [userMonitorSignal_cons (hi.ok.clear _) hown hmon] at h
        rw [← Option.some.inj h]
        exact .same rfl rfl
  · rw [userMonitorSignal, if_pos hown] at h
    rw [← Option.some.inj h]
    exact .same rfl rfl

theorem slumbers_userJoin (s : Sched) (t u : Tid) : Slumbers s (s.userJoin t u) := by
  unfold userJoin
  dsimp only
  split
  · exact .same rfl rfl
  · split
    · have hblocked : Slumbers s (s.joinBlocked t u) := .same rfl rfl
      exact hblocked.dispatched (dispatches_bloquear _ t _)
    · exact .same rfl rfl

/-- The state in which the caller of `sthread_user_sleep` gives the processor up. -/
def sleepBlocked (s : Sched) (t : Tid) (ticks : Int) : Sched :=
  { (s.splx .high).setThread t { s.thr t with wakeTime := s.clock + ticks } with
    sleepThrList := s.sleepThrList ++ [t] }

theorem userSleep_blocks {time : Int} (h : (10 * time).tdiv clockTick ≠ 0) (s : Sched) (t : Tid) :
    s.userSleep t time = (s.sleepBlocked t ((10 * time).tdiv clockTick)).bloquear t .sleep := by
  unfold userSleep
  dsimp only
  rw [if_neg h]
  rfl

theorem slumbers_userSleep (s : Sched) (t : Tid) (time : Int) :
    Slumbers s (s.userSleep t time) := by
  by_cases h : (10 * time).tdiv clockTick = 0
  · unfold userSleep
    dsimp only
    rw [if_pos h]
    exact .same rfl rfl
  · rw [userSleep_blocks h]
    have hblocked : Slumbers s (s.sleepBlocked t ((10 * time).tdiv clockTick)) :=
      ⟨rfl, fun u hu => List.mem_append_left _ hu⟩
    exact hblocked.dispatched (dispatches_bloquear _ t _)

theorem slumbers_call (hi : s.Inv) {c : Call} (h : s.call t c = some s') : Slumbers s s' := by
  cases c with
  | create priority =>
      rw [← Option.some.inj h]
      exact .same rfl rfl
  | nice n =>
      rw [← Option.some.inj h]
      exact .same rfl rfl
  | exit ret =>
      have h : s.userExit t ret = some s' := h
      unfold userExit at h
      dsimp only at h
      split at h
      · cases h
      · rw [← Option.some.inj h]
        exact (slumbers_exitLists hi.prio t ret).dispatched (dispatches_bloquear _ t _)
  | yield =>
      rw [← Option.some.inj h]
      have hfiled : Slumbers s (((s.splx .high).recalcularThr t).inserirActive t) := .same rfl rfl
      exact hfiled.dispatched (dispatches_userYield hi.prio t)
  | join u =>
      rw [call] at h
      split at h
      · rw [← Option.some.inj h]
        exact slumbers_userJoin s t u
      · cases h
  | sleep time =>
      rw [← Option.some.inj h]
      exact slumbers_userSleep s t time
  | mutexLock n => exact slumbers_userMutexLock hi h
  | mutexUnlock n =>
      obtain ⟨r, hr, rfl⟩ := Option.map_eq_some_iff.mp h
      exact slumbers_userMutexUnlock hi hr
  | monitorEnter m => exact slumbers_userMutexLock hi h
  | monitorExit m =>
      obtain ⟨r, hr, rfl⟩ := Option.map_eq_some_iff.mp h
      exact slumbers_userMutexUnlock hi hr
  | monitorWait m => exact slumbers_userMonitorWait hi h
  | monitorSignal m => exact slumbers_userMonitorSignal hi h

/-- Only a tick moves the clock or wakes a thread. -/
theorem slumbers_step (hi : s.Inv) (ha : a ≠ .tick) (h : Sched.step s a = some s') :
    Slumbers s s' := by
  obtain ⟨t, ht, -⟩ := step_refines hi h
  cases a with
  | call c => exact slumbers_call hi (step_call ht h).2
  | tick => exact absurd rfl ha
  | resume =>
      have hres : s.resume t = some s' := by simpa [Sched.step, ht] using h
      obtain ⟨m, -, rfl⟩ | ⟨-, -, v, r, rfl, -⟩ := resume_cases hres
      · have hsplx : Slumbers s (s.splx .high) := .same rfl rfl
        exact hsplx.dispatched (dispatches_bloquear _ t _)
      · exact .same rfl rfl

/-! ### Ticks -/

theorem wakeSleepers_sleeping :
    ∀ (xs : List Tid) (s : Sched) (tmp : List Tid), s.slept t = false →
      (wakeSleepers xs s tmp).1.thr t = s.thr t := by
  intro xs
  induction xs with
  | nil => intro s tmp _; rfl
  | cons j rest ih =>
      intro s tmp ht
      by_cases hj : (s.thr j).wakeTime ≤ s.clock
      · have hne : t ≠ j := by
          intro he
          subst he
          simp [slept, hj] at ht
        have hthr : (s.wake j).thr t = s.thr t := Function.update_of_ne hne ..
        rw [wakeSleepers, if_pos hj, ← hthr]
        exact ih (s.wake j) tmp (by rw [← ht, slept, slept, hthr]; rfl)
      · rw [wakeSleepers, if_neg hj]
        exact ih s (tmp ++ [j]) ht

theorem userDispatcher_thr (hp : s.PrioInRange) (htu : t ≠ u) :
    (s.userDispatcher u).thr t = s.tickWake.thr t := by
  rw [userDispatcher_eq]
  split
  · have hcharge : (s.tickCharge u).thr t = s.tickWake.thr t := Function.update_of_ne htu ..
    split
    · have hd := dispatches_retirarActive (inserirActive_ne_nil (tickCharge_prio hp u) u) u .tick
      rw [hd.thr, ← hcharge]
      rfl
    · exact hcharge
  · rw [(dispatches_bloquear ((s.tickExpire u).inserirExpired u) u .tick).thr]
    exact tickExpire_thr s htu

end Sched

section

variable {s s' : Sched} {t u : Tid} {a : Act} {w : Int}

/-- A thread that sleeps neither runs nor is ready. -/
theorem Settled.asleep (h : Settled s) (ht : t ∈ s.sleepThrList) :
    t ∉ s.current ∧ t ∉ s.expiredRq.threads ∧ s.sleepThrList.count t = 1 := by
  have hone := h.inv.once (mem_slots_of_lists (Or.inl ht)) (by rw [h.parked.sleep t ht]; rfl)
  have hpos := List.count_pos_iff.mpr ht
  rw [count_slots] at hone
  refine ⟨List.count_eq_zero.mp ?_, List.count_eq_zero.mp ?_, ?_⟩
  · omega
  · omega
  · omega

theorem Settled.sleepers_nodup (h : Settled s) : s.sleepThrList.Nodup := by
  rw [List.nodup_iff_count_le_one]
  intro t
  by_cases ht : t ∈ s.sleepThrList
  · exact Nat.le_of_eq (h.asleep ht).2.2
  · rw [List.count_eq_zero.mpr ht]
    exact Nat.zero_le 1

/-- A step that is no tick lets the thread sleep. -/
theorem Asleep.step (h : Asleep s t w) (hs : Settled s) (ha : a ≠ .tick)
    (hstep : step s a = some s') : Asleep s' t w := by
  obtain ⟨u, hu, -⟩ := step_refines hs.inv hstep
  have hne : t ≠ u := by
    intro he
    subst he
    exact (running_not_parked hs.inv hs.parked hu).1 h.mem
  have hold : t ≠ s.tidGen := by
    have := (hs.inv.ok.placed.created t (Or.inl (mem_slots_of_lists (Or.inl h.mem)))).2
    exact Nat.ne_of_lt this
  refine ⟨(slumbers_step hs.inv ha hstep).sleep t h.mem, ?_⟩
  rw [← h.wake]
  have hwrites := step_writes hs.inv hu hstep t
  generalize s'.thr t = v at hwrites
  cases hwrites with
  | create _ hnew => exact absurd hnew hold
  | sleep _ hself => exact absurd hself hne
  | recalcular hself => exact absurd hself hne
  | wake htick => exact absurd htick ha
  | charge htick => exact absurd htick ha
  | expire htick => exact absurd htick ha
  | _ => rfl

theorem clock_tick (hi : s.Inv) (hstep : Sched.step s .tick = some s') :
    s'.clock = s.clock + 1 := by
  obtain ⟨u, hu, -⟩ := step_refines hi hstep
  obtain ⟨-, -, rfl⟩ := step_tick hu hstep
  exact (userDispatcher_lists hi.prio u).1.trans (tickWake_clock hi.prio)

/-- A tick wakes the thread when its time has come. -/
theorem Asleep.tick (h : Asleep s t w) (hs : Settled s) (hstep : Sched.step s .tick = some s') :
    (s.clock + 1 < w → Asleep s' t w) ∧
      (w ≤ s.clock + 1 → t ∉ s'.sleepThrList ∧ t ∈ s'.current) := by
  obtain ⟨u, hu, -⟩ := step_refines hs.inv hstep
  obtain ⟨hpoint, -, rfl⟩ := step_tick hu hstep
  have hp := hs.inv.prio
  obtain ⟨-, hsleep, -⟩ := userDispatcher_lists hp u
  obtain ⟨hactive, hleft⟩ := tickWake_queues (Or.inr hs.sleepers_nodup)
  have hne : t ≠ u := by
    intro he
    subst he
    exact (running_not_parked hs.inv hs.parked hu).1 h.mem
  rw [hleft] at hsleep
  refine ⟨fun hlt => ⟨?_, ?_⟩, fun hle => ⟨?_, ?_⟩⟩
  · rw [hsleep, List.mem_filter]
    exact ⟨h.mem, by simp [due, h.wake, hlt]⟩
  · rw [userDispatcher_thr hp hne, ← h.wake]
    congr 1
    apply wakeSleepers_sleeping s.sleepThrList { s with clock := s.clock + 1 } []
    simp [slept, h.wake, hlt]
  · rw [hsleep, List.mem_filter]
    simp [due, h.wake, hle]
  · -- the thread is filed under its priority, and `active_rq` is not exchanged
    have hwoken : t ∈ s.tickWake.activeRq.threads := by
      have hrange : 0 ≤ s.prio t ∧ s.prio t ≤ 14 := hp t
      refine mem_threads.mpr ⟨(s.prio t).toNat, ?_, ?_⟩
      · show (s.prio t).toNat < 15
        omega
      · rw [Int.toNat_of_nonneg hrange.1, hactive, List.mem_append]
        right
        simp [dueAt, h.mem, due, h.wake, hle]
    by_cases hq : 0 < (s.tickWake.thr u).quantum - 1
    · obtain ⟨hcurrent, -⟩ := userDispatcher_goes_on hp hu hq
      rw [hcurrent.mem_iff]
      exact List.mem_cons_of_mem _ hwoken
    · have hexpires := userDispatcher_expires hp (Int.not_lt.mp hq) (List.ne_nil_of_mem hwoken)
      obtain ⟨hcurrent, -⟩ := hexpires
      rw [hcurrent]
      exact hwoken

/-- What `sthread_user_sleep` leaves if it sleeps. -/
theorem asleep_of_call (ht : s.activeThr = some t) {time : Int}
    (htime : (10 * time).tdiv clockTick ≠ 0) (h : step s (.call (.sleep time)) = some s') :
    s'.clock = s.clock ∧ Asleep s' t (s.clock + (10 * time).tdiv clockTick) := by
  have hcall : some (s.userSleep t time) = some s' := (step_call ht h).2
  rw [userSleep_blocks htime] at hcall
  obtain ⟨a, e, heq, -⟩ := dispatches_bloquear (s.sleepBlocked t ((10 * time).tdiv clockTick)) t
    .sleep
  rw [← Option.some.inj hcall, heq]
  refine ⟨rfl, List.mem_append_right _ (List.mem_singleton_self t), ?_⟩
  show (Function.update s.thr t _ t).wakeTime = _
  rw [Function.update_self]

/-- **A thread sleeps its time.**  From the step in which a thread calls `sthread_user_sleep` with
a time of at least one tick, or of at most minus one, in every run, the thread neither runs nor is
ready before the last of its ticks; with this tick it is woken, and runs or is in `active_rq`.  A
call of less than one tick returns at once. -/
theorem sleep_ends_on_time {s₀ s₁ : Sched} (hreach : Reaches step userInit s₀)
    (ht : s₀.activeThr = some t) {time : Int} (htime : (10 * time).tdiv clockTick ≠ 0)
    (hsleep : step s₀ (.call (.sleep time)) = some s₁) {tr : List (Sched × Act)}
    (hrun : Run step s₁ tr s) :
    (ticksIn tr < sleepTicks time →
      t ∈ s.sleepThrList ∧ t ∉ s.current ∧ t ∉ s.expiredRq.threads) ∧
    (ticksIn tr + 1 = sleepTicks time → ∀ s', step s .tick = some s' →
      t ∉ s'.sleepThrList ∧ t ∈ s'.current) := by
  have hsettled : Settled s₁ := by
    obtain ⟨tr₀, htr₀⟩ := hreach
    exact (Settled.init.run htr₀).step hsleep
  obtain ⟨hclock, hasleep⟩ := asleep_of_call ht htime hsleep
  rw [← hclock] at hasleep
  obtain ⟨hset, hcl, hsl⟩ := hrun.history_of (fun tr s => Settled s ∧
      s.clock = s₁.clock + ticksIn tr ∧
      (ticksIn tr < sleepTicks time → Asleep s t (s₁.clock + (10 * time).tdiv clockTick)))
    (fun _ _ => True) ⟨hsettled, by simp [ticksIn], fun _ => hasleep⟩ (by
      intro tr s a s' hs _ hstep
      obtain ⟨hset, hcl, hsl⟩ := hs
      have hticks : ticksIn (tr ++ [(s, a)]) = ticksIn tr + if a = .tick then 1 else 0 := by
        simp [ticksIn, List.countP_append, List.countP_cons]
      refine ⟨hset.step hstep, ?_⟩
      by_cases ha : a = .tick
      · subst ha
        rw [hticks, if_pos rfl]
        refine ⟨?_, fun hlt => ?_⟩
        · rw [clock_tick hset.inv hstep, hcl]
          omega
        · apply ((hsl (by omega)).tick hset hstep).1
          rw [sleepTicks] at hlt
          omega
      · rw [hticks, if_neg ha]
        refine ⟨(slumbers_step hset.inv ha hstep).clock.trans hcl, fun hlt => ?_⟩
        exact (hsl hlt).step hset ha hstep) fun _ _ => trivial
  refine ⟨fun hlt => ?_, fun hlast s' hstep => ?_⟩
  · have hmem := (hsl hlt).mem
    obtain ⟨hcurrent, hexpired, -⟩ := hset.asleep hmem
    exact ⟨hmem, hcurrent, hexpired⟩
  · apply ((hsl (by omega)).tick hset hstep).2
    rw [sleepTicks] at hlast
    omega

/-- The main thread sleeps for ten ticks, in which another thread uses up a quantum. -/
theorem sleep_ends_on_time_ten_ticks : ∃ s s', step s .tick = some s' ∧
    1 ∈ s.sleepThrList ∧ 1 ∉ s'.sleepThrList ∧ 1 ∈ s'.current := by
  have hreach : Reaches step userInit (userInit.userCreateP 1 7) :=
    reaches_runActs [.call (.create 7)] rfl
  have htrace : (runTrace step ((userInit.userCreateP 1 7).userSleep 1 100)
      [.resume, .tick, .tick, .tick, .tick, .tick, .resume, .tick, .tick, .tick, .tick]).map
        (fun r => (ticksIn r.1, (step r.2 .tick).isSome)) = some (9, true) := by
    decide
  obtain ⟨⟨tr, s⟩, htr, hfacts⟩ := Option.map_eq_some_iff.mp htrace
  obtain ⟨hticks, hstep⟩ := Prod.mk.inj hfacts
  obtain ⟨s', hs'⟩ := Option.isSome_iff_exists.mp hstep
  have hrun : Run step ((userInit.userCreateP 1 7).userSleep 1 100) tr s :=
    run_of_runTrace _ .nil htr
  have htime : (10 * 100 : Int).tdiv clockTick ≠ 0 := by decide
  have hten : sleepTicks 100 = 10 := by decide
  obtain ⟨hbefore, hlast⟩ := sleep_ends_on_time hreach rfl htime rfl hrun
  rw [hten] at hbefore hlast
  have hticks : ticksIn tr = 9 := hticks
  obtain ⟨hout, hcurrent⟩ := hlast (by omega) s' hs'
  exact ⟨s, s', hs', (hbefore (by omega)).1, hout, hcurrent⟩

end

end Sthreads.User
