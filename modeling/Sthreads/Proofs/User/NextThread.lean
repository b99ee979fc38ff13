/-
Who runs next, and whether anybody does.

`blocks` says that a step gives the processor up with interrupts off, and `pool` what
is ready at that moment, best thread first; both are read off the state before the
step.  `step_blocks` and `step_runs` say the rest: a step that blocks dispatches the
head of the pool, any other step leaves a thread on the processor.

The runqueues can both be empty when a thread blocks.  `sthread_user_exit` tests for
this; the other functions dequeue `NULL`, and the processor is lost although a
sleeping thread would have been woken by a tick.  `thread_to_run_iff` says exactly when.
-/
import Sthreads.Proofs.User.MutexSafety

namespace Sthreads.User

open Sched Runqueue

/-- The step gives the processor up with interrupts off. -/
def blocks (s : Sched) (t : Tid) : Act → Bool
  | .call (.exit _) => true
  | .call .yield => true
  | .call (.join u) => !s.zombieThrList.contains u && s.joinFinds t u
  | .call (.sleep time) => (10 * time).tdiv clockTick != 0
  | .call (.mutexLock n) => (s.locks (.mutex n)).thr.isSome
  | .call (.monitorEnter m) => (s.locks (.monitor m)).thr.isSome
  | .call (.monitorWait m) =>
      (s.locks (.monitor m)).thr == some t && !(s.registered t m).preempts t (.monitor m)
  | .resume => match s.point t with
      | .unlockInWait _ => true
      | _ => false
  | _ => false

/-- The threads that are ready when the step gives the processor up, best first. -/
def pool (s : Sched) (t : Tid) : Act → List Tid
  | .call (.exit ret) => (s.exitLists t ret).ready
  | .call .yield => ((s.recalcularThr t).inserirActive t).ready
  | .call (.monitorWait m) => ((s.registered t m).granted (.monitor m)).ready
  | _ => s.ready

/-- The step makes its caller a sleeper. -/
def sleeps : Act → Bool
  | .call (.sleep _) => true
  | _ => false

/-- What a step that blocks does. -/
structure Blocked (s : Sched) (t : Tid) (a : Act) (s' : Sched) : Prop where
  activeThr : s'.activeThr = (pool s t a).head?
  ready : s'.ready = (pool s t a).tail
  level : s'.level = .high
  sleepThrList : s'.sleepThrList = if sleeps a then s.sleepThrList ++ [t] else s.sleepThrList
  point : ∃ p, s'.point = Function.update s.point t p ∧ p ≠ .user ∧ p ≠ .tick ∧ p ≠ .unlock

variable {s s' s₁ : Sched} {t : Tid} {a : Act}

/-- The dispatch a step that blocks ends in. -/
theorem blocked_of_dispatches {p : Point} (hd : Dispatches s₁ s' t p)
    (hready : s₁.ready = pool s t a) (hlevel : s₁.level = .high)
    (hsleep : s₁.sleepThrList = if sleeps a then s.sleepThrList ++ [t] else s.sleepThrList)
    (hpoint : s₁.point = s.point) (hp : p ≠ .user ∧ p ≠ .tick ∧ p ≠ .unlock) :
    Blocked s t a s' := by
  refine ⟨?_, ?_, ?_, ?_, p, ?_, hp⟩
  · rw [hd.activeThr, hready]
  · rw [hd.ready, hready]
  · rw [hd.level, hlevel]
  · rw [hd.sleepThrList, hsleep]
  · rw [hd.point, hpoint]

theorem blocked_bloquear {p : Point} (hready : s₁.ready = pool s t a) (hlevel : s₁.level = .high)
    (hsleep : s₁.sleepThrList = if sleeps a then s.sleepThrList ++ [t] else s.sleepThrList)
    (hpoint : s₁.point = s.point) (hp : p ≠ .user ∧ p ≠ .tick ∧ p ≠ .unlock) :
    Blocked s t a (s₁.bloquear t p) :=
  blocked_of_dispatches (dispatches_bloquear s₁ t p) hready hlevel hsleep hpoint hp

/-! ### Steps that block -/

theorem blocked_userMutexLock (hi : s.Inv) {l : Lock} (htaken : (s.locks l).thr.isSome = true)
    (hpool : pool s t a = s.ready) (hsleep : sleeps a = false)
    (h : s.userMutexLock t l = some s') : Blocked s t a s' := by
  rw [userMutexLock_taken (hi.ok.clear l) (Option.isSome_iff_ne_none.mp htaken)] at h
  cases h
  exact blocked_bloquear hpool.symm rfl (by rw [hsleep]; rfl) rfl (by simp)

theorem blocked_call (hi : s.Inv) {c : Call} (hb : blocks s t (.call c) = true)
    (h : s.call t c = some s') : Blocked s t (.call c) s' := by
  cases c with
  | create | nice | mutexUnlock | monitorExit | monitorSignal => simp [blocks] at hb
  | exit ret =>
      obtain ⟨-, -, hf, hlevel, hsleep⟩ := exitLists_spec hi.prio t ret
      change s.userExit t ret = some s' at h
      unfold userExit at h
      dsimp only at h
      split at h <;> cases h
      exact blocked_bloquear rfl hlevel hsleep hf.point (by simp)
  | yield =>
      cases h
      exact blocked_of_dispatches (dispatches_userYield hi.prio t) rfl rfl rfl rfl (by simp)
  | join u =>
      simp only [blocks, Bool.and_eq_true, Bool.not_eq_true'] at hb
      rw [call] at h
      split at h <;> cases h
      unfold userJoin
      dsimp only
      rw [if_neg (by rw [show (s.splx .high).zombieThrList = s.zombieThrList from rfl, hb.1]; simp)]
      rw [if_pos (show (s.splx .high).joinFinds t u = true from hb.2)]
      exact blocked_bloquear rfl rfl rfl rfl (by simp)
  | sleep time =>
      cases h
      have hn : ¬ (10 * time).tdiv clockTick = 0 := by simpa [blocks] using hb
      unfold userSleep
      dsimp only
      rw [if_neg hn]
      exact blocked_bloquear rfl rfl rfl rfl (by simp)
  | mutexLock n => exact blocked_userMutexLock hi hb rfl rfl h
  | monitorEnter m => exact blocked_userMutexLock hi hb rfl rfl h
  | monitorWait m =>
      simp only [blocks, Bool.and_eq_true, beq_iff_eq, Bool.not_eq_true'] at hb
      obtain ⟨hpl, -, -, hsleep⟩ := granted_spec (hi.prio.registered t m) (.monitor m)
      change s.userMonitorWait t m = some s' at h
      rw [userMonitorWait_owner (hi.ok.clear _) hb.1, if_neg (by rw [hb.2]; simp)] at h
      cases h
      exact blocked_bloquear rfl rfl hsleep (congrArg Places.point hpl) (by simp)

theorem step_blocks (hi : s.Inv) (ht : s.activeThr = some t) (hb : blocks s t a = true)
    (h : step s a = some s') : Blocked s t a s' := by
  cases a with
  | call c => exact blocked_call hi hb (step_call ht h).2
  | tick => simp [blocks] at hb
  | resume =>
      have hres : s.resume t = some s' := by simpa [step, ht] using h
      obtain ⟨m, -, rfl⟩ | ⟨-, hne, -⟩ := resume_cases hres
      · exact blocked_bloquear rfl rfl rfl rfl (by simp)
      · cases hp : s.point t with
        | unlockInWait m => exact absurd hp (hne m)
        | _ => simp [blocks, hp] at hb

/-! ### Steps that do not block -/

/-- What a step that does not block leaves: a thread on the processor, and the interrupt level
as it was or low. -/
structure Runs (s : Sched) (t : Tid) (s' : Sched) : Prop where
  activeThr : s'.activeThr ≠ none
  level : s'.level = .low ∨
    s'.level = s.level ∧ (s.point t = .user ∨ s.point t = .tick ∨ s.point t = .unlock)

theorem runs_of_same (ht : s.activeThr = some t) (hu : s.point t = .user)
    (hrun : s'.activeThr = s.activeThr) (hlevel : s'.level = .low ∨ s'.level = s.level) :
    Runs s t s' :=
  ⟨by rw [hrun, ht]; simp, hlevel.imp_right fun h => ⟨h, Or.inl hu⟩⟩

theorem runs_of_dispatches {p : Point} (hu : s.point t = .user) (hd : Dispatches s₁ s' t p)
    (hne : s₁.ready ≠ []) (hlevel : s₁.level = s.level) : Runs s t s' := by
  refine ⟨?_, Or.inr ⟨by rw [hd.level, hlevel], Or.inl hu⟩⟩
  rw [hd.activeThr]
  exact fun hc => hne (List.head?_eq_none_iff.mp hc)

/-- A release that preempts its caller filed both threads before it dequeued one. -/
theorem runs_of_preempted (hp : s₁.PrioInRange) (hu : s.point t = .user)
    (hlevel : s₁.level = s.level) (l : Lock) (p : Point) :
    Runs s t (((s₁.granted l).inserirActive t).retirarActive.sthreadSwitch t p) :=
  runs_of_dispatches hu (dispatches_granted hp t l p)
    (ready_inserirActive_ne_nil (granted_prioInRange hp l) t)
    ((granted_spec hp l).2.2.1.trans hlevel)

theorem runs_userMutexUnlock (hi : s.Inv) (ht : s.activeThr = some t) (hu : s.point t = .user)
    {l : Lock} {r : Sched × Bool} (h : s.userMutexUnlock t l .unlock = some r) : Runs s t r.1 := by
  by_cases hown : (s.locks l).thr = some t
  · obtain ⟨hpl, -, hlevel, -⟩ := granted_spec hi.prio l
    rw [userMutexUnlock_owner (hi.ok.clear l) hown] at h
    split at h <;> cases h
    · exact runs_of_preempted hi.prio hu rfl l .unlock
    · exact runs_of_same ht hu (congrArg Places.run hpl) (Or.inr hlevel)
  · rw [userMutexUnlock, if_pos hown] at h
    cases h
    exact runs_of_same ht hu rfl (Or.inr rfl)

theorem runs_userMutexLock (hi : s.Inv) (ht : s.activeThr = some t) (hu : s.point t = .user)
    {l : Lock} (hfree : (s.locks l).thr.isSome = false) (h : s.userMutexLock t l = some s') :
    Runs s t s' := by
  rw [userMutexLock_free (hi.ok.clear l) (by simpa using hfree)] at h
  cases h
  exact runs_of_same ht hu rfl (Or.inr rfl)

theorem runs_call (hi : s.Inv) (ht : s.activeThr = some t) (hu : s.point t = .user) {c : Call}
    (hb : blocks s t (.call c) = false) (h : s.call t c = some s') : Runs s t s' := by
  cases c with
  | exit | yield => simp [blocks] at hb
  | create priority =>
      cases h
      exact runs_of_same ht hu rfl (Or.inl rfl)
  | nice n =>
      cases h
      exact runs_of_same ht hu rfl (Or.inr rfl)
  | join u =>
      rw [call] at h
      split at h <;> cases h
      unfold userJoin
      dsimp only
      split
      · exact runs_of_same ht hu rfl (Or.inl rfl)
      · rename_i hz
        split
        · rename_i hf
          change ¬ s.zombieThrList.contains u = true at hz
          change s.joinFinds t u = true at hf
          rw [blocks, hf, Bool.eq_false_iff.mpr hz] at hb
          cases hb
        · exact runs_of_same ht hu rfl (Or.inl rfl)
  | sleep time =>
      cases h
      have hn : (10 * time).tdiv clockTick = 0 := by simpa [blocks] using hb
      unfold userSleep
      dsimp only
      rw [if_pos hn]
      exact runs_of_same ht hu rfl (Or.inl rfl)
  | mutexLock n => exact runs_userMutexLock hi ht hu hb h
  | monitorEnter m => exact runs_userMutexLock hi ht hu hb h
  | mutexUnlock n =>
      obtain ⟨r, hr, rfl⟩ := Option.map_eq_some_iff.mp h
      exact runs_userMutexUnlock hi ht hu hr
  | monitorExit m =>
      obtain ⟨r, hr, rfl⟩ := Option.map_eq_some_iff.mp h
      exact runs_userMutexUnlock hi ht hu hr
  | monitorWait m =>
      change s.userMonitorWait t m = some s' at h
      by_cases hown : (s.locks (.monitor m)).thr = some t
      · have hpre : (s.registered t m).preempts t (.monitor m) = true := by
          simpa [blocks, hown] using hb
        rw [userMonitorWait_owner (hi.ok.clear _) hown, if_pos hpre] at h
        cases h
        exact runs_of_preempted (hi.prio.registered t m) hu rfl _ _
      · rw [userMonitorWait, if_pos hown] at h
        cases h
        exact runs_of_same ht hu rfl (Or.inr rfl)
  | monitorSignal m =>
      change s.userMonitorSignal t m = some s' at h
      by_cases hown : (s.locks (.monitor m)).thr = some t
      · cases hmon : s.mons m with
        | nil =>
            rw [userMonitorSignal_nil (hi.ok.clear _) hown hmon] at h
            cases h
            exact runs_of_same ht hu rfl (Or.inr rfl)
        | cons u rest =>
            rw [userMonitorSignal_cons (hi.ok.clear _) hown hmon] at h
            cases h
            exact runs_of_same ht hu rfl (Or.inr rfl)
      · rw [userMonitorSignal, if_pos hown] at h
        cases h
        exact runs_of_same ht hu rfl (Or.inr rfl)

theorem step_runs (hi : s.Inv) (ht : s.activeThr = some t) (hb : blocks s t a = false)
    (h : step s a = some s') : Runs s t s' := by
  cases a with
  | call c =>
      obtain ⟨hu, hc⟩ := step_call ht h
      exact runs_call hi ht hu hb hc
  | tick =>
      simp only [step, ht] at h
      split at h
      · rename_i hu
        cases h
        obtain ⟨s₁, -, hp, hf, hlevel, heq | hd | hd⟩ := userDispatcher_spec hi.prio t
        · rw [heq]
          exact runs_of_same ht hu.1 hf.activeThr (Or.inr hlevel)
        · exact runs_of_dispatches hu.1 hd (ready_inserirActive_ne_nil hp t) hlevel
        · exact runs_of_dispatches hu.1 hd (ready_inserirExpired_ne_nil hp t) hlevel
      · cases h
  | resume =>
      have hres : s.resume t = some s' := by simpa [step, ht] using h
      obtain ⟨m, hp, -⟩ | ⟨-, -, v, r, rfl, hv⟩ := resume_cases hres
      · simp [blocks, hp] at hb
      · exact ⟨by rw [ht]; simp, hv.imp_right fun hw => ⟨hw.1, Or.inr hw.2⟩⟩

/-! ### A thread to run -/

/-- The processor is without a thread only when nobody is ready and nobody sleeps. -/
def ThreadToRun (s : Sched) : Prop :=
  s.activeThr = none → s.ready = [] ∧ s.sleepThrList = []

/-- The step takes its caller off the processor and makes nobody ready. -/
def parks (s : Sched) (t : Tid) : Act → Bool
  | .call (.exit _) => false
  | .call .yield => false
  | .call (.monitorWait m) =>
      (s.locks (.monitor m)).thr == some t && (s.locks (.monitor m)).queue.isEmpty
  | a => blocks s t a

/-- The step does not park the last thread that could run while somebody sleeps, the caller of
`sthread_user_sleep` included. -/
def NotLastReady (s : Sched) (a : Act) : Prop :=
  ∀ t, s.activeThr = some t → parks s t a = true → s.ready = [] →
    s.sleepThrList = [] ∧ sleeps a = false

theorem blocks_of_parks (h : parks s t a = true) : blocks s t a = true := by
  unfold parks at h
  split at h
  · cases h
  · cases h
  · rename_i m
    simp only [Bool.and_eq_true, beq_iff_eq, List.isEmpty_iff] at h
    have hnp : (s.registered t m).preempts t (.monitor m) = false := by
      unfold preempts
      rw [show ((s.registered t m).locks (.monitor m)).queue = [] from h.2]
      rfl
    simp [blocks, h.1, hnp]
  · exact h

theorem pool_of_parks (h : parks s t a = true) : pool s t a = s.ready := by
  unfold parks at h
  split at h
  · cases h
  · cases h
  · rename_i m
    simp only [Bool.and_eq_true, List.isEmpty_iff] at h
    have hq : ((s.registered t m).locks (.monitor m)).queue = [] := h.2
    have hgr : (s.registered t m).granted (.monitor m) =
        (s.registered t m).setLock (.monitor m) ((s.registered t m).locks (.monitor m)).handed := by
      unfold granted
      rw [hq]
    rw [pool, hgr]
    rfl
  · unfold pool
    split <;> simp_all

/-- Only a step that parks its caller can find both runqueues empty. -/
theorem parks_of_pool (hi : s.Inv) (ht : s.activeThr = some t) (hb : blocks s t a = true)
    (h : step s a = some s') (hpool : pool s t a = []) : parks s t a = true := by
  unfold parks
  split
  · -- `sthread_user_exit` tests the runqueues itself
    rename_i ret
    have hc : s.userExit t ret = some s' := (step_call ht h).2
    unfold userExit at hc
    dsimp only at hc
    obtain ⟨hact, hexp⟩ := List.append_eq_nil_iff.mp hpool
    rw [if_pos (by rw [rqVazia_iff.mpr hact, rqVazia_iff.mpr hexp]; rfl)] at hc
    cases hc
  · exact absurd hpool (ready_inserirActive_ne_nil (hi.prio.recalcularThr t) t)
  · rename_i m
    simp only [blocks, Bool.and_eq_true] at hb
    rw [hb.1, Bool.true_and]
    cases hq : (s.locks (.monitor m)).queue with
    | nil => rfl
    | cons u rest =>
        have hgr : (s.registered t m).granted (.monitor m) = ({ (s.registered t m).setLock
            (.monitor m) ((s.registered t m).locks (.monitor m)).handed with
            blockedList := (s.registered t m).blockedList.filter (· != u) } : Sched).inserirActive
              u := by
          unfold granted
          rw [show ((s.registered t m).locks (.monitor m)).queue = u :: rest from hq]
        rw [pool, hgr] at hpool
        exact absurd hpool (ready_inserirActive_ne_nil (hi.prio.registered t m) u)
  · exact hb

/-- All along a run the processor has a thread, or nobody is left to run or to be woken, if and
only if no step parks the last thread that could run while somebody sleeps. -/
theorem thread_to_run_iff {tr : List (Sched × Act)} {s : Sched} (h : Run step userInit tr s) :
    (∀ x ∈ visited tr s, ThreadToRun x) ↔ ∀ p ∈ tr, NotLastReady p.1 p.2 := by
  refine h.visited_iff (fun x => x.Inv ∧ ThreadToRun x) ⟨Inv.init, by simp [ThreadToRun,
    userInit]⟩ (fun x hx => hx.2) ?_ ?_
  · rintro x a x' ⟨hi, -⟩ hok hs
    refine ⟨hi.step hs, fun hnone => ?_⟩
    obtain ⟨t, ht, -⟩ := step_refines hi hs
    cases hb : blocks x t a with
    | false => exact absurd hnone (step_runs hi ht hb hs).activeThr
    | true =>
        have hblk := step_blocks hi ht hb hs
        have hpool : pool x t a = [] := List.head?_eq_none_iff.mp (hblk.activeThr.symm.trans hnone)
        have hparks := parks_of_pool hi ht hb hs hpool
        obtain ⟨hsleep, hnot⟩ := hok t ht hparks ((pool_of_parks hparks).symm.trans hpool)
        refine ⟨by rw [hblk.ready, hpool]; rfl, ?_⟩
        rw [hblk.sleepThrList, hnot, hsleep]
        rfl
  · rintro x a x' ⟨hi, -⟩ hbad hs hrun
    unfold NotLastReady at hbad
    push Not at hbad
    obtain ⟨t, ht, hparks, hready, hlast⟩ := hbad
    have hblk := step_blocks hi ht (blocks_of_parks hparks) hs
    have hnone : x'.activeThr = none := by
      rw [hblk.activeThr, pool_of_parks hparks, hready]
      rfl
    have hsleep := (hrun hnone).2
    rw [hblk.sleepThrList] at hsleep
    cases hsl : sleeps a with
    | true => simp [hsl] at hsleep
    | false =>
        rw [hsl] at hsleep
        exact hlast hsleep hsl

/-- The main thread, alone, sleeps for one second: a tick would wake it, but nobody is left to
run until then. -/
theorem lone_sleeper_loses_processor :
    ∃ s, step userInit (.call (.sleep 100)) = some s ∧ s.activeThr = none ∧
      s.sleepThrList = [1] ∧ ¬ ThreadToRun s := by
  refine ⟨_, rfl, by decide, by decide, fun h => ?_⟩
  have := (h (by decide)).2
  revert this
  decide

/-- With a second thread the main thread can sleep. -/
theorem thread_to_run_iff_two_threads :
    ∃ tr s, Run step userInit tr s ∧ tr.length = 2 ∧ s.activeThr = some 2 ∧
      s.sleepThrList = [1] ∧ ∀ x ∈ visited tr s, ThreadToRun x := by
  have hrun := ((Run.nil : Run step userInit [] userInit).snoc (a := .call (.create 7)) rfl).snoc
    (a := .call (.sleep 100)) rfl
  refine ⟨_, _, hrun, rfl, by decide, by decide, (thread_to_run_iff hrun).mpr ?_⟩
  simp only [List.nil_append, List.cons_append, List.forall_mem_cons]
  refine ⟨fun t _ hp => ?_, fun t _ _ hr => ?_, by simp⟩
  · cases hp
  · revert hr
    decide

end Sthreads.User
