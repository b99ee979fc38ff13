/-
Threads that use monitors and yield, and nothing else of the library.

None of their calls fails.  They give the processor up at a switch point of a yield, of a tick or of
a monitor's function, so when no thread at all has the processor, each of them waits for a monitor:
it is in `sthread_monitor_enter` or in `sthread_monitor_wait`.
-/
import Sthreads.Proofs.User.LastThread
import Sthreads.Proofs.User.NextThread
import Sthreads.Proofs.User.Sections

namespace Sthreads.User

open Sched

/-- The calls of such a thread, with the section that it is in after the call. -/
inductive Uses : Call → Section → Prop
  | yield (x : Section) : Uses .yield x
  | enter (m : Nat) : Uses (.monitorEnter m) (.comes m)
  | wait (m : Nat) : Uses (.monitorWait m) (.comes m)
  | signal (m : Nat) (x : Section) : Uses (.monitorSignal m) x
  | exit (m : Nat) (x : Section) : Uses (.monitorExit m) x

/-- A switch point of such a thread, in this section. -/
structure Point.Within (p : Point) (x : Section) : Prop where
  needs : ∀ l, p.needs = some l → ∃ m, l = .monitor m ∧ x = .comes m
  sleep : p ≠ .sleep
  join : ∀ u, p ≠ .join u
  exited : p ≠ .exited

variable {s s₁ s' : Sched} {t : Tid} {c : Call} {a : Act} {x : Section}

namespace Point.Within

theorem of_needs_nothing {p : Point} (hneeds : p.needs = none) (hsleep : p ≠ .sleep)
    (hjoin : ∀ u, p ≠ .join u) (hexited : p ≠ .exited) (x : Section) : p.Within x where
  needs l hl := by rw [hneeds] at hl; cases hl
  sleep := hsleep
  join := hjoin
  exited := hexited

theorem user (x : Section) : Point.user.Within x :=
  of_needs_nothing rfl (by simp) (by simp) (by simp) x

theorem start (x : Section) : Point.start.Within x :=
  of_needs_nothing rfl (by simp) (by simp) (by simp) x

theorem tick (x : Section) : Point.tick.Within x :=
  of_needs_nothing rfl (by simp) (by simp) (by simp) x

theorem yield (x : Section) : Point.yield.Within x :=
  of_needs_nothing rfl (by simp) (by simp) (by simp) x

theorem unlock (x : Section) : Point.unlock.Within x :=
  of_needs_nothing rfl (by simp) (by simp) (by simp) x

theorem of_needs {p : Point} {m : Nat} (hneeds : p.needs = some (.monitor m)) :
    p.Within (.comes m) where
  needs l hl := ⟨m, Option.some.inj (hl.symm.trans hneeds), rfl⟩
  sleep hp := by rw [hp] at hneeds; cases hneeds
  join u hp := by rw [hp] at hneeds; cases hneeds
  exited hp := by rw [hp] at hneeds; cases hneeds

end Point.Within

/-! ### No call fails -/

theorem userMutexLock_isSome (hi : s.Inv) (l : Lock) : ∃ s', s.userMutexLock t l = some s' := by
  by_cases hfree : (s.locks l).thr = none
  · exact ⟨_, userMutexLock_free (hi.ok.clear l) hfree⟩
  · exact ⟨_, userMutexLock_taken (hi.ok.clear l) hfree⟩

theorem userMutexUnlock_isSome (hi : s.Inv) (l : Lock) (p : Point) :
    ∃ r, s.userMutexUnlock t l p = some r := by
  by_cases hown : (s.locks l).thr = some t
  · rw [userMutexUnlock_owner (hi.ok.clear l) hown]
    split
    · exact ⟨_, rfl⟩
    · exact ⟨_, rfl⟩
  · rw [userMutexUnlock, if_pos hown]
    exact ⟨_, rfl⟩

theorem call_isSome (hi : s.Inv) (hc : Uses c x) : ∃ s', s.call t c = some s' := by
  cases hc with
  | yield x => exact ⟨_, rfl⟩
  | enter m => exact userMutexLock_isSome hi _
  | exit m x =>
      obtain ⟨r, hr⟩ := userMutexUnlock_isSome (t := t) hi (.monitor m) .unlock
      exact ⟨r.1, by rw [call, userMonitorExit, hr]; rfl⟩
  | wait m =>
      show ∃ s', s.userMonitorWait t m = some s'
      by_cases hown : (s.locks (.monitor m)).thr = some t
      · rw [userMonitorWait_owner (hi.ok.clear _) hown]
        split
        · exact ⟨_, rfl⟩
        · exact ⟨_, rfl⟩
      · rw [userMonitorWait, if_pos hown]
        exact ⟨_, rfl⟩
  | signal m x =>
      show ∃ s', s.userMonitorSignal t m = some s'
      by_cases hown : (s.locks (.monitor m)).thr = some t
      · cases hmon : s.mons m with
        | nil => exact ⟨_, userMonitorSignal_nil (hi.ok.clear _) hown hmon⟩
        | cons u rest => exact ⟨_, userMonitorSignal_cons (hi.ok.clear _) hown hmon⟩
      · rw [userMonitorSignal, if_pos hown]
        exact ⟨_, rfl⟩

/-! ### Switch points -/

/-- The switch point of a thread that gives the processor up. -/
theorem Sched.Dispatches.point_self {p : Point} (hd : Dispatches s₁ s' t p) : s'.point t = p := by
  rw [hd.point, Function.update_self]

theorem point_granted (hp : s.PrioInRange) (l : Lock) : (s.granted l).point = s.point :=
  congrArg Places.point (granted_spec hp l).1

theorem within_call (hi : s.Inv) (hu : s.point t = .user) (hc : Uses c x)
    (h : s.call t c = some s') : (s'.point t).Within x := by
  cases hc with
  | yield x =>
      rw [← Option.some.inj h, (dispatches_userYield hi.prio t).point_self]
      exact .yield x
  | enter m =>
      have h : s.userMutexLock t (.monitor m) = some s' := h
      by_cases hfree : (s.locks (.monitor m)).thr = none
      · rw [userMutexLock_free (hi.ok.clear _) hfree] at h
        rw [← Option.some.inj h]
        show (s.point t).Within _
        rw [hu]
        exact .user _
      · rw [userMutexLock_taken (hi.ok.clear _) hfree] at h
        rw [← Option.some.inj h, (dispatches_bloquear _ t _).point_self]
        exact .of_needs rfl
  | exit m x =>
      obtain ⟨r, hr, rfl⟩ := Option.map_eq_some_iff.mp h
      by_cases hown : (s.locks (.monitor m)).thr = some t
      · rw [userMutexUnlock_owner (hi.ok.clear _) hown] at hr
        split at hr
        · rw [← Option.some.inj hr]
          show (Sched.point _ t).Within x
          rw [(dispatches_granted hi.prio t _ _).point_self]
          exact .unlock x
        · rw [← Option.some.inj hr]
          show ((s.granted _).point t).Within x
          rw [point_granted hi.prio, hu]
          exact .user x
      · rw [userMutexUnlock, if_pos hown] at hr
        rw [← Option.some.inj hr, hu]
        exact .user x
  | wait m =>
      have h : s.userMonitorWait t m = some s' := h
      by_cases hown : (s.locks (.monitor m)).thr = some t
      · rw [userMonitorWait_owner (hi.ok.clear _) hown] at h
        split at h
        · rw [← Option.some.inj h,
            (dispatches_granted (hi.prio.registered t m) t _ _).point_self]
          exact .of_needs rfl
        · rw [← Option.some.inj h, waitBlock, (dispatches_bloquear _ t _).point_self]
          exact .of_needs rfl
      · rw [userMonitorWait, if_pos hown] at h
        rw [← Option.some.inj h, hu]
        exact .user _
  | signal m x =>
      have h : s.userMonitorSignal t m = some s' := h
      have hpoint : s'.point = s.point := by
        by_cases hown : (s.locks (.monitor m)).thr = some t
        · cases hmon : s.mons m with
          | nil =>
              rw [userMonitorSignal_nil (hi.ok.clear _) hown hmon] at h
              rw [← Option.some.inj h]
          | cons u rest =>
              rw [userMonitorSignal_cons (hi.ok.clear _) hown hmon] at h
              rw [← Option.some.inj h]
              rfl
        · rw [userMonitorSignal, if_pos hown] at h
          rw [← Option.some.inj h]
      rw [hpoint, hu]
      exact .user x

theorem within_tick (hi : s.Inv) (ht : s.activeThr = some t) (h : step s .tick = some s')
    (x : Section) : (s'.point t).Within x := by
  obtain ⟨hu, -, rfl⟩ := step_tick ht h
  obtain ⟨s₁, -, -, hframe, -, heq | hd | hd⟩ := userDispatcher_spec hi.prio t
  · rw [heq, hframe.point, hu]
    exact .user x
  · rw [hd.point_self]
    exact .tick x
  · rw [hd.point_self]
    exact .tick x

theorem within_resume (ht : s.activeThr = some t) (h : step s .resume = some s')
    (hx : (s.point t).Within x) : (s'.point t).Within x := by
  have hres : s.resume t = some s' := by simpa [step, ht] using h
  obtain ⟨m, hp, rfl⟩ | ⟨-, -, v, r, rfl, -⟩ := resume_cases hres
  · obtain ⟨m', hm, rfl⟩ := hx.needs (.monitor m) (by rw [hp]; rfl)
    obtain rfl : m = m' := Lock.monitor.inj hm
    rw [waitBlock, (dispatches_bloquear _ t _).point_self]
    exact .of_needs rfl
  · show (Function.update s.point t .user t).Within x
    rw [Function.update_self]
    exact .user x

/-! ### When no thread has the processor -/

/-- The processor is left without a thread only when none is ready. -/
def ReadyRuns (s : Sched) : Prop := s.activeThr = none → s.ready = []

theorem readyRuns_step (hi : s.Inv) (h : step s a = some s') : ReadyRuns s' := by
  intro hnone
  obtain ⟨t, ht, -⟩ := step_refines hi h
  cases hb : blocks s t a with
  | false => exact absurd hnone (step_runs hi ht hb h).activeThr
  | true =>
      have hblk := step_blocks hi ht hb h
      have hpool : pool s t a = [] := List.head?_eq_none_iff.mp (hblk.activeThr.symm.trans hnone)
      rw [hblk.ready, hpool]
      rfl

end Sthreads.User
