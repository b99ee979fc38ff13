/-
Critical sections of programs on the scheduler.

A program that brackets a section with `sthread_monitor_enter` and `sthread_monitor_exit` is in it
alone, however ticks and preemptions cut it up: whoever is past the call owns the monitor, and
whoever is still inside the call does not run.  The same holds after `sthread_monitor_wait`, also
when the call was preempted halfway.

`Section` is what a program point says about this, and `Moves` how a program that keeps to the
rules goes from one point to the next.  An atomic model of the program takes a section in one
step: at the end of a section without a signal at the latest, and with the signal otherwise.  What
such a model sees of a monitor, `seen`, changes by its operations on it.
-/
import Sthreads.Lib.MonitorView
import Sthreads.Proofs.User.LockOrder

namespace Sthreads.User

open Sched

/-- Where a thread is with respect to the monitors. -/
inductive Section
  | outside
  /-- In `monitor_enter` or `monitor_wait`, or just back from there. -/
  | comes (m : Nat)
  /-- Past a statement that only the owner executes. -/
  | inside (m : Nat)
  /-- Inside, when the atomic model has taken the section. -/
  | past (m : Nat)
  deriving DecidableEq

namespace Section

/-- The monitor of a thread's section. -/
def monitor : Section → Option Nat
  | outside => none
  | comes m => some m
  | inside m => some m
  | past m => some m

/-- The monitor that a thread owns at this point, whether it runs or not. -/
def owned : Section → Option Nat
  | inside m => some m
  | past m => some m
  | _ => none

theorem monitor_of_owned {x : Section} {m : Nat} (h : x.owned = some m) : x.monitor = some m := by
  cases x <;> simp_all [owned, monitor]

end Section

/-- How the running thread goes from one program point to the next in a step of the scheduler. -/
inductive Moves (t : Tid) : Act → Section → Section → Prop
  | quiet {a : Act} (x : Section) (ha : a.operates t = none) : Moves t a x x
  | enter (m : Nat) : Moves t (.call (.monitorEnter m)) .outside (.comes m)
  | wait {m : Nat} {x : Section} (hx : x.monitor = some m) :
      Moves t (.call (.monitorWait m)) x (.comes m)
  | signal {m : Nat} {x : Section} (hx : x.monitor = some m) :
      Moves t (.call (.monitorSignal m)) x (.past m)
  | exit {m : Nat} {x : Section} (hx : x.monitor = some m) :
      Moves t (.call (.monitorExit m)) x .outside

/-- The program points fit the monitors. -/
structure Sections (s : Sched) (sec : Tid → Section) : Prop where
  owns : ∀ t m, (sec t).owned = some m → (s.locks (.monitor m)).thr = some t
  comes : ∀ t m, sec t = .comes m →
    (s.point t).needs = some (.monitor m) ∨ (s.locks (.monitor m)).thr = some t

/-- A monitor as the atomic model sees it. -/
def seen (s : Sched) (sec : Tid → Section) (m : Nat) : Monitor Tid :=
  (lockOf s (.monitor m)).without fun t => sec t = .past m

namespace Sections

variable {s : Sched} {sec sec' : Tid → Section} {t : Tid} {m : Nat}

theorem init (h : ∀ t, sec t = .outside) : Sections userInit sec where
  owns t m ht := by simp [h, Section.owned] at ht
  comes t m ht := by simp [h] at ht

/-- A thread that runs user code in a section owns its monitor. -/
theorem owner_of_user (h : Sections s sec) (hu : s.point t = .user)
    (hsec : (sec t).monitor = some m) : (s.locks (.monitor m)).thr = some t := by
  cases hs : sec t with
  | outside => simp [hs, Section.monitor] at hsec
  | comes m' =>
      obtain rfl : m' = m := by simpa [hs, Section.monitor] using hsec
      exact (h.comes t m' hs).resolve_left (by simp [hu])
  | inside m' => exact h.owns t m (by simpa [hs, Section.monitor, Section.owned] using hsec)
  | past m' => exact h.owns t m (by simpa [hs, Section.monitor, Section.owned] using hsec)

/-- A statement of the running thread leaves it in its section, or outside. -/
theorem statement (h : Sections s sec) (hu : s.point t = .user)
    (hother : ∀ u, u ≠ t → sec' u = sec u)
    (hself : ∀ m, (sec' t).monitor = some m → (sec t).monitor = some m) : Sections s sec' where
  owns u m hm := by
    by_cases hut : u = t
    · subst hut
      exact h.owner_of_user hu (hself m (Section.monitor_of_owned hm))
    · exact h.owns u m (hother u hut ▸ hm)
  comes u m hm := by
    by_cases hut : u = t
    · subst hut
      right
      exact h.owner_of_user hu (hself m (by rw [hm]; rfl))
    · exact h.comes u m (hother u hut ▸ hm)

end Sections

variable {s s' : Sched} {sec sec' : Tid → Section} {t u : Tid} {a : Act} {m : Nat} {l : Lock}

/-! ### Who is created -/

theorem tidGen_granted (hp : s.PrioInRange) (l : Lock) : (s.granted l).tidGen = s.tidGen :=
  congrArg Places.tidGen (granted_spec hp l).1

theorem tidGen_userMutexLock (hi : s.Inv) (h : s.userMutexLock t l = some s') :
    s'.tidGen = s.tidGen := by
  by_cases hfree : (s.locks l).thr = none
  · rw [userMutexLock_free (hi.ok.clear l) hfree] at h
    rw [← Option.some.inj h]
    rfl
  · rw [userMutexLock_taken (hi.ok.clear l) hfree] at h
    rw [← Option.some.inj h]
    exact (dispatches_bloquear (s.queued t l) t (.lock l)).tidGen

theorem tidGen_userMutexUnlock (hi : s.Inv) {p : Point} {r : Sched × Bool}
    (h : s.userMutexUnlock t l p = some r) : r.1.tidGen = s.tidGen := by
  by_cases hown : (s.locks l).thr = some t
  · rw [userMutexUnlock_owner (hi.ok.clear l) hown] at h
    split at h
    · rw [← Option.some.inj h]
      exact (dispatches_granted hi.prio t l p).tidGen.trans (tidGen_granted hi.prio l)
    · rw [← Option.some.inj h]
      exact tidGen_granted hi.prio l
  · rw [userMutexUnlock, if_pos hown] at h
    rw [← Option.some.inj h]

theorem tidGen_userMonitorWait (hi : s.Inv) (h : s.userMonitorWait t m = some s') :
    s'.tidGen = s.tidGen := by
  by_cases hown : (s.locks (.monitor m)).thr = some t
  · have hgranted : ((s.registered t m).granted (.monitor m)).tidGen = s.tidGen :=
      tidGen_granted (hi.prio.registered t m) _
    rw [userMonitorWait_owner (hi.ok.clear _) hown] at h
    split at h
    · rw [← Option.some.inj h]
      exact (dispatches_granted (hi.prio.registered t m) t _ _).tidGen.trans hgranted
    · rw [← Option.some.inj h]
      exact (dispatches_bloquear _ t _).tidGen.trans hgranted
  · rw [userMonitorWait, if_pos hown] at h
    rw [← Option.some.inj h]

theorem tidGen_userMonitorSignal (hi : s.Inv) (h : s.userMonitorSignal t m = some s') :
    s'.tidGen = s.tidGen := by
  by_cases hown : (s.locks (.monitor m)).thr = some t
  · cases hmon : s.mons m with
    | nil =>
        rw [userMonitorSignal_nil (hi.ok.clear _) hown hmon] at h
        rw [← Option.some.inj h]
    | cons u rest =>
        rw [userMonitorSignal_cons (hi.ok.clear _) hown hmon] at h
        rw [← Option.some.inj h]
        rfl
  · rw [userMonitorSignal, if_pos hown] at h
    rw [← Option.some.inj h]

/-- Only `sthread_user_create_p` creates a thread. -/
theorem tidGen_call (hi : s.Inv) {c : Call} (hc : ∀ p, c ≠ .create p)
    (h : s.call t c = some s') : s'.tidGen = s.tidGen := by
  cases c with
  | create priority => exact absurd rfl (hc priority)
  | nice n =>
      rw [← Option.some.inj h]
      rfl
  | exit ret =>
      have h : s.userExit t ret = some s' := h
      unfold userExit at h
      dsimp only at h
      split at h
      · cases h
      · rw [← Option.some.inj h]
        obtain ⟨-, -, hframe, -⟩ := exitLists_spec hi.prio t ret
        exact (dispatches_bloquear _ t _).tidGen.trans hframe.tidGen
  | yield =>
      rw [← Option.some.inj h]
      exact (dispatches_userYield hi.prio t).tidGen
  | join u =>
      rw [call] at h
      split at h
      · rw [← Option.some.inj h]
        unfold userJoin
        dsimp only
        split
        · rfl
        · split
          · exact (dispatches_bloquear _ t _).tidGen
          · rfl
      · cases h
  | sleep time =>
      rw [← Option.some.inj h]
      unfold userSleep
      dsimp only
      split
      · rfl
      · exact (dispatches_bloquear _ t _).tidGen
  | mutexLock n => exact tidGen_userMutexLock hi h
  | mutexUnlock n =>
      obtain ⟨r, hr, rfl⟩ := Option.map_eq_some_iff.mp h
      exact tidGen_userMutexUnlock hi hr
  | monitorEnter m => exact tidGen_userMutexLock hi h
  | monitorExit m =>
      obtain ⟨r, hr, rfl⟩ := Option.map_eq_some_iff.mp h
      exact tidGen_userMutexUnlock hi hr
  | monitorWait m => exact tidGen_userMonitorWait hi h
  | monitorSignal m => exact tidGen_userMonitorSignal hi h

theorem tidGen_step (hi : s.Inv) (hc : ∀ p, a ≠ .call (.create p)) (h : step s a = some s') :
    s'.tidGen = s.tidGen := by
  obtain ⟨t, ht, -⟩ := step_refines hi h
  cases a with
  | call c => exact tidGen_call hi (fun p hp => hc p (by rw [hp])) (step_call ht h).2
  | tick =>
      obtain ⟨-, -, rfl⟩ := step_tick ht h
      obtain ⟨s₁, -, -, hframe, -, heq | hd | hd⟩ := userDispatcher_spec hi.prio t
      · rw [heq]
        exact hframe.tidGen
      · exact hd.tidGen.trans hframe.tidGen
      · exact hd.tidGen.trans hframe.tidGen
  | resume =>
      have hres : s.resume t = some s' := by simpa [step, ht] using h
      obtain ⟨m, -, rfl⟩ | ⟨-, -, v, r, rfl, -⟩ := resume_cases hres
      · exact (dispatches_bloquear _ t _).tidGen
      · rfl

/-! ### Steps of the scheduler -/

/-- A step of another thread leaves the owner of a lock. -/
theorem thr_kept (hi : s.Inv) (hs : step s a = some s') (ht : s.activeThr = some t)
    (hown : (s.locks l).thr = some u) (hne : ¬ (t = u ∧ a.givesUp = some l)) :
    (s'.locks l).thr = some u := by
  obtain ⟨v, hv, href⟩ := step_refines hi hs
  obtain rfl : t = v := Option.some.inj (ht.symm.trans hv)
  exact href.effect.thr_kept hown hne

/-- A step of another thread leaves a thread at its point. -/
theorem point_other (hi : s.Inv) (hs : step s a = some s') (ht : s.activeThr = some t)
    (hu : u ≠ t) : s'.point u = s.point u := by
  obtain ⟨v, hv, href⟩ := step_refines hi hs
  obtain rfl : t = v := Option.some.inj (ht.symm.trans hv)
  exact href.effect.point_other (hi.ok.placed.fresh _ (Nat.le_refl _)) hu

/-- A call that takes a lock leaves its caller with the lock, or in need of it. -/
theorem needs_or_owns_of_takes (hi : s.Inv) (ht : s.activeThr = some t) (ha : a.takes = some l)
    (hs : step s a = some s') : (s'.point t).needs = some l ∨ (s'.locks l).thr = some t := by
  have hlock := step_takes ht ha hs
  by_cases hfree : (s.locks l).thr = none
  · rw [userMutexLock_free (hi.ok.clear l) hfree] at hlock
    obtain rfl := Option.some.inj hlock
    right
    simp
  · rw [userMutexLock_taken (hi.ok.clear l) hfree] at hlock
    obtain rfl := Option.some.inj hlock
    left
    rw [(dispatches_bloquear _ t _).point, Function.update_self]
    rfl

/-- A wait inside the monitor leaves its caller in need of it. -/
theorem needs_of_wait (hi : s.Inv) (ht : s.activeThr = some t)
    (hown : (s.locks (.monitor m)).thr = some t)
    (hs : step s (.call (.monitorWait m)) = some s') :
    (s'.point t).needs = some (.monitor m) := by
  have hwait : s.userMonitorWait t m = some s' := (step_call ht hs).2
  rw [userMonitorWait_owner (hi.ok.clear _) hown] at hwait
  split at hwait
  · obtain rfl := Option.some.inj hwait
    rw [(dispatches_granted (hi.prio.registered t m) t _ _).point, Function.update_self]
    rfl
  · obtain rfl := Option.some.inj hwait
    rw [waitBlock, (dispatches_bloquear _ t _).point, Function.update_self]
    rfl

/-- A thread that goes on from a switch point still needs its lock, or owns it. -/
theorem needs_or_owns_of_resume (hi : s.Inv) (ht : s.activeThr = some t)
    (hs : step s .resume = some s') (hneed : (s.point t).needs = some l) :
    (s'.point t).needs = some l ∨ (s'.locks l).thr = some t := by
  have hres : s.resume t = some s' := by simpa [step, ht] using hs
  obtain ⟨m, hp, rfl⟩ | ⟨-, -, v, r, rfl, -⟩ := resume_cases hres
  · left
    rw [waitBlock, (dispatches_bloquear _ t _).point, Function.update_self]
    rw [hp] at hneed
    exact hneed
  · right
    exact owner_of_resume hi hneed ht hs (Function.update_self ..)

/-- A step that is no call of a lock's function gives up no lock. -/
theorem givesUp_of_quiet (ha : a.operates t = none) : a.givesUp ≠ some l := by
  intro hg
  obtain ⟨o, ho⟩ := operates_of_givesUp (t := t) hg
  rw [ha] at ho
  cases ho

namespace Sections

variable (h : Sections s sec) (hi : s.Inv) (ht : s.activeThr = some t)
  (hs : Sched.step s a = some s')

include h hi ht hs in
/-- Past a statement that only the owner executes, the thread still owns the monitor. -/
theorem step_owned {x' : Section} (hself : Moves t a (sec t) x') (hm : x'.owned = some m) :
    (s'.locks (.monitor m)).thr = some t := by
  generalize hx : sec t = x at hself
  cases hself with
  | quiet _ ha =>
      exact thr_kept hi hs ht (h.owns t m (by rwa [hx])) fun hg => givesUp_of_quiet ha hg.2
  | signal hsec =>
      obtain rfl := Option.some.inj hm
      have hown := h.owner_of_user (step_call ht hs).1 (by rwa [hx])
      exact thr_kept hi hs ht hown fun hg => by simp [Act.givesUp] at hg
  | enter => cases hm
  | wait => cases hm
  | exit => cases hm

include h hi ht hs in
/-- In a call that needs the monitor, the thread still needs it, or owns it. -/
theorem step_comes (hself : Moves t a (sec t) (.comes m)) :
    (s'.point t).needs = some (.monitor m) ∨ (s'.locks (.monitor m)).thr = some t := by
  generalize hx : sec t = x at hself
  cases hself with
  | quiet _ ha =>
      rcases h.comes t m hx with hneed | hown
      · cases a with
        | call c => simp [(step_call ht hs).1] at hneed
        | tick => simp [(step_tick ht hs).1] at hneed
        | resume => exact needs_or_owns_of_resume hi ht hs hneed
      · right
        exact thr_kept hi hs ht hown fun hg => givesUp_of_quiet ha hg.2
  | enter => exact needs_or_owns_of_takes hi ht rfl hs
  | wait hm =>
      left
      have hown := h.owner_of_user (step_call ht hs).1 (by rwa [hx])
      exact needs_of_wait hi ht hown hs

include h hi ht hs in
/-- The program points still fit after a step of a program that keeps to the rules. -/
theorem step (hother : ∀ u, u ≠ t → sec' u = sec u) (hself : Moves t a (sec t) (sec' t)) :
    Sections s' sec' where
  owns u m hu := by
    by_cases hut : u = t
    · subst hut
      exact h.step_owned hi ht hs hself hu
    · rw [hother u hut] at hu
      exact thr_kept hi hs ht (h.owns u m hu) fun hg => hut hg.1.symm
  comes u m hu := by
    by_cases hut : u = t
    · subst hut
      exact h.step_comes hi ht hs (hu ▸ hself)
    · rw [hother u hut] at hu
      rcases h.comes u m hu with hneed | hown
      · left
        rwa [point_other hi hs ht hut]
      · right
        exact thr_kept hi hs ht hown fun hg => hut hg.1.symm

/-! ### What the atomic model sees -/

/-- Whoever is past its section owns the monitor. -/
theorem not_past {s : Sched} {sec : Tid → Section} (h : Sections s sec)
    (hown : (s.locks (.monitor m)).thr ≠ some u) : sec u ≠ .past m := by
  intro hp
  exact hown (h.owns u m (by rw [hp]; rfl))

include hi hs in
/-- A monitor that the step does not operate on looks as before. -/
theorem seen_quiet (hother : ∀ u, u ≠ t → sec' u = sec u)
    (hop : operation s a (.monitor m) = none) (hself : sec' t = .past m ↔ sec t = .past m) :
    seen s' sec' m = seen s sec m := by
  have hlock := lockOf_step hi hs (.monitor m)
  rw [hop] at hlock
  rw [seen, hlock]
  apply Monitor.without_congr
  intro u hu
  by_cases hut : u = t
  · rw [hut]
    exact decide_eq_decide.mpr hself
  · rw [hother u hut]

include hi ht hs in
theorem seen_enter (hother : ∀ u, u ≠ t → sec' u = sec u) (hsec : sec t = .outside)
    (hsec' : sec' t = .comes m) (ha : a = .call (.monitorEnter m)) :
    seen s' sec' m = (seen s sec m).enter t := by
  have hlock := lockOf_step hi hs (.monitor m)
  have hop : operation s a (.monitor m) = some (.enter t) :=
    (operation_eq_some ht).mpr ⟨by rw [ha]; rfl, Or.inl rfl⟩
  rw [hop] at hlock
  rw [seen, hlock]
  show ((lockOf s (.monitor m)).enter t).without _ = _
  apply Monitor.without_enter
  · intro u hu
    by_cases hut : u = t
    · simp [hut, hsec, hsec']
    · rw [hother u hut]
  · intro hfree
    simp [hsec']

/-- Before its owner is past its section, the monitor looks as it is. -/
theorem seen_of_here {s : Sched} {sec : Tid → Section}
    (hown : (s.locks (.monitor m)).thr = some t) (hpast : sec t ≠ .past m) :
    seen s sec m = lockOf s (.monitor m) := by
  apply Monitor.without_of_here
  intro u hu
  obtain rfl : t = u := Option.some.inj (hown.symm.trans hu)
  simp [hpast]

include h in
/-- The thread that is given the monitor is not past its section. -/
theorem here_of_given (hother : ∀ u, u ≠ t → sec' u = sec u) (hself : sec' t ≠ .past m)
    (hown : (s.locks (.monitor m)).thr = some t) (u : Tid) :
    decide (sec' u = .past m) = false := by
  by_cases hut : u = t
  · simp [hut, hself]
  · rw [hother u hut]
    have hnot := h.not_past (m := m) (u := u) fun hu => hut (Option.some.inj (hu.symm.trans hown))
    simp [hnot]

include h hi ht hs in
/-- A section that ends: if the model has not taken it yet, it does so now. -/
theorem seen_exit (hother : ∀ u, u ≠ t → sec' u = sec u) (hsec : (sec t).monitor = some m)
    (hsec' : sec' t = .outside) (ha : a = .call (.monitorExit m)) :
    seen s' sec' m = if sec t = .past m then seen s sec m else (seen s sec m).exit := by
  subst ha
  have hown := h.owner_of_user (step_call ht hs).1 hsec
  have hlock := lockOf_step hi hs (.monitor m)
  rw [(operation_eq_some ht).mpr ⟨rfl, Or.inr hown⟩] at hlock
  have hafter : seen s' sec' m = (lockOf s (.monitor m)).exit := by
    rw [seen, hlock]
    exact Monitor.without_exit fun u _ => h.here_of_given hother (by simp [hsec']) hown u
  split
  · rename_i hpast
    rw [hafter, seen, Monitor.without_of_gone (t := t) hown (by simp [hpast])]
  · rename_i hpast
    rw [hafter, seen_of_here hown hpast]

include h hi ht hs in
theorem seen_wait (hother : ∀ u, u ≠ t → sec' u = sec u) (hsec : (sec t).monitor = some m)
    (hpast : sec t ≠ .past m) (hsec' : sec' t = .comes m) (ha : a = .call (.monitorWait m)) :
    seen s' sec' m = (seen s sec m).wait t := by
  subst ha
  have hown := h.owner_of_user (step_call ht hs).1 hsec
  have hlock := lockOf_step hi hs (.monitor m)
  rw [(operation_eq_some ht).mpr ⟨rfl, Or.inr hown⟩] at hlock
  rw [seen_of_here hown hpast, seen, hlock]
  exact Monitor.without_wait fun u _ => h.here_of_given hother (by simp [hsec']) hown u

include h hi ht hs in
/-- With its signal a section is past. -/
theorem seen_signal (hsec : (sec t).monitor = some m) (hpast : sec t ≠ .past m)
    (hsec' : sec' t = .past m) (ha : a = .call (.monitorSignal m)) :
    seen s' sec' m = (seen s sec m).signal.exit := by
  subst ha
  have hown := h.owner_of_user (step_call ht hs).1 hsec
  have hlock := lockOf_step hi hs (.monitor m)
  rw [(operation_eq_some ht).mpr ⟨rfl, Or.inr hown⟩] at hlock
  rw [seen_of_here hown hpast, seen, hlock]
  exact Monitor.without_signal (t := t) hown (by simp [hsec'])

/-- A statement of the running thread, after which its section may be past. -/
theorem seen_statement (h : Sections s sec) (hu : s.point t = .user)
    (hother : ∀ u, u ≠ t → sec' u = sec u)
    (hself : (sec' t).monitor = some m → (sec t).monitor = some m)
    (hback : sec t = .past m → sec' t = .past m) :
    seen s sec' m = if sec' t = .past m ∧ sec t ≠ .past m then (seen s sec m).exit
      else seen s sec m := by
  split
  · rename_i hpast
    have hown := h.owner_of_user hu (hself (by rw [hpast.1]; rfl))
    rw [seen_of_here hown hpast.2, seen, Monitor.without_of_gone (t := t) hown (by simp [hpast.1])]
  · rename_i hpast
    apply Monitor.without_congr
    intro u _
    by_cases hut : u = t
    · rw [hut]
      exact decide_eq_decide.mpr ⟨fun hp => by_contra fun hn => hpast ⟨hp, hn⟩, hback⟩
    · rw [hother u hut]

end Sections

end Sthreads.User
