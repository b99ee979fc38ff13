/-
`blocked_list` and the wait queues.

`sthread_user_dump` prints `blocked_list`, which `sthread_user_mutex_lock` keeps "para o dump".
The list is written apart from the queues of the mutexes and of the monitors, by four functions.
Three of them keep it equal to those queues.  `sthread_user_monitor_signal` does not: it moves the
oldest waiter from the queue of the monitor to the queue of its mutex, where it is still blocked,
and takes it out of `blocked_list`.
-/
import Sthreads.Proofs.User.ControlBlocks

namespace Sthreads.User

/-- The list of the blocked threads and the queues it is a list of. -/
structure WaitLists where
  blocked : List Tid
  locks : Lock → Mutex
  mons : Nat → List Tid

namespace WaitLists

/-- The list is exactly the threads in the queues. -/
structure Exact (w : WaitLists) : Prop where
  nodup : w.blocked.Nodup
  mem_iff : ∀ t, t ∈ w.blocked ↔ Waits w.locks w.mons t

/-- `t` waits for a lock that is taken. -/
def block (w : WaitLists) (t : Tid) (l : Lock) : WaitLists :=
  { w with
    blocked := w.blocked ++ [t]
    locks := Function.update w.locks l ⟨false, (w.locks l).thr, (w.locks l).queue ++ [t]⟩ }

/-- `t` waits on a monitor. -/
def register (w : WaitLists) (t : Tid) (m : Nat) : WaitLists :=
  { w with
    blocked := w.blocked ++ [t]
    mons := Function.update w.mons m (w.mons m ++ [t]) }

/-- The oldest thread of the queue of a lock gets the lock. -/
def grant (w : WaitLists) (l : Lock) : WaitLists :=
  { w with
    blocked := w.blocked.filter fun u => (w.locks l).queue.head? ≠ some u
    locks := Function.update w.locks l (w.locks l).handed }

variable {w : WaitLists} {t u : Tid}

theorem waits_locks {lk lk' : Lock → Mutex} (mn : Nat → List Tid)
    (h : ∀ l, (lk' l).queue = (lk l).queue) : Waits lk' mn t ↔ Waits lk mn t := by
  simp only [Waits, h]

/-- Who waits after a thread was appended to the queue of a lock. -/
theorem waits_block {lk : Lock → Mutex} {mn : Nat → List Tid} {l : Lock} {v : Mutex}
    (hv : v.queue = (lk l).queue ++ [t]) :
    Waits (Function.update lk l v) mn u ↔ Waits lk mn u ∨ u = t := by
  constructor
  · rintro (hm | ⟨l', hl'⟩)
    · exact Or.inl (Or.inl hm)
    · by_cases hl : l' = l
      · rw [hl, Function.update_self, hv, List.mem_append, List.mem_singleton] at hl'
        exact hl'.imp_left fun hq => Or.inr ⟨l, hq⟩
      · rw [Function.update_of_ne hl] at hl'
        exact Or.inl (Or.inr ⟨l', hl'⟩)
  · rintro ((hm | ⟨l', hl'⟩) | rfl)
    · exact Or.inl hm
    · refine Or.inr ⟨l', ?_⟩
      by_cases hl : l' = l
      · rw [hl] at hl'
        rw [hl, Function.update_self, hv]
        exact List.mem_append_left _ hl'
      · rwa [Function.update_of_ne hl]
    · refine Or.inr ⟨l, ?_⟩
      rw [Function.update_self, hv]
      exact List.mem_append_right _ (List.mem_singleton_self u)

/-- Who waits after a thread was appended to the queue of a monitor. -/
theorem waits_register {lk : Lock → Mutex} {mn : Nat → List Tid} (m : Nat) :
    Waits lk (Function.update mn m (mn m ++ [t])) u ↔ Waits lk mn u ∨ u = t := by
  constructor
  · rintro (⟨m', hm'⟩ | hl)
    · by_cases hm : m' = m
      · rw [hm, Function.update_self, List.mem_append, List.mem_singleton] at hm'
        exact hm'.imp_left fun hq => Or.inl ⟨m, hq⟩
      · rw [Function.update_of_ne hm] at hm'
        exact Or.inl (Or.inl ⟨m', hm'⟩)
    · exact Or.inl (Or.inr hl)
  · rintro ((⟨m', hm'⟩ | hl) | rfl)
    · refine Or.inl ⟨m', ?_⟩
      by_cases hm : m' = m
      · rw [hm] at hm'
        rw [hm, Function.update_self]
        exact List.mem_append_left _ hm'
      · rwa [Function.update_of_ne hm]
    · exact Or.inr hl
    · refine Or.inl ⟨m, ?_⟩
      rw [Function.update_self]
      exact List.mem_append_right _ (List.mem_singleton_self u)

/-- The oldest thread in the queue of `l` is in no other queue. -/
structure HeadOnly (w : WaitLists) (l : Lock) : Prop where
  nodup : (w.locks l).queue.Nodup
  mons : ∀ u, (w.locks l).queue.head? = some u → ∀ m, u ∉ w.mons m
  locks : ∀ u, (w.locks l).queue.head? = some u → ∀ l', u ∈ (w.locks l').queue → l' = l

theorem locks_grant (w : WaitLists) (l : Lock) :
    (w.grant l).locks = Function.update w.locks l (w.locks l).handed := rfl

/-- Handing a lock over ends the wait of the oldest thread in its queue, and of no other. -/
theorem waits_grant {l : Lock} (h : w.HeadOnly l) :
    Waits (w.grant l).locks w.mons u ↔
      Waits w.locks w.mons u ∧ (w.locks l).queue.head? ≠ some u := by
  constructor
  · rintro (⟨m, hm⟩ | ⟨l', hl'⟩)
    · exact ⟨Or.inl ⟨m, hm⟩, fun hu => h.mons u hu m hm⟩
    · by_cases hl : l' = l
      · rw [hl, locks_grant, Function.update_self] at hl'
        have htail : u ∈ (w.locks l).queue.tail := hl'
        refine ⟨Or.inr ⟨l, List.mem_of_mem_tail htail⟩, fun hu => ?_⟩
        obtain ⟨rest, hq⟩ := List.head?_eq_some_iff.mp hu
        have hnd := h.nodup
        rw [hq] at hnd htail
        exact (List.nodup_cons.mp hnd).1 htail
      · rw [locks_grant, Function.update_of_ne hl] at hl'
        exact ⟨Or.inr ⟨l', hl'⟩, fun hu => hl (h.locks u hu l' hl')⟩
  · rintro ⟨hm | ⟨l', hl'⟩, hu⟩
    · exact Or.inl hm
    · refine Or.inr ⟨l', ?_⟩
      by_cases hl : l' = l
      · rw [hl] at hl'
        rw [hl, locks_grant, Function.update_self]
        cases hq : (w.locks l).queue with
        | nil => simp [hq] at hl'
        | cons x rest =>
            have hne : u ≠ x := fun he => hu (by rw [hq, he]; rfl)
            rw [hq] at hl'
            simpa [Mutex.handed, hq, hne] using hl'
      · rwa [locks_grant, Function.update_of_ne hl]

/-! ### What the four functions do to the list -/

theorem Exact.congr {w' : WaitLists} (h : w.Exact) (hb : w'.blocked = w.blocked)
    (hl : ∀ l, (w'.locks l).queue = (w.locks l).queue) (hm : w'.mons = w.mons) : w'.Exact := by
  refine ⟨hb ▸ h.nodup, fun t => ?_⟩
  rw [hb, hm, h.mem_iff, waits_locks w.mons hl]

theorem Exact.nodup_append (h : w.Exact) (ht : ¬ Waits w.locks w.mons t) :
    (w.blocked ++ [t]).Nodup := by
  have hno : t ∉ w.blocked := fun hm => ht ((h.mem_iff t).mp hm)
  rw [List.nodup_append]
  refine ⟨h.nodup, List.nodup_singleton t, fun u hu v hv => ?_⟩
  rw [List.mem_singleton.mp hv]
  rintro rfl
  exact hno hu

theorem Exact.mem_append (h : w.Exact) :
    u ∈ w.blocked ++ [t] ↔ Waits w.locks w.mons u ∨ u = t := by
  rw [List.mem_append, List.mem_singleton, h.mem_iff]

theorem Exact.block (h : w.Exact) (ht : ¬ Waits w.locks w.mons t) (l : Lock) :
    (w.block t l).Exact :=
  ⟨h.nodup_append ht, fun _ => h.mem_append.trans (waits_block rfl).symm⟩

theorem Exact.register (h : w.Exact) (ht : ¬ Waits w.locks w.mons t) (m : Nat) :
    (w.register t m).Exact :=
  ⟨h.nodup_append ht, fun _ => h.mem_append.trans (waits_register m).symm⟩

theorem Exact.grant (h : w.Exact) {l : Lock} (hh : w.HeadOnly l) : (w.grant l).Exact := by
  refine ⟨h.nodup.filter _, fun u => ?_⟩
  change u ∈ w.blocked.filter _ ↔ Waits (w.grant l).locks w.mons u
  rw [waits_grant hh, ← h.mem_iff, List.mem_filter, decide_eq_true_eq]

end WaitLists

namespace Sched

open Runqueue

/-- `blocked_list` and the queues. -/
def waitLists (s : Sched) : WaitLists := ⟨s.blockedList, s.locks, s.mons⟩

variable {s s' : Sched} {t : Tid} {a : Act}

/-! ### Functions that leave the lists alone -/

theorem waitLists_dispatched {p : Point} (h : Dispatches s s' t p) : s'.waitLists = s.waitLists := by
  obtain ⟨_, _, rfl, -⟩ := h
  rfl

theorem waitLists_refiled {xs ys : List Tid} (h : Refiles s s' xs ys) :
    s'.waitLists = s.waitLists := by
  obtain ⟨_, _, rfl, -⟩ := h
  rfl

theorem waitLists_bloquear (s : Sched) (t : Tid) (p : Point) :
    (s.bloquear t p).waitLists = s.waitLists := waitLists_dispatched (dispatches_bloquear s t p)

theorem waitLists_exitLists (hp : s.PrioInRange) (t : Tid) (ret : Ptr) :
    (s.exitLists t ret).waitLists = s.waitLists := by
  have h := waitLists_refiled (refiles_wakeJoiners t ret (s.splx .high).joinThrList (s.splx .high)
    [] true hp)
  revert h
  unfold exitLists
  dsimp only
  generalize wakeJoiners t ret (s.splx .high).joinThrList (s.splx .high) [] true = r
  obtain ⟨s₁, tmp, z⟩ := r
  intro h
  cases z <;> exact h

theorem waitLists_tickWake (hp : s.PrioInRange) : s.tickWake.waitLists = s.waitLists := by
  have h := waitLists_refiled
    (refiles_wakeSleepers s.sleepThrList { s with clock := s.clock + 1 } [] hp)
  exact h

theorem waitLists_userDispatcher (hp : s.PrioInRange) (t : Tid) :
    (s.userDispatcher t).waitLists = s.waitLists := by
  have hp' := (tickWake_spec hp).2.1
  refine Eq.trans ?_ (waitLists_tickWake hp)
  unfold userDispatcher
  generalize s.tickWake = s₁ at hp'
  have hcharged : (s₁.setThread t { s₁.thr t with quantum := (s₁.thr t).quantum - 1 }).PrioInRange :=
    hp'.setThread (hp' t)
  dsimp only
  split
  · split
    · have hd := dispatches_retirarActive (inserirActive_ne_nil hcharged t) t .tick
      rw [waitLists_dispatched hd]
      rfl
    · rfl
  · rw [waitLists_bloquear]
    rfl

theorem waitLists_userJoin (s : Sched) (t u : Tid) :
    (s.userJoin t u).waitLists = s.waitLists := by
  unfold userJoin
  dsimp only
  split
  · rfl
  · split
    · exact waitLists_bloquear _ t (.join u)
    · rfl

theorem waitLists_userSleep (s : Sched) (t : Tid) (time : Int) :
    (s.userSleep t time).waitLists = s.waitLists := by
  unfold userSleep
  dsimp only
  split
  · rfl
  · exact waitLists_bloquear _ t .sleep

theorem waitLists_userExit (hp : s.PrioInRange) (t : Tid) (ret : Ptr)
    (h : s.userExit t ret = some s') : s'.waitLists = s.waitLists := by
  unfold userExit at h
  dsimp only at h
  split at h
  · cases h
  · cases h
    exact (waitLists_bloquear _ t .exited).trans (waitLists_exitLists hp t ret)

/-! ### The functions that write them -/

theorem waitLists_granted (s : Sched) (l : Lock) :
    (s.granted l).waitLists = s.waitLists.grant l := by
  cases hq : (s.locks l).queue with
  | nil => simp [waitLists, WaitLists.grant, granted, hq, setLock]
  | cons u rest =>
      simp only [waitLists, WaitLists.grant, granted, hq, setLock, inserirActive, List.head?_cons,
        WaitLists.mk.injEq, and_true]
      refine List.filter_congr fun x _ => ?_
      simp [bne, eq_comm, beq_eq_decide]

/-- What a step does to `blocked_list` and to the queues. -/
inductive Relists (w : WaitLists) (t : Tid) : Act → WaitLists → Prop
  | keep (a : Act) (w' : WaitLists) (hb : w'.blocked = w.blocked)
      (hl : ∀ l, (w'.locks l).queue = (w.locks l).queue) (hm : w'.mons = w.mons) :
      Relists w t a w'
  | block (a : Act) (l : Lock) (ht : ¬ Waits w.locks w.mons t) : Relists w t a (w.block t l)
  | grant (a : Act) (l : Lock) : Relists w t a (w.grant l)
  | wait (a : Act) (m : Nat) (ht : ¬ Waits w.locks w.mons t) :
      Relists w t a ((w.register t m).grant (.monitor m))
  | signal (m : Nat) (u : Tid) (rest : List Tid)
      (hown : (w.locks (.monitor m)).thr = some t) (hmon : w.mons m = u :: rest) :
      Relists w t (.call (.monitorSignal m))
        { blocked := w.blocked.filter (· != u)
          locks := Function.update w.locks (.monitor m)
            ⟨false, (w.locks (.monitor m)).thr, (w.locks (.monitor m)).queue ++ [u]⟩
          mons := Function.update w.mons m rest }

theorem Relists.same {w w' : WaitLists} (a : Act) (h : w' = w) : Relists w t a w' :=
  .keep a w' (by rw [h]) (fun _ => by rw [h]) (by rw [h])

theorem relists_userMutexLock (hi : s.Inv) (hu : s.point t = .user) {l : Lock} (a : Act)
    (h : s.userMutexLock t l = some s') : Relists s.waitLists t a s'.waitLists := by
  have hc : (s.locks l).l = false := hi.ok.clear l
  by_cases hfree : (s.locks l).thr = none
  · rw [userMutexLock_free hc hfree] at h
    cases h
    refine .keep a _ rfl (fun l' => ?_) rfl
    by_cases hl : l' = l
    · rw [hl]
      simp [waitLists, setLock]
    · simp [waitLists, setLock, Function.update_of_ne hl]
  · rw [userMutexLock_taken hc hfree] at h
    cases h
    rw [waitLists_bloquear]
    exact .block a l (hi.ok.user_not_waits hu)

theorem waitLists_preempted (hp : s.PrioInRange) (t : Tid) (l : Lock) (p : Point) :
    (((s.granted l).inserirActive t).retirarActive.sthreadSwitch t p).waitLists =
      s.waitLists.grant l :=
  (waitLists_dispatched (dispatches_granted hp t l p)).trans (waitLists_granted s l)

theorem relists_userMutexUnlock (hi : s.Inv) {l : Lock} {p : Point} (a : Act) {r : Sched × Bool}
    (h : s.userMutexUnlock t l p = some r) : Relists s.waitLists t a r.1.waitLists := by
  have hc : (s.locks l).l = false := hi.ok.clear l
  by_cases hown : (s.locks l).thr = some t
  · rw [userMutexUnlock_owner hc hown] at h
    split at h
    · cases h
      dsimp only
      rw [waitLists_preempted hi.prio]
      exact .grant a l
    · cases h
      dsimp only
      rw [waitLists_granted]
      exact .grant a l
  · rw [userMutexUnlock, if_pos hown] at h
    cases h
    exact .same a rfl

theorem waitLists_waitBlock (s : Sched) (t : Tid) (m : Nat) :
    (s.waitBlock t m).waitLists = s.waitLists := waitLists_bloquear _ t (.wait m)

theorem relists_userMonitorWait (hi : s.Inv) (hu : s.point t = .user) {m : Nat} (a : Act)
    (h : s.userMonitorWait t m = some s') : Relists s.waitLists t a s'.waitLists := by
  have hc : (s.locks (.monitor m)).l = false := hi.ok.clear _
  by_cases hown : (s.locks (.monitor m)).thr = some t
  · rw [userMonitorWait_owner hc hown] at h
    have hwait := Relists.wait (w := s.waitLists) a m (hi.ok.user_not_waits hu)
    split at h
    · cases h
      rw [waitLists_preempted (hi.prio.registered t m)]
      exact hwait
    · cases h
      rw [waitLists_waitBlock, waitLists_granted]
      exact hwait
  · rw [userMonitorWait, if_pos hown] at h
    cases h
    exact .same a rfl

theorem relists_userMonitorSignal (hi : s.Inv) {m : Nat} (h : s.userMonitorSignal t m = some s') :
    Relists s.waitLists t (.call (.monitorSignal m)) s'.waitLists := by
  have hc : (s.locks (.monitor m)).l = false := hi.ok.clear _
  by_cases hown : (s.locks (.monitor m)).thr = some t
  · cases hmon : s.mons m with
    | nil =>
        rw [userMonitorSignal_nil hc hown hmon] at h
        cases h
        exact .same _ rfl
    | cons u rest =>
        rw [userMonitorSignal_cons hc hown hmon] at h
        cases h
        exact .signal m u rest hown hmon
  · rw [userMonitorSignal, if_pos hown] at h
    cases h
    exact .same _ rfl

theorem relists_call (hi : s.Inv) (hu : s.point t = .user) (c : Call) (h : s.call t c = some s') :
    Relists s.waitLists t (.call c) s'.waitLists := by
  cases c with
  | create priority =>
      cases h
      exact .same _ rfl
  | nice n =>
      cases h
      exact .same _ rfl
  | exit ret => exact .same _ (waitLists_userExit hi.prio t ret h)
  | yield =>
      cases h
      refine .same _ ?_
      rw [waitLists_dispatched (dispatches_userYield hi.prio t)]
      rfl
  | join u =>
      rw [call] at h
      split at h
      · cases h
        exact .same _ (waitLists_userJoin s t u)
      · cases h
  | sleep time =>
      cases h
      exact .same _ (waitLists_userSleep s t time)
  | mutexLock n => exact relists_userMutexLock hi hu _ h
  | mutexUnlock n =>
      obtain ⟨r, hr, rfl⟩ := Option.map_eq_some_iff.mp h
      exact relists_userMutexUnlock hi _ hr
  | monitorEnter m => exact relists_userMutexLock hi hu _ h
  | monitorExit m =>
      obtain ⟨r, hr, rfl⟩ := Option.map_eq_some_iff.mp h
      exact relists_userMutexUnlock hi _ hr
  | monitorWait m => exact relists_userMonitorWait hi hu _ h
  | monitorSignal m => exact relists_userMonitorSignal hi h

theorem step_relists (hi : s.Inv) (h : Sched.step s a = some s') :
    ∃ t, s.activeThr = some t ∧ Relists s.waitLists t a s'.waitLists := by
  obtain ⟨t, ht, -⟩ := step_refines hi h
  refine ⟨t, ht, ?_⟩
  cases a with
  | call c =>
      obtain ⟨hu, hcall⟩ := step_call ht h
      exact relists_call hi hu c hcall
  | tick =>
      obtain ⟨-, -, rfl⟩ := step_tick ht h
      exact .same _ (waitLists_userDispatcher hi.prio t)
  | resume =>
      have hresume : s.resume t = some s' := by simpa only [step, ht] using h
      obtain ⟨m, -, rfl⟩ | ⟨-, -, v, r, rfl, -⟩ := resume_cases hresume
      · exact .same _ (waitLists_waitBlock s t m)
      · exact .same _ rfl

end Sched

/-! ### Runs -/

open Sched

/-- `blocked_list` is exactly the threads in the wait queues, without duplicates, and the dump
shows each of them. -/
structure BlockedShown (s : Sched) : Prop where
  nodup : s.blockedList.Nodup
  exactly : ∀ t, t ∈ s.blockedList ↔ Waits s.locks s.mons t
  shown : ∀ d, s.userDump = some d → ∀ t, Waits s.locks s.mons t →
    (t, (s.thr t).quantum) ∈ d.blockedList

/-- A signal by the owner of a monitor on which some thread waits. -/
def SignalsWaiter (s : Sched) : Act → Prop
  | .call (.monitorSignal m) => (s.locks (.monitor m)).thr = s.activeThr ∧ s.mons m ≠ []
  | _ => False

variable {s s' : Sched} {t : Tid} {a : Act}

/-- In a reachable state the thread that gets a lock stands in no other queue. -/
theorem headOnly_of_inv (hi : s.Inv) (l : Lock) : s.waitLists.HeadOnly l := by
  have hmem : ∀ u, (s.locks l).queue.head? = some u → u ∈ (s.locks l).queue :=
    fun u hu => List.mem_of_mem_head? hu
  exact ⟨hi.ok.placed.nodupLock l, fun u hu => (hi.ok.placed.queue_only (hmem u hu)).1,
    fun u hu => (hi.ok.placed.queue_only (hmem u hu)).2⟩

/-- The caller of `sthread_user_monitor_wait` stands behind nobody in the queue of the mutex. -/
theorem headOnly_register (hi : s.Inv) (ht : ¬ Waits s.locks s.mons t) (m : Nat) :
    (s.waitLists.register t m).HeadOnly (.monitor m) := by
  have h := headOnly_of_inv hi (.monitor m)
  refine ⟨h.nodup, fun u hu m' hm' => ?_, h.locks⟩
  have hne : u ≠ t := fun he => ht (he ▸ Or.inr ⟨_, List.mem_of_mem_head? hu⟩)
  have hmem : u ∈ Function.update s.mons m (s.mons m ++ [t]) m' := hm'
  by_cases hm : m' = m
  · rw [hm, Function.update_self, List.mem_append, List.mem_singleton] at hmem
    exact h.mons u hu m (hmem.resolve_right hne)
  · rw [Function.update_of_ne hm] at hmem
    exact h.mons u hu m' hmem

theorem BlockedShown.of_exact (h : s.waitLists.Exact) : BlockedShown s := by
  refine ⟨h.nodup, h.mem_iff, fun d hd t ht => ?_⟩
  obtain ⟨t₀, -, rfl⟩ := Option.map_eq_some_iff.mp hd
  exact List.mem_map_of_mem ((h.mem_iff t).mpr ht)

/-- Every step but a signal that finds a waiter keeps the list exact. -/
theorem exact_step (hi : s.Inv) (he : s.waitLists.Exact) (hns : ¬ SignalsWaiter s a)
    (hs : Sched.step s a = some s') : s'.waitLists.Exact := by
  obtain ⟨t, hact, hr⟩ := step_relists hi hs
  generalize s'.waitLists = w' at hr
  cases hr with
  | keep _ _ hb hl hm => exact he.congr hb hl hm
  | block _ l ht => exact he.block ht l
  | grant _ l => exact he.grant (headOnly_of_inv hi l)
  | wait _ m ht => exact (he.register ht m).grant (headOnly_register hi ht m)
  | signal m u rest hown hmon =>
      refine absurd ⟨hown.trans hact.symm, ?_⟩ hns
      rw [show s.mons m = u :: rest from hmon]
      exact List.cons_ne_nil u rest

/-- A signal that finds a waiter leaves it blocked, and takes it out of the list. -/
theorem not_shown_of_signal (hi : s.Inv) (hsig : SignalsWaiter s a)
    (hs : Sched.step s a = some s') : ¬ BlockedShown s' := by
  obtain ⟨t, ht, -⟩ := step_refines hi hs
  obtain ⟨m, rfl, hown, hne⟩ : ∃ m, a = .call (.monitorSignal m) ∧
      (s.locks (.monitor m)).thr = s.activeThr ∧ s.mons m ≠ [] := by
    unfold SignalsWaiter at hsig
    split at hsig
    · exact ⟨_, rfl, hsig⟩
    · exact hsig.elim
  have hcall : s.userMonitorSignal t m = some s' := (step_call ht hs).2
  obtain ⟨u, rest, hmon⟩ := List.exists_cons_of_ne_nil hne
  rw [userMonitorSignal_cons (hi.ok.clear _) (hown.trans ht) hmon] at hcall
  cases hcall
  intro hshown
  have hlisted : u ∈ s.blockedList.filter (· != u) := (hshown.exactly u).mpr
    (Or.inr ⟨.monitor m, by simp [setLock]⟩)
  simp at hlisted

/-- `blocked_list` is exactly the blocked threads all along a run if and only if no signal of the
run finds a waiter. -/
theorem blocked_shown_iff {tr : List (Sched × Act)} {s : Sched} (h : Run Sched.step userInit tr s) :
    (∀ x ∈ visited tr s, BlockedShown x) ↔ ∀ p ∈ tr, ¬ SignalsWaiter p.1 p.2 := by
  refine h.visited_iff (fun s => s.Inv ∧ s.waitLists.Exact) ⟨Inv.init, ?_⟩
    (fun s hs => BlockedShown.of_exact hs.2)
    (fun s a s' hi hok hs => ⟨hi.1.step hs, exact_step hi.1 hi.2 hok hs⟩)
    (fun s a s' hi hbad hs => not_shown_of_signal hi.1 (Classical.not_not.mp hbad) hs)
  refine ⟨List.nodup_nil, fun t => ?_⟩
  simp [waitLists, userInit, Waits, mutexInit]

/-- Thread 2 waits for a mutex and thread 3 on a monitor. -/
theorem blocked_shown_iff_two :
    ∃ tr s, Run Sched.step userInit tr s ∧ s.blockedList = [2, 3] ∧
      ((∀ x ∈ visited tr s, BlockedShown x) ↔ ∀ p ∈ tr, ¬ SignalsWaiter p.1 p.2) := by
  have hrun : (runTrace Sched.step userInit [.call (.mutexLock 0), .call (.create 7),
      .call (.create 7), .call (.create 7), .call (.sleep 10), .resume, .call (.mutexLock 0),
      .resume, .call (.monitorEnter 0), .call (.monitorWait 0)]).map (fun r => r.2.blockedList) =
        some [2, 3] := by
    decide
  obtain ⟨⟨tr, s⟩, hr, hb⟩ := Option.map_eq_some_iff.mp hrun
  have h : Run Sched.step userInit tr s := run_of_runTrace _ .nil hr
  exact ⟨tr, s, h, hb, blocked_shown_iff h⟩

/-- The main thread waits on a monitor and another thread signals it: the main thread is in the
queue of the mutex and not in `blocked_list`. -/
theorem signalled_not_listed :
    ¬ ∀ tr s, Run Sched.step userInit tr s → ∀ x ∈ visited tr s, BlockedShown x := by
  intro hall
  have hrun : (runTrace Sched.step userInit [.call (.create 7), .call (.monitorEnter 0),
      .call (.monitorWait 0), .resume, .call (.monitorEnter 0), .call (.monitorSignal 0)]).map
        (fun r => (r.2.blockedList, (r.2.locks (.monitor 0)).queue)) = some ([], [1]) := by
    decide
  obtain ⟨⟨tr, s⟩, hr, hq⟩ := Option.map_eq_some_iff.mp hrun
  obtain ⟨hb, hqueue⟩ := Prod.mk.inj hq
  have hshown : BlockedShown s := hall tr s (run_of_runTrace _ .nil hr) s (by simp [visited])
  have hlisted : 1 ∈ s.blockedList := (hshown.exactly 1).mpr
    (Or.inr ⟨.monitor 0, by rw [hqueue]; exact List.mem_singleton_self 1⟩)
  rw [hb] at hlisted
  cases hlisted

end Sthreads.User
