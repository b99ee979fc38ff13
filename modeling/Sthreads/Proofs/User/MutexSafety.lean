/-
Mutexes and monitors are safe in every run of the scheduler.

A thread comes back from `sthread_user_mutex_lock`, from `sthread_user_monitor_enter`
or from a `sthread_user_monitor_wait` it called inside the monitor only as the owner
of the lock, and stays the owner until it gives the lock up: `Between` is the stretch
of a run from the one to the other, and two threads are never in it for one lock.

The wait queues are first come, first served.  A thread that waits is in one queue,
once, and leaves the queues only as the new owner of the lock it waited for.
-/
import Sthreads.Lib.Monitor
import Sthreads.Proofs.User.Refine

namespace Sthreads.User

open Sched

/-- The running thread `t` returns to user code from a call that needed `l`. -/
def Returns (s : Sched) (a : Act) (s' : Sched) (t : Tid) (l : Lock) : Prop :=
  s.activeThr = some t ∧ s'.point t = .user ∧
    (a.takes = some l ∨
      (∃ m, a = .call (.monitorWait m) ∧ l = .monitor m ∧ (s.locks l).thr = some t) ∨
      (a = .resume ∧ (s.point t).needs = some l))

/-- The running thread `t` calls a function that gives `l` up. -/
def GivesUp (s : Sched) (a : Act) (t : Tid) (l : Lock) : Prop :=
  s.activeThr = some t ∧ a.givesUp = some l

/-- At the end of the run `t` is between acquiring `l` and giving it up. -/
inductive Between (t : Tid) (l : Lock) : List (Sched × Act) → Sched → Prop
  | acquired {tr : List (Sched × Act)} {s s' : Sched} {a : Act} (hr : Run step userInit tr s)
      (hs : step s a = some s') (h : Returns s a s' t l) : Between t l (tr ++ [(s, a)]) s'
  | kept {tr : List (Sched × Act)} {s s' : Sched} {a : Act} (hb : Between t l tr s)
      (hs : step s a = some s') (h : ¬ GivesUp s a t l) : Between t l (tr ++ [(s, a)]) s'

/-- No thread is twice in the wait queues. -/
structure WaitOnce (s : Sched) : Prop where
  nodupLock : ∀ l, (s.locks l).queue.Nodup
  nodupMon : ∀ m, (s.mons m).Nodup
  oneLock : ∀ t l l', t ∈ (s.locks l).queue → t ∈ (s.locks l').queue → l = l'
  oneMon : ∀ t m m', t ∈ s.mons m → t ∈ s.mons m' → m = m'
  notBoth : ∀ t m l, t ∈ s.mons m → t ∉ (s.locks l).queue

/-- A queue that a step changed at most at one end: it grows at the tail, shrinks at the head. -/
def Fifo (q q' : List Tid) : Prop := q' = q ∨ (∃ t, q' = q ++ [t]) ∨ ∃ t, q = t :: q'

/-- What a step does to the wait queues. -/
structure QueueStep (s : Sched) (a : Act) (s' : Sched) : Prop where
  /-- Whoever gives up a lock with waiters hands it to the oldest of them. -/
  unlock : ∀ t l u rest, GivesUp s a t l → (s.locks l).thr = some t →
    (s.locks l).queue = u :: rest → (s'.locks l).thr = some u ∧ (s'.locks l).queue = rest
  /-- A signal moves the oldest waiter of the monitor to the end of the queue of its mutex. -/
  signal : ∀ t m u rest, s.activeThr = some t → a = .call (.monitorSignal m) →
    (s.locks (.monitor m)).thr = some t → s.mons m = u :: rest →
    s'.mons m = rest ∧ (s'.locks (.monitor m)).queue = (s.locks (.monitor m)).queue ++ [u]
  fifoLock : ∀ l, Fifo (s.locks l).queue (s'.locks l).queue
  fifoMon : ∀ m, Fifo (s.mons m) (s'.mons m)
  /-- Nobody leaves the wait queues but as the owner of the lock whose queue it headed. -/
  kept : ∀ u, Waits s.locks s.mons u → Waits s'.locks s'.mons u ∨
    ∃ l, (s.locks l).queue.head? = some u ∧ (s'.locks l).thr = some u

/-! ### Which function a step runs -/

variable {s s' : Sched} {t : Tid} {a : Act} {l : Lock}

theorem step_call {c : Call} (ht : s.activeThr = some t) (h : step s (.call c) = some s') :
    s.point t = .user ∧ s.call t c = some s' := by
  unfold step at h
  simp only [ht] at h
  split at h
  · rename_i hu
    exact ⟨hu, h⟩
  · cases h

theorem step_takes (ht : s.activeThr = some t) (ha : a.takes = some l) (h : step s a = some s') :
    s.userMutexLock t l = some s' := by
  cases a with
  | call c =>
      have hc := (step_call ht h).2
      cases c <;> simp only [Act.takes, reduceCtorEq, Option.some.injEq] at ha <;> subst ha <;>
        exact hc
  | tick => simp [Act.takes] at ha
  | resume => simp [Act.takes] at ha

theorem step_givesUp (ht : s.activeThr = some t) (ha : a.givesUp = some l)
    (h : step s a = some s') :
    (∃ r, s.userMutexUnlock t l .unlock = some r ∧ r.1 = s') ∨
      ∃ m, l = .monitor m ∧ s.userMonitorWait t m = some s' := by
  cases a with
  | call c =>
      have hc := (step_call ht h).2
      cases c <;> simp only [Act.givesUp, reduceCtorEq, Option.some.injEq] at ha <;> subst ha
      · exact Or.inl (Option.map_eq_some_iff.mp hc)
      · exact Or.inl (Option.map_eq_some_iff.mp hc)
      · exact Or.inr ⟨_, rfl, hc⟩
  | tick => simp [Act.givesUp] at ha
  | resume => simp [Act.givesUp] at ha

/-- A wait inside the monitor does not return at once: the caller is left at a switch point. -/
theorem userMonitorWait_point (hi : s.Inv) {m : Nat} (hown : (s.locks (.monitor m)).thr = some t)
    (h : s.userMonitorWait t m = some s') : s'.point t ≠ .user := by
  rw [userMonitorWait_owner (hi.ok.clear _) hown] at h
  split at h <;> cases h
  · have hreg := hi.prio.registered t m
    rw [(dispatches_granted hreg t _ _).point]
    simp
  · rw [waitBlock, (dispatches_bloquear _ t _).point]
    simp

/-! ### Returning as the owner -/

theorem owner_of_takes (hi : s.Inv) (ha : a.takes = some l) (ht : s.activeThr = some t)
    (h : step s a = some s') (hu : s'.point t = .user) : (s'.locks l).thr = some t := by
  have hlock := step_takes ht ha h
  by_cases hfree : (s.locks l).thr = none
  · rw [userMutexLock_free (hi.ok.clear l) hfree] at hlock
    cases hlock
    simp
  · rw [userMutexLock_taken (hi.ok.clear l) hfree] at hlock
    cases hlock
    rw [(dispatches_bloquear _ t _).point, Function.update_self] at hu
    cases hu

theorem owner_of_resume (hi : s.Inv) (hneed : (s.point t).needs = some l)
    (ht : s.activeThr = some t) (h : step s .resume = some s') (hu : s'.point t = .user) :
    (s'.locks l).thr = some t := by
  have hmem := running_mem_slots ht
  have hcr := hi.ok.placed.created t (Or.inl hmem)
  have hres : s.resume t = some s' := by simpa [step, ht] using h
  obtain ⟨m, hp, rfl⟩ | ⟨-, hne, v, r, rfl, -⟩ := resume_cases hres
  · rw [waitBlock, (dispatches_bloquear _ t _).point, Function.update_self] at hu
    cases hu
  · have hx : (s.point t).extra = 0 := by
      cases hp : s.point t with
      | unlockInWait m => exact absurd hp (hne m)
      | _ => rfl
    exact hi.ok.placed.owner t l hcr.1 hcr.2 hneed (hi.ok.slot_not_waits hmem hx)

theorem owner_of_returns (hi : s.Inv) (h : step s a = some s') (hr : Returns s a s' t l) :
    (s'.locks l).thr = some t := by
  obtain ⟨ht, hu, ha | ⟨m, rfl, rfl, hown⟩ | ⟨rfl, hneed⟩⟩ := hr
  · exact owner_of_takes hi ha ht h hu
  · exact absurd hu (userMonitorWait_point hi hown (step_call ht h).2)
  · exact owner_of_resume hi hneed ht h hu

/-! ### Staying the owner -/

theorem Effect.thr_kept {P P' : Places} {u : Tid} (he : Effect P u a P')
    (hown : (P.locks l).thr = some t) (hne : ¬ (u = t ∧ a.givesUp = some l)) :
    (P'.locks l).thr = some t := by
  have hself : ∀ (l' : Lock) (v : Mutex), (l' = l → v.thr = some t) →
      (Function.update P.locks l' v l).thr = some t := by
    intro l' v hv
    by_cases hl : l = l'
    · subst hl
      rw [Function.update_self]
      exact hv rfl
    · rwa [Function.update_of_ne hl]
  -- whoever gives a lock up owns it
  have hgive : ∀ l' v, a.givesUp = some l' → (P.locks l').thr = some u →
      (Function.update P.locks l' v l).thr = some t := by
    intro l' v ha hu
    refine hself l' v ?_
    rintro rfl
    rw [hu, Option.some.injEq] at hown
    exact absurd ⟨hown, ha⟩ hne
  cases he with
  | stay => exact hown
  | create => exact hown
  | enter => exact hown
  | leave => exact hown
  | finishWait => exact hown
  | acquire _ l' _ hfree =>
      refine hself l' _ ?_
      rintro rfl
      rw [hfree] at hown
      cases hown
  | block _ l' =>
      refine hself l' _ ?_
      rintro rfl
      exact hown
  | unlock _ l' _ ha hu => exact hgive l' _ ha hu
  | unlockPreempted _ l' _ _ ha hu => exact hgive l' _ ha hu
  | wait m _ _ _ hu => exact hgive (.monitor m) _ rfl hu
  | waitPreempted m _ _ hu => exact hgive (.monitor m) _ rfl hu
  | signal m =>
      refine hself (.monitor m) _ ?_
      rintro rfl
      exact hown

theorem Between.run {tr : List (Sched × Act)} (hb : Between t l tr s) :
    Run step userInit tr s := by
  induction hb with
  | acquired hr hs _ => exact hr.snoc hs
  | kept _ hs _ ih => exact ih.snoc hs

theorem owner_of_between {tr : List (Sched × Act)} (hb : Between t l tr s) :
    (s.locks l).thr = some t := by
  induction hb with
  | acquired hr hs hret => exact owner_of_returns (inv_of_run hr) hs hret
  | kept hb hs hng ih =>
      obtain ⟨u, hu, href⟩ := step_refines (inv_of_run hb.run) hs
      refine href.effect.thr_kept ih ?_
      rintro ⟨rfl, hg⟩
      exact hng ⟨hu, hg⟩

/-! ### The wait queues -/

theorem Fifo.tail (q : List Tid) : Fifo q q.tail := by
  cases q with
  | nil => exact Or.inl rfl
  | cons u rest => exact Or.inr (Or.inr ⟨u, rfl⟩)

theorem Fifo.lock {lk : Lock → Mutex} {l : Lock} {v : Mutex} (h : Fifo (lk l).queue v.queue)
    (l' : Lock) : Fifo (lk l').queue (Function.update lk l v l').queue := by
  by_cases hl : l' = l
  · subst hl
    rwa [Function.update_self]
  · rw [Function.update_of_ne hl]
    exact Or.inl rfl

theorem Fifo.mon {mn : Nat → List Tid} {m : Nat} {q : List Tid} (h : Fifo (mn m) q) (m' : Nat) :
    Fifo (mn m') (Function.update mn m q m') := by
  by_cases hm : m' = m
  · subst hm
    rwa [Function.update_self]
  · rw [Function.update_of_ne hm]
    exact Or.inl rfl

theorem Effect.fifo {P P' : Places} (he : Effect P t a P') :
    (∀ l, Fifo (P.locks l).queue (P'.locks l).queue) ∧ ∀ m, Fifo (P.mons m) (P'.mons m) := by
  have hsame : ∀ q, Fifo q q := fun q => Or.inl rfl
  have happ : ∀ (q : List Tid) (x : Tid), Fifo q (q ++ [x]) := fun q x => Or.inr (Or.inl ⟨x, rfl⟩)
  cases he with
  | stay => exact ⟨fun _ => hsame _, fun _ => hsame _⟩
  | create => exact ⟨fun _ => hsame _, fun _ => hsame _⟩
  | enter => exact ⟨fun _ => hsame _, fun _ => hsame _⟩
  | leave => exact ⟨fun _ => hsame _, fun _ => hsame _⟩
  | finishWait => exact ⟨fun _ => hsame _, fun _ => hsame _⟩
  | acquire => exact ⟨Fifo.lock (hsame _), fun _ => hsame _⟩
  | block => exact ⟨Fifo.lock (happ _ _), fun _ => hsame _⟩
  | unlock => exact ⟨Fifo.lock (Fifo.tail _), fun _ => hsame _⟩
  | unlockPreempted => exact ⟨Fifo.lock (Fifo.tail _), fun _ => hsame _⟩
  | wait => exact ⟨Fifo.lock (Fifo.tail _), Fifo.mon (happ _ _)⟩
  | waitPreempted => exact ⟨Fifo.lock (Fifo.tail _), Fifo.mon (happ _ _)⟩
  | signal m u rest _ hmon =>
      exact ⟨Fifo.lock (happ _ _), Fifo.mon (Or.inr (Or.inr ⟨u, hmon⟩))⟩

/-- Handing a lock over takes one thread out of the wait queues: the new owner. -/
theorem waits_handed {lk : Lock → Mutex} {mn : Nat → List Tid} {u : Tid}
    (hw : Waits lk mn u) (l : Lock) :
    Waits (Function.update lk l (lk l).handed) mn u ∨
      ∃ l', (lk l').queue.head? = some u ∧
        (Function.update lk l (lk l).handed l').thr = some u := by
  rcases hw with hm | ⟨l', hl'⟩
  · exact Or.inl (Or.inl hm)
  · by_cases hl : l' = l
    · subst hl
      cases hq : (lk l').queue with
      | nil => simp [hq] at hl'
      | cons x rest =>
          rw [hq] at hl'
          rcases List.mem_cons.mp hl' with rfl | hmem
          · exact Or.inr ⟨l', by simp [hq], by simp [Mutex.handed, hq]⟩
          · exact Or.inl (Or.inr ⟨l', by simpa [Mutex.handed, hq] using hmem⟩)
    · exact Or.inl (Or.inr ⟨l', by rwa [Function.update_of_ne hl]⟩)

theorem waits_append {lk : Lock → Mutex} {mn : Nat → List Tid} {u : Tid} (hw : Waits lk mn u)
    (m : Nat) (x : Tid) : Waits lk (Function.update mn m (mn m ++ [x])) u := by
  refine hw.imp_left ?_
  rintro ⟨m', hm'⟩
  refine ⟨m', ?_⟩
  by_cases hm : m' = m
  · subst hm
    simp [hm']
  · rwa [Function.update_of_ne hm]

/-- A queue that grows keeps its threads waiting. -/
theorem waits_queue {lk : Lock → Mutex} {mn : Nat → List Tid} {u : Tid} (hw : Waits lk mn u)
    {l : Lock} {v : Mutex} (hv : ∀ x ∈ (lk l).queue, x ∈ v.queue) :
    Waits (Function.update lk l v) mn u := by
  refine hw.imp_right ?_
  rintro ⟨l', hl'⟩
  refine ⟨l', ?_⟩
  by_cases hl : l' = l
  · subst hl
    rw [Function.update_self]
    exact hv u hl'
  · rwa [Function.update_of_ne hl]

theorem Effect.waits {P P' : Places} (he : Effect P t a P') {u : Tid}
    (hw : Waits P.locks P.mons u) : Waits P'.locks P'.mons u ∨
      ∃ l, (P.locks l).queue.head? = some u ∧ (P'.locks l).thr = some u := by
  cases he with
  | stay => exact Or.inl hw
  | create => exact Or.inl hw
  | enter => exact Or.inl hw
  | leave => exact Or.inl hw
  | finishWait => exact Or.inl hw
  | acquire => exact Or.inl (waits_queue hw fun x hx => hx)
  | block => exact Or.inl (waits_queue hw fun x hx => List.mem_append_left _ hx)
  | unlock _ l => exact waits_handed hw l
  | unlockPreempted _ l => exact waits_handed hw l
  | wait m => exact waits_handed (waits_append hw m t) (.monitor m)
  | waitPreempted m => exact waits_handed (waits_append hw m t) (.monitor m)
  | signal m x rest _ hmon =>
      refine Or.inl ?_
      by_cases hux : u = x
      · subst hux
        exact Or.inr ⟨.monitor m, by simp⟩
      · have hq := waits_queue (v := ⟨false, (P.locks (.monitor m)).thr,
          (P.locks (.monitor m)).queue ++ [x]⟩) hw fun y hy => List.mem_append_left _ hy
        refine hq.imp_left ?_
        rintro ⟨m', hm'⟩
        refine ⟨m', ?_⟩
        by_cases hm : m' = m
        · subst hm
          rw [hmon] at hm'
          simpa [hux] using hm'
        · change u ∈ Function.update P.mons m rest m'
          rwa [Function.update_of_ne hm]

theorem waitOnce_of_inv (hi : s.Inv) : WaitOnce s := by
  have hpl := hi.ok.placed
  refine ⟨hpl.nodupLock, hpl.nodupMon, ?_, ?_, ?_⟩
  · exact fun t l l' hl hl' => ((hpl.queue_only hl).2 l' hl').symm
  · intro t m m' hm hm'
    rcases hpl.atMon t m hm with hp | hp <;> rcases hpl.atMon t m' hm' with hp' | hp' <;>
      rw [hp] at hp' <;> cases hp' <;> rfl
  · exact fun t m l hm hl => (hpl.queue_only hl).1 m hm

/-- The owner that gives a lock up hands it over, whichever of the functions it called. -/
theorem handed_of_givesUp (hi : s.Inv) (h : step s a = some s') (hg : GivesUp s a t l)
    (hown : (s.locks l).thr = some t) : s'.locks l = (s.locks l).handed := by
  have hc := hi.ok.clear l
  have hgranted : ∀ s₀ : Sched, s₀.PrioInRange → s₀.locks = s.locks →
      (s₀.granted l).locks l = (s.locks l).handed := by
    intro s₀ hp hlk
    have hpl : (s₀.granted l).locks = Function.update s₀.locks l (s₀.locks l).handed :=
      congrArg Places.locks (granted_spec hp l).1
    rw [hpl, hlk, Function.update_self]
  obtain ⟨r, hr, rfl⟩ | ⟨m, rfl, hw⟩ := step_givesUp hg.1 hg.2 h
  · rw [userMutexUnlock_owner hc hown] at hr
    split at hr <;> cases hr
    · rw [(dispatches_granted hi.prio t l .unlock).locks]
      exact hgranted s hi.prio rfl
    · exact hgranted s hi.prio rfl
  · have hreg := hi.prio.registered t m
    rw [userMonitorWait_owner hc hown] at hw
    split at hw <;> cases hw
    · rw [(dispatches_granted hreg t _ _).locks]
      exact hgranted _ hreg rfl
    · rw [waitBlock, (dispatches_bloquear _ t _).locks]
      exact hgranted _ hreg rfl

theorem queueStep_of_inv (hi : s.Inv) (h : step s a = some s') : QueueStep s a s' := by
  obtain ⟨u, hu, href⟩ := step_refines hi h
  refine ⟨?_, ?_, href.effect.fifo.1, href.effect.fifo.2, fun x hx => href.effect.waits hx⟩
  · intro t l x rest hg hown hq
    rw [handed_of_givesUp hi h hg hown]
    simp [Mutex.handed, hq]
  · rintro t m x rest ht rfl hown hmon
    have hs : s.userMonitorSignal t m = some s' := (step_call ht h).2
    rw [userMonitorSignal_cons (hi.ok.clear _) hown hmon] at hs
    cases hs
    simp [setLock, setMon]

/-! ### The monitors of the scheduler are Mesa monitors -/

/-- A monitor of the scheduler: the owner and the queue of its mutex, and its waiters. -/
def monitorOf (s : Sched) (m : Nat) : Monitor Tid :=
  { owner := (s.locks (.monitor m)).thr, entry := (s.locks (.monitor m)).queue
    waiting := s.mons m }

theorem Monitor.exit_eq (v : Monitor Tid) :
    v.exit = ⟨v.entry.head?, v.entry.tail, v.waiting⟩ := by
  unfold Monitor.exit
  cases v.entry <;> rfl

theorem monitorOf_wait (hi : s.Inv) {m : Nat} (ht : s.activeThr = some t)
    (hown : (s.locks (.monitor m)).thr = some t)
    (h : step s (.call (.monitorWait m)) = some s') :
    monitorOf s' m = (monitorOf s m).wait t := by
  have hlk := handed_of_givesUp hi h ⟨ht, rfl⟩ hown
  have hw : s.userMonitorWait t m = some s' := (step_call ht h).2
  have hreg := hi.prio.registered t m
  have hmn : s'.mons m = s.mons m ++ [t] := by
    rw [userMonitorWait_owner (hi.ok.clear _) hown] at hw
    have hgr : ((s.registered t m).granted (.monitor m)).mons = (s.registered t m).mons :=
      congrArg Places.mons (granted_spec hreg (.monitor m)).1
    have hself : (s.registered t m).mons m = s.mons m ++ [t] := Function.update_self _ _ _
    split at hw <;> cases hw
    · rw [(dispatches_granted hreg t _ _).mons, ← hself, ← hgr]
      rfl
    · rw [waitBlock, (dispatches_bloquear _ t _).mons, ← hself, ← hgr]
      rfl
  rw [Monitor.wait, Monitor.exit_eq, monitorOf, hlk, hmn]
  rfl

theorem monitorOf_signal (hi : s.Inv) {m : Nat} (ht : s.activeThr = some t)
    (hown : (s.locks (.monitor m)).thr = some t)
    (h : step s (.call (.monitorSignal m)) = some s') :
    monitorOf s' m = (monitorOf s m).signal := by
  have hs : s.userMonitorSignal t m = some s' := (step_call ht h).2
  cases hmon : s.mons m with
  | nil =>
      rw [userMonitorSignal_nil (hi.ok.clear _) hown hmon] at hs
      cases hs
      simp [monitorOf, Monitor.signal, hmon]
  | cons u rest =>
      rw [userMonitorSignal_cons (hi.ok.clear _) hown hmon] at hs
      cases hs
      simp [monitorOf, Monitor.signal, hmon, setLock, setMon]

/-- Mutex and monitor safety, in every state the scheduler reaches. -/
theorem mutex_monitor_safety {tr : List (Sched × Act)} {s : Sched} (h : Run step userInit tr s) :
    (∀ a s' t l, step s a = some s' → Returns s a s' t l → (s'.locks l).thr = some t) ∧
      (∀ t l, Between t l tr s → (s.locks l).thr = some t) ∧
      (∀ t u l, Between t l tr s → Between u l tr s → t = u) ∧
      (∀ l, (s.locks l).thr = none → (s.locks l).queue = []) ∧
      WaitOnce s ∧ ∀ a s', step s a = some s' → QueueStep s a s' := by
  have hi := inv_of_run h
  refine ⟨fun a s' t l hs hr => owner_of_returns hi hs hr, fun t l hb => owner_of_between hb, ?_,
    hi.ok.placed.empty, waitOnce_of_inv hi, fun a s' hs => queueStep_of_inv hi hs⟩
  intro t u l ht hu
  have howner := owner_of_between hu
  rw [owner_of_between ht, Option.some.injEq] at howner
  exact howner

/-- The main thread waits on a monitor, thread 2 signals it and hands the monitor over to it, and
waits for the monitor again: the main thread comes back from its wait, and no other holds it. -/
theorem mutex_monitor_safety_handed_over : ∃ tr s, Run step userInit tr s ∧
    (s.locks (.monitor 0)).queue = [2] ∧ Between 1 (.monitor 0) tr s ∧
    (s.locks (.monitor 0)).thr = some 1 ∧ ∀ t, Between t (.monitor 0) tr s → t = 1 := by
  have hrun : (runTrace step userInit [.call (.create 0), .call (.monitorEnter 0),
      .call (.monitorWait 0), .resume, .call (.monitorEnter 0), .call (.monitorSignal 0),
      .call (.monitorExit 0), .call (.monitorEnter 0)]).bind (fun r =>
        (step r.2 .resume).map fun s' => (r.2.activeThr, (r.2.point 1).needs, s'.point 1,
          (s'.locks (.monitor 0)).queue)) =
      some (some 1, some (.monitor 0), .user, [2]) := by
    decide
  obtain ⟨⟨tr, s⟩, hr, hlast⟩ := Option.bind_eq_some_iff.mp hrun
  obtain ⟨s', hs, hval⟩ := Option.map_eq_some_iff.mp hlast
  simp only [Prod.mk.injEq] at hval
  obtain ⟨hactive, hneeds, hpoint, hqueue⟩ := hval
  have h : Run step userInit tr s := run_of_runTrace _ .nil hr
  have hb : Between 1 (.monitor 0) (tr ++ [(s, .resume)]) s' :=
    Between.acquired h hs ⟨hactive, hpoint, Or.inr (Or.inr ⟨rfl, hneeds⟩)⟩
  obtain ⟨-, howner, hone, -⟩ := mutex_monitor_safety (h.snoc hs)
  exact ⟨_, s', h.snoc hs, hqueue, hb, howner 1 _ hb, fun t ht => hone t 1 _ ht hb⟩

end Sthreads.User
