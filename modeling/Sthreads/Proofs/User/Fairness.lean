/-
No ready thread starves while threads compute.

A thread whose quantum is used up goes to `expired_rq`, so the threads that are to run in an epoch
have less and less of their quanta left until nobody is left in `active_rq` and the runqueues are
exchanged.  A thread that is ready therefore gets the processor in every infinite run of ticks and
dispatches, whatever its priority.  The sleepers that ticks wake go to `active_rq` with a quantum
of their own, but there are fewer of them each time.

The measure is, in this order: twice the number of sleepers, and one more as long as the thread is
in `expired_rq`; what is left of the quanta of the epoch; whether the running thread has still to
go on from its switch point.
-/
import Sthreads.Lib.Rank
import Sthreads.Proofs.User.Sleep
import Mathlib.Algebra.Order.BigOperators.Group.List

namespace Sthreads.User

open Sched Runqueue

namespace Sched

/-- What a thread of the epoch counts: its place and the ticks it has left. -/
def share (s : Sched) (t : Tid) : Nat := (s.thr t).quantum.toNat + 1

/-- What the threads of the epoch have left. -/
def load (s : Sched) : Nat := (s.current.map s.share).sum

/-- The running thread has still to go on from its switch point. -/
def switching (s : Sched) : Nat := if s.activeThr.all fun u => s.point u = .user then 0 else 1

/-- The thread is not to run in this epoch. -/
def later (s : Sched) (t : Tid) : Nat := if t ∈ s.activeRq.threads then 0 else 1

/-- What goes down until `t` runs. -/
def waitingMeasure (s : Sched) (t : Tid) : Measure Nat Nat Nat :=
  .of (2 * s.sleepThrList.length + s.later t) s.load s.switching

variable {s s' : Sched} {t u : Tid}

/-! ### The threads of the epoch -/

/-- A thread that gives the processor up leaves the epoch to the threads of `active_rq`. -/
theorem bloquear_current (h : s.activeRq.threads ≠ []) (old : Tid) (p : Point) :
    (s.bloquear old p).current = s.activeRq.threads ∧
      (s.bloquear old p).expiredRq = s.expiredRq ∧ (s.bloquear old p).thr = s.thr := by
  have hkeep : s.trocarSeVazia = s := if_neg fun hv => h (rqVazia_iff.mp hv)
  rw [bloquear, hkeep]
  obtain ⟨hcurrent, hexpired, hthr, -⟩ := current_retirarActive h old p
  exact ⟨hcurrent, hexpired, hthr⟩

/-- With nobody in it, the epoch of the threads of `expired_rq` begins. -/
theorem bloquear_swap (h : s.activeRq.threads = []) (hne : s.expiredRq.threads ≠ [])
    (old : Tid) (p : Point) : (s.bloquear old p).current = s.expiredRq.threads := by
  have hswap : s.trocarSeVazia = s.trocarRunqueues := if_pos (rqVazia_iff.mpr h)
  rw [bloquear, hswap]
  exact (current_retirarActive (s := s.trocarRunqueues) hne old p).1

/-- A tick that nobody is due at wakes nobody. -/
theorem tickWake_quiet (h : ∀ x ∈ s.sleepThrList, s.due x = false) :
    s.tickWake = { s with clock := s.clock + 1 } := by
  have hloop : ∀ (xs : List Tid) (s : Sched) (tmp : List Tid), (∀ x ∈ xs, s.slept x = false) →
      wakeSleepers xs s tmp = (s, tmp ++ xs) := by
    intro xs
    induction xs with
    | nil => intro s tmp _; simp [wakeSleepers]
    | cons j rest ih =>
        intro s tmp hxs
        have hj : ¬ (s.thr j).wakeTime ≤ s.clock := by
          simpa [slept] using hxs j List.mem_cons_self
        rw [wakeSleepers, if_neg hj, ih s (tmp ++ [j]) fun x hx => hxs x (List.mem_cons_of_mem _ hx),
          List.append_assoc]
        rfl
  unfold tickWake
  dsimp only
  rw [hloop s.sleepThrList { s with clock := s.clock + 1 } [] h]
  rfl

/-- The load goes down when one thread of the epoch has less and the others have no more. -/
theorem load_lt (hperm : s'.current.Perm s.current) (hle : ∀ x, s'.share x ≤ s.share x)
    (hu : u ∈ s.current) (hlt : s'.share u < s.share u) : s'.load < s.load := by
  rw [load, load, (hperm.map s'.share).sum_eq]
  exact List.sum_lt_sum _ _ (fun x _ => hle x) ⟨u, hu, hlt⟩

/-- The load goes down when the running thread leaves the epoch. -/
theorem load_lt_of_leaves (hu : s.activeThr = some u) (hcurrent : s'.current = s.activeRq.threads)
    (hle : ∀ x ∈ s.activeRq.threads, s'.share x ≤ s.share x) : s'.load < s.load := by
  have hsplit : s.current = u :: s.activeRq.threads := by
    rw [current, hu]
    rfl
  rw [load, load, hcurrent, hsplit, List.map_cons, List.sum_cons]
  have hsum := List.sum_le_sum hle
  have hpos : 0 < s.share u := Nat.succ_pos _
  omega

/-! ### A ready thread that is not dispatched -/

theorem current_of_running (hu : s.activeThr = some u) :
    s.current = u :: s.activeRq.threads := by
  rw [current, hu]
  rfl

theorem mem_current_of_running (hu : s.activeThr = some u) : u ∈ s.current := by
  rw [current_of_running hu]
  exact List.mem_cons_self

theorem mem_ready : t ∈ s.ready ↔ t ∈ s.activeRq.threads ∨ t ∈ s.expiredRq.threads :=
  List.mem_append

/-- A thread of the epoch that does not run is in `active_rq`. -/
theorem active_of_current (ht : t ∈ s.current) (hrun : s.activeThr ≠ some t) :
    t ∈ s.activeRq.threads := by
  rw [current, List.mem_append, Option.mem_toList] at ht
  exact ht.resolve_left hrun

theorem later_le_one (s : Sched) (t : Tid) : s.later t ≤ 1 := by
  unfold later
  split <;> omega

/-- The thread is ready after the step, and the step has brought it nearer to the processor. -/
structure Nearer (s s' : Sched) (t : Tid) : Prop where
  ready : t ∈ s'.ready
  lt : s'.waitingMeasure t < s.waitingMeasure t

/-- A new epoch has begun. -/
theorem Nearer.of_swap (ht : t ∉ s.activeRq.threads) (ht' : t ∈ s'.activeRq.threads)
    (hsleep : s'.sleepThrList.length ≤ s.sleepThrList.length) : Nearer s s' t := by
  refine ⟨mem_ready.mpr (Or.inl ht'), Measure.lt_first ?_⟩
  rw [later, later, if_pos ht', if_neg ht]
  omega

/-- The epoch goes on, and a thread was woken or the threads of the epoch have less left. -/
theorem Nearer.of_epoch (ht : t ∈ s.ready)
    (hactive : t ∈ s.activeRq.threads → t ∈ s'.activeRq.threads)
    (hexpired : t ∈ s.expiredRq.threads → t ∈ s'.expiredRq.threads)
    (hsleep : s'.sleepThrList.length ≤ s.sleepThrList.length)
    (hload : s'.sleepThrList.length = s.sleepThrList.length → s'.load < s.load) :
    Nearer s s' t := by
  refine ⟨mem_ready.mpr ((mem_ready.mp ht).imp hactive hexpired), ?_⟩
  have hlater : s'.later t ≤ s.later t := by
    by_cases hmem : t ∈ s.activeRq.threads
    · rw [later, if_pos (hactive hmem)]
      exact Nat.zero_le _
    · rw [show s.later t = 1 from if_neg hmem]
      exact later_le_one s' t
  rcases Nat.lt_or_eq_of_le hsleep with hlt | heq
  · have := later_le_one s' t
    exact Measure.lt_first (by omega)
  · exact Measure.lt_second (by omega) (hload heq)

/-- A tick. -/
theorem nearer_tick (hs : Settled s) (hu : s.activeThr = some u) (hpoint : s.point u = .user)
    (ht : t ∈ s.ready) (hrun : (s.userDispatcher u).activeThr ≠ some t) :
    Nearer s (s.userDispatcher u) t := by
  have hp := hs.inv.prio
  have hmem := (tickWake_keeps hp).1
  have hleft : (s.userDispatcher u).sleepThrList = s.sleepThrList.filter fun x => !s.due x :=
    (userDispatcher_lists hp u).2.1.trans (tickWake_queues (Or.inr hs.sleepers_nodup)).2
  have hsleep : (s.userDispatcher u).sleepThrList.length ≤ s.sleepThrList.length := by
    rw [hleft]
    exact List.length_filter_le _ _
  have hquiet : (s.userDispatcher u).sleepThrList.length = s.sleepThrList.length →
      s.tickWake = { s with clock := s.clock + 1 } := by
    intro heq
    apply tickWake_quiet
    rw [hleft, List.length_filter_eq_length_iff] at heq
    simpa using heq
  by_cases hq : 0 < (s.tickWake.thr u).quantum - 1
  · obtain ⟨hcurrent, hexpired, hthr, -⟩ := userDispatcher_goes_on hp hu hq
    refine Nearer.of_epoch ht (fun h => ?_) (fun h => by rwa [hexpired]) hsleep fun heq => ?_
    · apply active_of_current _ hrun
      rw [hcurrent.mem_iff]
      exact List.mem_cons_of_mem _ (hmem t h)
    · -- the running thread was charged
      have hwake := hquiet heq
      rw [hwake] at hq hcurrent
      have hthr' : (s.userDispatcher u).thr =
          Function.update s.thr u { s.thr u with quantum := (s.thr u).quantum - 1 } := by
        rw [hthr, tickCharge_thr, hwake]
      have hcharged : (s.userDispatcher u).share u < s.share u := by
        have hq : 0 < (s.thr u).quantum - 1 := hq
        rw [share, share, hthr', Function.update_self]
        show ((s.thr u).quantum - 1).toNat + 1 < _
        omega
      apply load_lt _ (fun x => ?_) (mem_current_of_running hu) hcharged
      · rwa [current_of_running hu]
      · by_cases hxu : x = u
        · rw [hxu]
          exact Nat.le_of_lt hcharged
        · rw [share, share, hthr', Function.update_of_ne hxu]
  by_cases hnil : s.tickWake.activeRq.threads = []
  · -- `t` is in `expired_rq`, and its epoch begins
    have hnotActive : t ∉ s.activeRq.threads := by
      intro h
      have := hmem t h
      rw [hnil] at this
      cases this
    have hexpired : t ∈ s.expiredRq.threads := (mem_ready.mp ht).resolve_left hnotActive
    have hfiled : t ∈ ((s.tickExpire u).inserirExpired u).expiredRq.threads := by
      have hperm := threads_rqInserir (s.tickExpire u).expiredRq (tickExpire_prio hp u u) u
      rw [show (s.tickExpire u).expiredRq = s.expiredRq from tickWake_expiredRq hp] at hperm
      rw [show ((s.tickExpire u).inserirExpired u).expiredRq = s.expiredRq.rqInserir _ u from
        congrArg (fun rq : Runqueue => rq.rqInserir _ u) (tickWake_expiredRq hp), hperm.mem_iff]
      exact List.mem_cons_of_mem _ hexpired
    refine Nearer.of_swap hnotActive (active_of_current ?_ hrun) hsleep
    have hcurrent := bloquear_swap (s := (s.tickExpire u).inserirExpired u) hnil
      (List.ne_nil_of_mem hfiled) u .tick
    rw [userDispatcher_eq, if_neg hq, hcurrent]
    exact hfiled
  · obtain ⟨hcurrent, hexpired, hthr, -⟩ := userDispatcher_expires hp (Int.not_lt.mp hq) hnil
    refine Nearer.of_epoch ht (fun h => ?_) (fun h => ?_) hsleep fun heq => ?_
    · apply active_of_current _ hrun
      rw [hcurrent]
      exact hmem t h
    · rw [hexpired.mem_iff]
      exact List.mem_cons_of_mem _ h
    · have hwake := hquiet heq
      rw [hwake] at hcurrent hthr
      apply load_lt_of_leaves hu hcurrent
      intro x hx
      have hxu : x ≠ u := by
        intro he
        rw [he] at hx
        exact (hs.inv.user_only hu hpoint).1 hx
      rw [share, share, hthr x hxu]

/-- A dispatched thread goes on. -/
theorem nearer_resume (hu : s.activeThr = some u) (h : s.resume u = some s')
    (ht : t ∈ s.ready) (hrun : s'.activeThr ≠ some t) : Nearer s s' t := by
  obtain ⟨m, -, rfl⟩ | ⟨hpoint, -, v, r, rfl, -⟩ := resume_cases h
  · have hsleep : (s.waitBlock u m).sleepThrList.length = s.sleepThrList.length :=
      congrArg List.length (dispatches_bloquear (s.splx .high) u (.wait m)).sleepThrList
    by_cases hnil : s.activeRq.threads = []
    · have hexpired : t ∈ s.expiredRq.threads := by
        simpa [mem_ready, hnil] using ht
      have hcurrent := bloquear_swap (s := s.splx .high) hnil (List.ne_nil_of_mem hexpired) u
        (.wait m)
      refine Nearer.of_swap (by simp [hnil]) (active_of_current ?_ hrun) (Nat.le_of_eq hsleep)
      rw [waitBlock, hcurrent]
      exact hexpired
    · obtain ⟨hcurrent, hexpired, hthr⟩ := bloquear_current (s := s.splx .high) hnil u (.wait m)
      refine Nearer.of_epoch ht (fun h => ?_) (fun h => ?_) (Nat.le_of_eq hsleep) fun _ => ?_
      · apply active_of_current _ hrun
        rw [waitBlock, hcurrent]
        exact h
      · rw [waitBlock, hexpired]
        exact h
      · apply load_lt_of_leaves hu hcurrent
        intro x _
        rw [share, share, hthr]
        rfl
  · refine ⟨ht, Measure.lt_third (Nat.le_refl _) (Nat.le_refl _) ?_⟩
    simp [switching, hu, hpoint]

end Sched

/-! ### Runs -/

/-- **No ready thread starves.**  From every reachable state, in an infinite run of ticks in which
dispatched threads go on, every thread that is ready gets the processor. -/
theorem ready_thread_runs {s : Sched} (hreach : Reaches step userInit s) {t : Tid}
    (ht : t ∈ s.ready) : ¬ ∃ (run : Nat → Sched) (act : Nat → Act), run 0 = s ∧
      ∀ n, (act n = .tick ∨ act n = .resume) ∧ step (run n) (act n) = some (run (n + 1)) ∧
        (run n).activeThr ≠ some t := by
  intro hruns
  obtain ⟨run, act, hstart, hrun⟩ := hruns
  obtain ⟨tr, htr⟩ := hreach
  -- the steps after which `t` still does not run
  let away : Sched → Act → Option Sched := fun s a =>
    (step s a).filter fun s' => s'.activeThr ≠ some t
  have hends : ¬ ∃ (run : Nat → Sched) (act : Nat → Act), run 0 = s ∧
      ∀ n, (act n = .tick ∨ act n = .resume) ∧ away (run n) (act n) = some (run (n + 1)) := by
    refine no_infinite_run (fun s : Sched => Settled s ∧ t ∈ s.ready)
      (fun a : Act => a = .tick ∨ a = .resume) (fun s => s.waitingMeasure t)
      (fun s a s' hs ha hstep => ?_) ⟨Settled.init.run htr, ht⟩
    obtain ⟨hset, hready⟩ := hs
    obtain ⟨hstep, haway⟩ := Option.filter_eq_some_iff.mp hstep
    have haway : s'.activeThr ≠ some t := by simpa using haway
    obtain ⟨u, hu, -⟩ := step_refines hset.inv hstep
    have hnearer : Nearer s s' t := by
      rcases ha with rfl | rfl
      · obtain ⟨hpoint, -, rfl⟩ := step_tick hu hstep
        exact nearer_tick hset hu hpoint hready haway
      · exact nearer_resume hu (by simpa [step, hu] using hstep) hready haway
    exact ⟨⟨hset.step hstep, hnearer.ready⟩, hnearer.lt⟩
  refine hends ⟨run, act, hstart, fun n => ⟨(hrun n).1, ?_⟩⟩
  exact Option.filter_eq_some_iff.mpr ⟨(hrun n).2.1, by simpa using (hrun (n + 1)).2.2⟩

/-- Thread 2 is created with the worst priority, and the main thread computes. -/
theorem ready_thread_runs_worst : ¬ ∃ (run : Nat → Sched) (act : Nat → Act),
    run 0 = userInit.userCreateP 1 14 ∧ ∀ n, (act n = .tick ∨ act n = .resume) ∧
      step (run n) (act n) = some (run (n + 1)) ∧ (run n).activeThr ≠ some 2 :=
  ready_thread_runs (reaches_runActs [.call (.create 14)] rfl) (by decide)

end Sthreads.User
