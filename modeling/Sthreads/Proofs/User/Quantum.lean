/-
Whether a ready thread has any of its quantum left.

Every thread has, all along a run, as long as only threads of dynamic priority use their
quantum up.  `recalcular` leaves a thread of static priority as it is, so that the
dispatcher files it in `expired_rq` with the quantum of zero that it has just set, and the
first tick of its next epoch uses it up again.  `quantum_left_iff` says that this is the
only way to lose it.
-/
import Sthreads.Proofs.User.ControlBlocks

namespace Sthreads.User

open Sched Runqueue

/-- The running thread and those that are ready have some of their quantum left.  It is asked of the
running thread too because a thread that is filed without any is not in a queue in any state when
it is dispatched again by the tick that files it. -/
def QuantumLeft (s : Sched) : Prop :=
  ∀ t, s.activeThr = some t ∨ t ∈ s.ready → 1 ≤ (s.thr t).quantum

/-- Whatever CPU-bound threads do in the rest of the epoch, a thread that is moved to
`expired_rq` was charged as many ticks as it had left, and at least one. -/
def RunsItsQuantum (s : Sched) : Prop :=
  ∀ tr s' t, t ∈ s.current → Run step s tr s' → (∀ p ∈ tr, p.1.cpuBound p.2 = true) →
    (∀ p ∈ tr, p.1.swaps p.2 = false) → 1 ≤ timesExpired tr t →
      1 ≤ (s.thr t).quantum ∧ (ticksCharged tr t : Int) = (s.thr t).quantum

/-- A thread of static priority that is moved to `expired_rq` gets a whole quantum for the next
epoch. -/
def RenewsStatic (s : Sched) (a : Act) : Prop :=
  ∀ t s', s.expires a t = true → (s.thr t).priority ≤ staticMaxPrio → step s a = some s' →
    (s'.thr t).quantum = quantumBase

/-- The step uses up the quantum of no thread of static priority. -/
def DynamicExpires (s : Sched) (a : Act) : Prop :=
  ∀ t, s.expires a t = true → staticMaxPrio < (s.thr t).priority

variable {s s' : Sched} {t u : Tid} {a : Act}

theorem recalcular_static {v : Thread} (h : v.priority ≤ staticMaxPrio) : recalcular v = v :=
  if_pos h

/-- A thread of dynamic priority leaves `recalcular` with some quantum, whatever it had. -/
theorem recalcular_dynamic {v : Thread} (h : staticMaxPrio < v.priority) :
    1 ≤ (recalcular v).quantum := by
  unfold recalcular
  rw [if_neg (by omega)]
  dsimp only
  split <;> omega

theorem recalcular_quantum {v : Thread} (h : 1 ≤ v.quantum) : 1 ≤ (recalcular v).quantum := by
  by_cases hp : v.priority ≤ staticMaxPrio
  · rw [recalcular_static hp]
    exact h
  · exact recalcular_dynamic (by omega)

/-- The tick that uses a quantum up. -/
theorem Sched.expires_iff (hp : s.PrioInRange) (ht : t ∉ s.sleepThrList) :
    s.expires .tick t = true ↔ s.activeThr = some t ∧ (s.thr t).quantum ≤ 1 := by
  rw [expires, charges, (tickWake_keeps hp).2 t ht]
  simp only [beq_self_eq_true, Bool.true_and, Bool.and_eq_true, beq_iff_eq, decide_eq_true_eq]
  constructor
  · rintro ⟨h, hq⟩
    exact ⟨h, by omega⟩
  · rintro ⟨h, hq⟩
    exact ⟨h, by omega⟩

/-- What is written to a control block leaves some quantum in it, unless the quantum of a thread
of static priority is used up. -/
theorem Writes.quantum {v : Thread} (hw : Writes s t a u v) (hu : 1 ≤ (s.thr u).quantum)
    (hok : a = .tick → u = t → (s.thr u).quantum ≤ 1 → staticMaxPrio < (s.thr u).priority) :
    1 ≤ v.quantum := by
  cases hw with
  | nothing => exact hu
  | create => exact (by decide : (1 : Int) ≤ quantumBase)
  | nice => exact hu
  | recalcular => exact recalcular_quantum hu
  | join => exact hu
  | sleep => exact hu
  | joined => exact hu
  | wake => exact (by decide : (1 : Int) ≤ quantumBase)
  | charge _ _ hq =>
      change 1 ≤ (s.thr u).quantum - 1
      omega
  | expire ha hut hq => exact recalcular_dynamic (hok ha hut hq)

theorem quanta_step (hi : s.Inv) (hq : ∀ u, 1 ≤ (s.thr u).quantum) (hok : DynamicExpires s a)
    (h : step s a = some s') : ∀ u, 1 ≤ (s'.thr u).quantum := by
  obtain ⟨t, ht, -⟩ := step_refines hi h
  intro u
  refine (step_writes hi ht h u).quantum (hq u) fun ha hut hle => ?_
  subst ha hut
  have hu := (step_tick ht h).1
  exact hok u ((expires_iff hi.prio (hi.user_only ht hu).2.2).mpr ⟨ht, hle⟩)

/-- The thread whose quantum is used up is ready or runs again. -/
theorem expired_is_ready (hp : s.PrioInRange) (hq : ¬ 0 < (s.tickWake.thr t).quantum - 1) :
    (s.userDispatcher t).activeThr = some t ∨ t ∈ (s.userDispatcher t).ready := by
  have hd := dispatches_bloquear ((s.tickExpire t).inserirExpired t) t .tick
  rw [userDispatcher_eq, if_neg hq, hd.activeThr, hd.ready]
  have hmem : t ∈ ((s.tickExpire t).inserirExpired t).ready := by
    refine List.mem_append_right _ ?_
    exact (threads_rqInserir _ (tickExpire_prio hp t t) t).mem_iff.mpr List.mem_cons_self
  cases hr : ((s.tickExpire t).inserirExpired t).ready with
  | nil => rw [hr] at hmem; cases hmem
  | cons x rest =>
      rw [hr] at hmem
      exact (List.mem_cons.mp hmem).imp_left fun h => by rw [h]; rfl

/-- A thread of static priority has no quantum left when it is ready again. -/
theorem not_quantumLeft (hi : s.Inv) (hbad : ¬ DynamicExpires s a) (h : step s a = some s') :
    ¬ QuantumLeft s' := by
  unfold DynamicExpires at hbad
  push Not at hbad
  obtain ⟨t, hexp, hnot⟩ := hbad
  have hstatic : (s.thr t).priority ≤ staticMaxPrio := by omega
  have hch : s.charges a t = true := (Bool.and_eq_true_iff.mp hexp).1
  obtain ⟨rfl, ht⟩ : a = .tick ∧ s.activeThr = some t := by simpa [charges] using hch
  obtain ⟨hu, -, rfl⟩ := step_tick ht h
  have hsleep := (hi.user_only ht hu).2.2
  have hself : s.tickWake.thr t = s.thr t := (tickWake_keeps hi.prio).2 t hsleep
  have hq := ((expires_iff hi.prio hsleep).mp hexp).2
  have hlast : ¬ 0 < (s.tickWake.thr t).quantum - 1 := by rw [hself]; omega
  have hthr : ((s.userDispatcher t).thr t).quantum = 0 := by
    rw [userDispatcher_eq, if_neg hlast, (dispatches_bloquear _ t .tick).thr]
    change ((s.tickExpire t).thr t).quantum = 0
    have hblock : (s.tickExpire t).thr t = recalcular { s.thr t with quantum := 0 } := by
      simp [tickExpire, recalcularThr, setThread, tickCharge_thr, hself]
    have hstay : recalcular { s.thr t with quantum := 0 } = { s.thr t with quantum := 0 } :=
      recalcular_static hstatic
    rw [hblock, hstay]
  intro hleft
  have := hleft t (expired_is_ready hi.prio hlast)
  omega

theorem runsItsQuantum (hi : s.Inv) (hq : QuantumLeft s) : RunsItsQuantum s := by
  intro tr s' t ht hrun hcpu hns hexp
  have hleft : 1 ≤ (s.thr t).quantum := by
    rw [current, List.mem_append, Option.mem_toList] at ht
    exact hq t (ht.imp id fun h => List.mem_append_left _ h)
  obtain ⟨-, hin⟩ := inEpoch_run hi hrun hcpu hns ht hleft
  refine ⟨hleft, ?_⟩
  cases hin with
  | toRun h1 h2 h3 h4 h5 => omega
  | expired h1 h2 h3 h4 => exact h3
  | toWait h1 h2 h3 h4 => omega

/--
Every ready thread has some of its quantum left all along a run, runs it before it is
moved to `expired_rq`, and gets a new one there if its priority is static, if and only if
no tick of the run uses up the quantum of a thread of static priority.
-/
theorem quantum_left_iff {tr : List (Sched × Act)} {s : Sched} (h : Run step userInit tr s) :
    ((∀ x ∈ visited tr s, QuantumLeft x ∧ RunsItsQuantum x) ∧
      ∀ p ∈ tr, RenewsStatic p.1 p.2) ↔ ∀ p ∈ tr, DynamicExpires p.1 p.2 := by
  have hiff : (∀ x ∈ visited tr s, QuantumLeft x) ↔ ∀ p ∈ tr, DynamicExpires p.1 p.2 := by
    refine h.visited_iff (fun x => x.Inv ∧ ∀ u, 1 ≤ (x.thr u).quantum) ⟨Inv.init, fun u => ?_⟩
      (fun x hx t _ => hx.2 t)
      (fun x a x' hx hok hs => ⟨hx.1.step hs, quanta_step hx.1 hx.2 hok hs⟩)
      (fun x a x' hx hbad hs => not_quantumLeft hx.1 hbad hs)
    by_cases hu : u = 1
    · subst hu
      decide
    · simp [userInit, Function.update_of_ne hu, newThread, quantumBase]
  constructor
  · rintro ⟨hleft, -⟩
    exact hiff.mp fun x hx => (hleft x hx).1
  · intro hok
    have hleft := hiff.mpr hok
    have hinv := h.visited_of Sched.Inv (fun _ _ => True) Inv.init
      (fun x a x' hx _ hs => hx.step hs) fun p hp => trivial
    refine ⟨fun x hx => ⟨hleft x hx, runsItsQuantum (hinv x hx) (hleft x hx)⟩, ?_⟩
    intro p hp t s' hexp hstatic _
    exact absurd (hok p hp t hexp) (by omega)

/-- A thread of priority 0 computes until its first quantum is used up. -/
def staticExpires : List Act :=
  [.call (.create 0), .call .yield, .resume] ++ List.replicate 5 .tick

/-- It is ready with no quantum, and gets a single tick of its next epoch. -/
theorem static_thread_without_quantum :
    ∃ s tr s', Reaches step userInit s ∧ 2 ∈ s.expiredRq.filas 0 ∧ ¬ 1 ≤ (s.thr 2).quantum ∧
      Run step s tr s' ∧ ticksCharged tr 2 = 1 ∧ timesExpired tr 2 = 1 := by
  have hrun : ((runActs step userInit staticExpires).bind fun s =>
      (runTrace step s ([.resume] ++ List.replicate 7 .tick ++ [.resume, .tick])).map fun r =>
        (s.expiredRq.filas 0, (s.thr 2).quantum, ticksCharged r.1 2, timesExpired r.1 2)) =
      some ([2], 0, 1, 1) := by
    decide +kernel
  obtain ⟨s, hs, hrun⟩ := Option.bind_eq_some_iff.mp hrun
  obtain ⟨⟨tr, s'⟩, htr, hfacts⟩ := Option.map_eq_some_iff.mp hrun
  simp only [Prod.mk.injEq] at hfacts
  obtain ⟨hrq, hq, hcharged, hexpired⟩ := hfacts
  refine ⟨s, tr, s', reaches_runActs _ hs, ?_, ?_, run_of_runTrace _ .nil htr, hcharged, hexpired⟩
  · rw [hrq]
    exact List.mem_singleton_self 2
  · rw [hq]
    decide

/-- The main thread, of dynamic priority, uses its quantum up and gets another. -/
theorem quantum_left_iff_main :
    ∃ tr s, Run step userInit tr s ∧ timesExpired tr 1 = 1 ∧ ∀ x ∈ visited tr s, QuantumLeft x := by
  have hrun : (runTrace step userInit (List.replicate 5 .tick)).map (fun r =>
      (timesExpired r.1 1, r.1.all fun p => p.1.activeThr.all fun t =>
        decide (staticMaxPrio < (p.1.thr t).priority))) = some (1, true) := by
    decide +kernel
  obtain ⟨⟨tr, s⟩, htr, hfacts⟩ := Option.map_eq_some_iff.mp hrun
  simp only [Prod.mk.injEq, List.all_eq_true] at hfacts
  obtain ⟨hexpired, hall⟩ := hfacts
  have htrace : Run step userInit tr s := run_of_runTrace _ .nil htr
  refine ⟨tr, s, htrace, hexpired, fun x hx => ?_⟩
  refine (((quantum_left_iff htrace).mpr fun p hp t hexp => ?_).1 x hx).1
  have hch : p.1.charges p.2 t = true := (Bool.and_eq_true_iff.mp hexp).1
  have hrun : p.1.activeThr = some t := by
    simp only [charges, Bool.and_eq_true, beq_iff_eq] at hch
    exact hch.2
  have hstatic := hall p hp
  rw [hrun, Option.all_some, decide_eq_true_eq] at hstatic
  exact hstatic

end Sthreads.User
