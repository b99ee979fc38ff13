/-
Priorities and quanta stay in their classes.

A thread is static or dynamic by the priority it was created with.  `recalcular` decides by
the current priority instead, and the two agree because neither class is ever left: a static
priority is not recalculated, and a dynamic one is clamped to `DYN_MIN_PRIO .. 14`.  The bound
of a dynamic quantum is a fixed point: half of what is left, which is 4 at most, is added to
`QUANTUM_BASE`.
-/
import Sthreads.Proofs.User.Nice

namespace Sthreads.User

open Sched Runqueue

/-- The fields of a control block are those of its class. -/
structure InClass (v : Thread) : Prop where
  base : 0 ≤ v.basePriority ∧ v.basePriority ≤ 14
  static : v.basePriority ≤ staticMaxPrio → v.priority = v.basePriority
  dynamic : dynMinPrio ≤ v.basePriority → dynMinPrio ≤ v.priority ∧ v.priority ≤ 14
  quantum : dynMinPrio ≤ v.basePriority → 1 ≤ v.quantum ∧ v.quantum ≤ 9

/-- After these steps every thread is in its class, its priority is the index of one of the fifteen
queues, and it has the base priority it has always had. -/
structure ClassesKept (tr : List (Sched × Act)) (s : Sched) : Prop where
  inClass : ∀ t : Nat, 1 ≤ t → t < s.tidGen → InClass (s.thr t)
  index : ∀ t : Nat, 1 ≤ t → t < s.tidGen →
    ∃ i : Nat, i < numPriorities ∧ (s.thr t).priority = i
  base : ∀ p ∈ tr, ∀ t : Nat, 1 ≤ t → t < p.1.tidGen →
    (s.thr t).basePriority = (p.1.thr t).basePriority

variable {s s' : Sched} {t u : Tid} {a : Act} {v : Thread}

/-! ### Recalculation -/

theorem clampDynamic_le (p : Int) : clampDynamic p ≤ 14 := (inRange_clampDynamic p).2

/-- `QUANTUM_BASE` and half of what is left: 9 at most if 9 are left at most. -/
theorem recalcular_quantum_le (h : staticMaxPrio < v.priority) (hq : 0 ≤ v.quantum)
    (hle : v.quantum ≤ 9) : (recalcular v).quantum ≤ 9 := by
  have hdiv : v.quantum.tdiv 2 = v.quantum / 2 := Int.tdiv_eq_ediv_of_nonneg hq
  unfold recalcular
  rw [if_neg (by omega)]
  dsimp only
  rw [hdiv, quantumBase]
  split <;> omega

theorem recalcular_base (v : Thread) : (recalcular v).basePriority = v.basePriority := by
  unfold recalcular
  split <;> rfl

/-- Recalculation keeps the class, also of a thread that has used its quantum up. -/
theorem InClass.recalcular (h : InClass v) {q : Int}
    (hq : dynMinPrio ≤ v.basePriority → 0 ≤ q ∧ q ≤ 9) :
    InClass (recalcular { v with quantum := q }) := by
  rcases Int.lt_or_le staticMaxPrio v.basePriority with hdyn | hsta
  · have hd := h.dynamic hdyn
    have hp : staticMaxPrio < ({ v with quantum := q } : Thread).priority := hd.1
    have hbase := recalcular_base { v with quantum := q }
    have hprio : (Sthreads.User.recalcular { v with quantum := q }).priority =
        clampDynamic (v.basePriority - q + v.nice) := by
      rw [Sthreads.User.recalcular, if_neg (Int.not_le.mpr hp)]
    refine ⟨?_, fun hs => ?_, fun _ => ?_, fun _ => ?_⟩
    · rw [hbase]
      exact h.base
    · rw [hbase] at hs
      exact absurd hs (Int.not_le.mpr hdyn)
    · rw [hprio]
      exact ⟨dynMinPrio_le_clampDynamic _, clampDynamic_le _⟩
    · exact ⟨recalcular_dynamic hp, recalcular_quantum_le hp (hq hdyn).1 (hq hdyn).2⟩
  · have hp : ({ v with quantum := q } : Thread).priority ≤ staticMaxPrio := h.static hsta ▸ hsta
    rw [recalcular_static hp]
    have hno : ¬ dynMinPrio ≤ v.basePriority := Int.not_le.mpr (Int.lt_of_le_of_lt hsta (by decide))
    exact ⟨h.base, h.static, fun hd => absurd hd hno, fun hd => absurd hd hno⟩

/-! ### Steps -/

/-- What is written to a control block keeps it in its class. -/
theorem Writes.inClass (hw : Writes s t a u v) (h : InClass (s.thr u)) (hp : InRange v.priority) :
    InClass v := by
  cases hw with
  | nothing => exact h
  | create priority =>
      have hbase : 0 ≤ priority ∧ priority ≤ 14 := hp
      exact ⟨hbase, fun _ => rfl, fun hd => ⟨hd, hbase.2⟩,
        fun _ => (by decide : (1 : Int) ≤ quantumBase ∧ quantumBase ≤ 9)⟩
  | nice => exact ⟨h.base, h.static, h.dynamic, h.quantum⟩
  | recalcular =>
      refine h.recalcular (q := (s.thr u).quantum) fun hd => ?_
      have hq := h.quantum hd
      omega
  | join => exact ⟨h.base, h.static, h.dynamic, h.quantum⟩
  | sleep => exact ⟨h.base, h.static, h.dynamic, h.quantum⟩
  | joined => exact ⟨h.base, h.static, h.dynamic, h.quantum⟩
  | wake =>
      exact ⟨h.base, h.static, h.dynamic,
        fun _ => (by decide : (1 : Int) ≤ quantumBase ∧ quantumBase ≤ 9)⟩
  | charge _ _ hq =>
      refine ⟨h.base, h.static, h.dynamic, fun hd => ?_⟩
      have hle := h.quantum hd
      exact ⟨Int.le_sub_one_of_lt hq, by dsimp only; omega⟩
  | expire => exact h.recalcular fun _ => by decide

/-- Nothing is written to the base priority of a thread that exists. -/
theorem Writes.base (hw : Writes s t a u v) (hu : u < s.tidGen) :
    v.basePriority = (s.thr u).basePriority := by
  cases hw with
  | create priority hnew =>
      rw [hnew] at hu
      exact absurd hu (Nat.lt_irrefl _)
  | recalcular => exact recalcular_base _
  | expire => exact recalcular_base _
  | _ => rfl

/-! ### Runs -/

/-- Every thread is in its class, and those that exist have their first base priority. -/
structure Classed (tr : List (Sched × Act)) (s : Sched) : Prop where
  inv : s.Inv
  all : ∀ u, InClass (s.thr u)
  base : ∀ p ∈ tr, ∀ u, u < p.1.tidGen →
    u < s.tidGen ∧ (s.thr u).basePriority = (p.1.thr u).basePriority

theorem Classed.init : Classed [] userInit := by
  refine ⟨Inv.init, fun u => ?_, by simp⟩
  by_cases hu : u = 1
  · subst hu
    exact ⟨by decide, fun _ => rfl, by decide, by decide⟩
  · have hthr : userInit.thr u = newThread 0 := by
      simp [userInit, Function.update_of_ne hu]
    rw [hthr]
    exact ⟨by decide, fun _ => rfl, by decide, by decide⟩

theorem Classed.step {tr : List (Sched × Act)} (h : Classed tr s) (hs : Sched.step s a = some s') :
    Classed (tr ++ [(s, a)]) s' := by
  obtain ⟨t, ht, href⟩ := step_refines h.inv hs
  have hinv := h.inv.step hs
  have hwrites := step_writes h.inv ht hs
  have hgen : s.tidGen ≤ s'.tidGen := href.effect.tidGen_le
  refine ⟨hinv, fun u => (hwrites u).inClass (h.all u) (hinv.prio u), fun p hp u hu => ?_⟩
  rcases List.mem_append.mp hp with hp | hp
  · obtain ⟨hlt, hbase⟩ := h.base p hp u hu
    exact ⟨Nat.lt_of_lt_of_le hlt hgen, ((hwrites u).base hlt).trans hbase⟩
  · rw [List.mem_singleton.mp hp] at hu ⊢
    exact ⟨Nat.lt_of_lt_of_le hu hgen, (hwrites u).base hu⟩

/-- Priorities and quanta stay in their classes all along a run. -/
theorem classes_kept {tr : List (Sched × Act)} {s : Sched} (h : Run Sched.step userInit tr s) :
    ClassesKept tr s := by
  have hc : Classed tr s := h.history_of Classed (fun _ _ => True) Classed.init
    (fun _ _ _ _ hi _ hs => hi.step hs) fun _ _ => trivial
  refine ⟨fun t _ _ => hc.all t, fun t _ _ => ?_, fun p hp t _ ht => (hc.base p hp t ht).2⟩
  obtain ⟨h0, h14⟩ := hc.inv.prio t
  refine ⟨(s.thr t).priority.toNat, ?_, (Int.toNat_of_nonneg h0).symm⟩
  unfold numPriorities
  omega

/-- Three calls of `sthread_user_yield` in a row bring the quantum of the main thread to its bound. -/
theorem classes_kept_yields :
    ∃ tr s, Run Sched.step userInit tr s ∧ (s.thr 1).quantum = 9 ∧ ClassesKept tr s := by
  have hrun : (runTrace Sched.step userInit [.call (.nice 99), .call .yield, .resume, .call .yield,
      .resume, .call .yield, .resume]).map (fun r => (r.2.thr 1).quantum) = some 9 := by decide
  obtain ⟨⟨tr, s⟩, hr, hq⟩ := Option.map_eq_some_iff.mp hrun
  have h : Run Sched.step userInit tr s := run_of_runTrace _ .nil hr
  exact ⟨tr, s, h, hq, classes_kept h⟩

end Sthreads.User
