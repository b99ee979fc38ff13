/-
What one call of the dispatcher does to the queues.

A tick wakes the sleepers that are due, charges the running thread, and then does one of
four things: the thread goes on, it is preempted by a thread of better priority, it is
filed in `expired_rq`, or it is filed there and the runqueues are exchanged because
nobody else is left in `active_rq`.  `TickQueues` lists them with the queues before and
after, so that the order within a priority can be read off: threads leave a queue at the
front and join it at the back.

Nothing here is about reachable states.  `Tickable` is all the dispatcher needs.
-/
import Sthreads.Proofs.User.Epoch
import Sthreads.Proofs.User.LastThread

namespace Sthreads.User

open Sched Runqueue

namespace Sched

/-- The priorities of the threads. -/
def prio (s : Sched) (t : Tid) : Int := (s.thr t).priority

/-- The clock of the next tick is past the time the thread sleeps to. -/
def due (s : Sched) (t : Tid) : Bool := decide ((s.thr t).wakeTime ≤ s.clock + 1)

/-- The sleepers of priority `p` that the next tick wakes, oldest first. -/
def dueAt (s : Sched) (p : Int) : List Tid :=
  s.sleepThrList.filter fun t => s.due t && decide (s.prio t = p)

/-- What queue `p` gets when `t` is filed. -/
def filedAt (s : Sched) (t : Tid) (p : Int) : List Tid := if p = s.prio t then [t] else []

end Sched

/-- A state in which the dispatcher can be called: `t` runs and is in no queue, the priorities
are in range and are those under which the threads are filed.  The clock starts at 1 and counts
up; where it is negative, nobody may sleep twice. -/
structure Tickable (s : Sched) (t : Tid) : Prop where
  running : s.activeThr = some t
  notActive : t ∉ s.activeRq.threads
  notExpired : t ∉ s.expiredRq.threads
  notSleeping : t ∉ s.sleepThrList
  inRange : s.PrioInRange
  active : s.activeRq.Filed s.prio
  expired : s.expiredRq.Filed s.prio
  sleepers : 0 ≤ s.clock ∨ s.sleepThrList.Nodup

/-- The queues after a tick in which `t` ran; `u` is the thread that runs afterwards. -/
inductive TickQueues (s s' : Sched) (t : Tid) : Tid → Prop
  /-- `t` goes on. -/
  | goesOn (hq : 1 < (s.thr t).quantum)
      (hact : ∀ p, s'.activeRq.filas p = s.activeRq.filas p ++ s.dueAt p)
      (hexp : s'.expiredRq = s.expiredRq) : TickQueues s s' t t
  /-- A thread of better priority preempts `t`, which joins `active_rq`. -/
  | preempted (u : Tid) (hq : 1 < (s.thr t).quantum) (hu : s'.prio u < s'.prio t)
      (hact : ∀ p, s'.filedAt u p ++ s'.activeRq.filas p =
        s.activeRq.filas p ++ s.dueAt p ++ s'.filedAt t p)
      (hexp : s'.expiredRq = s.expiredRq) : TickQueues s s' t u
  /-- The quantum of `t` is used up, and `t` joins `expired_rq`. -/
  | expires (u : Tid) (hq : (s.thr t).quantum ≤ 1)
      (hact : ∀ p, s'.filedAt u p ++ s'.activeRq.filas p = s.activeRq.filas p ++ s.dueAt p)
      (hexp : ∀ p, s'.expiredRq.filas p = s.expiredRq.filas p ++ s'.filedAt t p) :
      TickQueues s s' t u
  /-- The same with nobody left in `active_rq`: the runqueues are exchanged. -/
  | swaps (u : Tid) (hq : (s.thr t).quantum ≤ 1)
      (hnobody : ∀ i : Nat, i < numPriorities → s.activeRq.filas i ++ s.dueAt i = [])
      (hact : ∀ p, s'.filedAt u p ++ s'.activeRq.filas p =
        s.expiredRq.filas p ++ s'.filedAt t p)
      (hexp : s'.expiredRq.threads = []) : TickQueues s s' t u

namespace Sched

variable {s w : Sched} {t : Tid}

/-! ### Waking the sleepers -/

/-- What the loop of `sthread_user_dispatcher` does with a sleeper that is due. -/
def wake (s : Sched) (t : Tid) : Sched :=
  (s.setThread t { s.thr t with wakeTime := 0, quantum := quantumBase }).inserirActive t

/-- The test the loop makes, after the clock was advanced. -/
def slept (s : Sched) (t : Tid) : Bool := decide ((s.thr t).wakeTime ≤ s.clock)

theorem wake_prio (s : Sched) (t u : Tid) : (s.wake t).prio u = s.prio u := by
  unfold prio wake inserirActive setThread
  by_cases hu : u = t
  · subst hu
    simp
  · simp [Function.update_of_ne hu]

/-- A thread that was woken is due whether or not it sleeps once more. -/
theorem wake_slept {u : Tid} (ht : s.slept t = true) (h : 0 ≤ s.clock ∨ u ≠ t) :
    (s.wake t).slept u = s.slept u := by
  unfold slept wake inserirActive setThread
  by_cases hu : u = t
  · subst hu
    have hclock := h.resolve_right fun hne => hne rfl
    simpa [slept, hclock] using ht
  · simp [Function.update_of_ne hu]

theorem wake_filas (s : Sched) (t : Tid) (p : Int) :
    (s.wake t).activeRq.filas p = s.activeRq.filas p ++ s.filedAt t p := by
  have hfila := rqInserir_filas s.activeRq ((s.wake t).prio t) p t
  rw [wake_prio] at hfila
  rw [filedAt, ← hfila, ← wake_prio s t t]
  rfl

/-- The loop over the sleepers files those that are due and leaves the others in their order. -/
theorem wakeSleepers_queues :
    ∀ (xs : List Tid) (s : Sched) (tmp : List Tid), (0 ≤ s.clock ∨ xs.Nodup) →
      (∀ p, (wakeSleepers xs s tmp).1.activeRq.filas p =
        s.activeRq.filas p ++ xs.filter fun t => s.slept t && decide (s.prio t = p)) ∧
      (wakeSleepers xs s tmp).2 = tmp ++ xs.filter fun t => !s.slept t := by
  intro xs
  induction xs with
  | nil => intro s tmp _; simp [wakeSleepers]
  | cons j rest ih =>
      intro s tmp hs
      have hrest : 0 ≤ s.clock ∨ rest.Nodup := hs.imp_right fun h => (List.nodup_cons.mp h).2
      by_cases hj : s.slept j = true
      · have hloop : wakeSleepers (j :: rest) s tmp = wakeSleepers rest (s.wake j) tmp := by
          rw [wakeSleepers, if_pos (by simpa [slept] using hj)]
          rfl
        have hslept : ∀ u ∈ rest, (s.wake j).slept u = s.slept u := by
          intro u hu
          refine wake_slept hj (hs.imp_right fun h huj => ?_)
          exact (List.nodup_cons.mp h).1 (huj ▸ hu)
        obtain ⟨hact, hleft⟩ := ih (s.wake j) tmp hrest
        rw [hloop]
        refine ⟨fun p => ?_, ?_⟩
        · have hfilter : (rest.filter fun u => (s.wake j).slept u && decide ((s.wake j).prio u = p))
              = rest.filter fun u => s.slept u && decide (s.prio u = p) :=
            List.filter_congr fun u hu => by rw [hslept u hu, wake_prio]
          rw [hact p, wake_filas, hfilter, List.append_assoc, List.filter_cons, hj, filedAt]
          by_cases hp : s.prio j = p
          · simp [hp]
          · simp [hp, Ne.symm hp]
        · rw [hleft, List.filter_cons_of_neg (by simp [hj])]
          congr 1
          exact List.filter_congr fun u hu => congrArg (!·) (hslept u hu)
      · have hloop : wakeSleepers (j :: rest) s tmp = wakeSleepers rest s (tmp ++ [j]) := by
          rw [wakeSleepers, if_neg (by simpa [slept] using hj)]
        obtain ⟨hact, hleft⟩ := ih s (tmp ++ [j]) hrest
        rw [hloop]
        refine ⟨fun p => ?_, ?_⟩
        · rw [hact p, List.filter_cons_of_neg (by simp [hj])]
        · rw [hleft, List.filter_cons_of_pos (by simp [hj]), List.append_assoc,
            List.singleton_append]

theorem tickWake_clock (hp : s.PrioInRange) : s.tickWake.clock = s.clock + 1 := by
  have hwake := refiles_wakeSleepers s.sleepThrList { s with clock := s.clock + 1 } [] hp
  obtain ⟨th, a, heq, -, -⟩ := hwake
  change (wakeSleepers s.sleepThrList { s with clock := s.clock + 1 } []).1.clock = s.clock + 1
  rw [heq]

theorem tickWake_prio (hp : s.PrioInRange) (u : Tid) : s.tickWake.prio u = s.prio u := by
  have hwake := refiles_wakeSleepers s.sleepThrList { s with clock := s.clock + 1 } [] hp
  obtain ⟨th, a, heq, hth, -⟩ := hwake
  change ((wakeSleepers s.sleepThrList { s with clock := s.clock + 1 } []).1.thr u).priority = _
  rw [heq]
  exact hth u

/-- The lists after the sleepers that are due were woken. -/
theorem tickWake_queues (h : 0 ≤ s.clock ∨ s.sleepThrList.Nodup) :
    (∀ p, s.tickWake.activeRq.filas p = s.activeRq.filas p ++ s.dueAt p) ∧
      s.tickWake.sleepThrList = s.sleepThrList.filter fun t => !s.due t := by
  have hclock : 0 ≤ s.clock + 1 ∨ s.sleepThrList.Nodup := h.imp_left fun hc => by omega
  exact wakeSleepers_queues s.sleepThrList { s with clock := s.clock + 1 } [] hclock

theorem mem_dueAt {p : Int} {u : Tid} (hu : u ∈ s.dueAt p) :
    u ∈ s.sleepThrList ∧ s.prio u = p := by
  rw [dueAt, List.mem_filter, Bool.and_eq_true, decide_eq_true_eq] at hu
  exact ⟨hu.1, hu.2.2⟩

/-! ### Dispatching the best thread -/

/-- `rq_retirar` on an `active_rq` with threads in it, queue by queue. -/
theorem retirarActive_best (hf : w.activeRq.Filed w.prio) (hne : w.activeRq.threads ≠ []) :
    ∃ u rq, w.retirarActive = { w with activeThr := some u, activeRq := rq } ∧
      (∀ v ∈ rq.threads, w.prio u ≤ w.prio v) ∧
      ∀ p, w.filedAt u p ++ rq.filas p = w.activeRq.filas p := by
  unfold retirarActive
  cases hr : w.activeRq.rqRetirar with
  | none => exact absurd (rqRetirar_none.mp hr) hne
  | some pr =>
      obtain ⟨u, rq⟩ := pr
      obtain ⟨-, hbest, hfilas⟩ := hf.rqRetirar hr
      exact ⟨u, rq, rfl, hbest, hfilas⟩

/-- The same, with the switch, for a state in which no thread is better than one that was
filed last. -/
theorem melhorPrio_best (hf : w.activeRq.Filed w.prio)
    (hbest : ¬(w.activeRq.rqMelhorPrio ≠ -1 ∧ w.activeRq.rqMelhorPrio < w.prio t)) :
    ∀ v ∈ w.activeRq.threads, w.prio t ≤ w.prio v := by
  intro v hv
  obtain ⟨i, hi, hvi⟩ := mem_threads.mp hv
  obtain ⟨hne, hle⟩ := rqMelhorPrio_le hi (List.ne_nil_of_mem hvi)
  have hvp : w.prio v = i := hf i hi v hvi
  have : ¬ w.activeRq.rqMelhorPrio < w.prio t := fun hlt => hbest ⟨hne, hlt⟩
  omega

end Sched

namespace Tickable

variable {s : Sched} {t : Tid}

/-- The sleepers that were woken are filed under their own priority too. -/
theorem filed_tickWake (h : Tickable s t) : s.tickWake.activeRq.Filed s.prio := by
  intro i hi u hu
  rw [(tickWake_queues h.sleepers).1, List.mem_append] at hu
  rcases hu with hu | hu
  · exact h.active i hi u hu
  · exact (mem_dueAt hu).2

/-- The running thread is in no queue after the sleepers were woken. -/
theorem notWoken (h : Tickable s t) : t ∉ s.tickWake.activeRq.threads := by
  intro ht
  obtain ⟨i, hi, hti⟩ := mem_threads.mp ht
  rw [(tickWake_queues h.sleepers).1, List.mem_append] at hti
  rcases hti with hti | hti
  · exact h.notActive (mem_threads.mpr ⟨i, hi, hti⟩)
  · exact h.notSleeping (mem_dueAt hti).1

theorem quantum_tickWake (h : Tickable s t) :
    (s.tickWake.thr t).quantum = (s.thr t).quantum := by
  rw [(tickWake_keeps h.inRange).2 t h.notSleeping]

theorem tickCharge_prio_eq (h : Tickable s t) : (s.tickCharge t).prio = s.prio := by
  funext u
  rw [← tickWake_prio h.inRange u, Sched.prio, tickCharge_thr]
  by_cases hu : u = t
  · subst hu
    rw [Function.update_self]
    rfl
  · rw [Function.update_of_ne hu]
    rfl

theorem tickExpire_prio_eq (h : Tickable s t) {u : Tid} (hu : u ≠ t) :
    (s.tickExpire t).prio u = s.prio u := by
  rw [← tickWake_prio h.inRange u, Sched.prio, tickExpire_thr s hu]
  rfl

/-! ### The cases of the dispatcher -/

/-- What is said of the thread that runs after a tick. -/
def Best (s s' : Sched) (t u : Tid) : Prop :=
  s'.activeThr = some u ∧ (∀ v ∈ s'.activeRq.threads, s'.prio u ≤ s'.prio v) ∧
    TickQueues s s' t u

/-- The quantum is not used up. -/
theorem best_goesOn (h : Tickable s t) (hq : 1 < (s.thr t).quantum) :
    ∃ u, Best s (s.userDispatcher t) t u := by
  have hquantum : 0 < (s.tickWake.thr t).quantum - 1 := by
    rw [h.quantum_tickWake]
    omega
  have hexp : (s.tickCharge t).expiredRq = s.expiredRq := tickWake_expiredRq h.inRange
  have hprio := h.tickCharge_prio_eq
  have hqueues := (tickWake_queues h.sleepers).1
  have hfiled : (s.tickCharge t).activeRq.Filed (s.tickCharge t).prio := by
    rw [hprio]
    exact h.filed_tickWake
  rw [userDispatcher_eq, if_pos hquantum]
  by_cases hbetter : (s.tickCharge t).activeRq.rqMelhorPrio ≠ -1 ∧
      (s.tickCharge t).activeRq.rqMelhorPrio < ((s.tickCharge t).thr t).priority
  · rw [if_pos hbetter]
    have hne := inserirActive_ne_nil (tickCharge_prio h.inRange t) t
    obtain ⟨u, rq, heq, hbest, hfilas⟩ :=
      retirarActive_best (w := (s.tickCharge t).inserirActive t) (hfiled.rqInserir t) hne
    have hinserir : ∀ p, ((s.tickCharge t).inserirActive t).activeRq.filas p =
        s.activeRq.filas p ++ s.dueAt p ++ (s.tickCharge t).filedAt t p := fun p => by
      rw [← hqueues p]
      exact rqInserir_filas _ _ _ _
    -- the thread that is better than `t` is not better than the one dispatched
    have hlt : (s.tickCharge t).prio u < (s.tickCharge t).prio t := by
      obtain ⟨i, hi, hmelhor, hnil⟩ := rqMelhorPrio_mem hbetter.1
      obtain ⟨v, hv⟩ := List.exists_mem_of_ne_nil _ hnil
      have hvi : (s.tickCharge t).prio v = i := hfiled i hi v hv
      have hle : (s.tickCharge t).prio u ≤ (s.tickCharge t).prio v := by
        have hmem : v ∈ ((s.tickCharge t).inserirActive t).activeRq.filas i := by
          rw [hinserir, ← hqueues]
          exact List.mem_append_left _ hv
        rw [← hfilas i, List.mem_append] at hmem
        rcases hmem with hmem | hmem
        · unfold filedAt at hmem
          split at hmem
          · exact Int.le_of_eq (congrArg _ (List.mem_singleton.mp hmem).symm)
          · cases hmem
        · exact hbest v (mem_threads.mpr ⟨i, hi, hmem⟩)
      have hgt := hbetter.2
      rw [hmelhor, ← hvi] at hgt
      exact Int.lt_of_le_of_lt hle hgt
    rw [heq]
    exact ⟨u, rfl, hbest, .preempted u hq hlt (fun p => (hfilas p).trans (hinserir p)) hexp⟩
  · rw [if_neg hbetter]
    obtain ⟨-, -, hf, -⟩ := tickWake_spec h.inRange
    refine ⟨t, hf.activeThr.trans h.running, melhorPrio_best hfiled hbetter, ?_⟩
    exact .goesOn hq hqueues hexp

/-- The quantum is used up. -/
theorem best_expires (h : Tickable s t) (hq : (s.thr t).quantum ≤ 1) :
    ∃ u, Best s (s.userDispatcher t) t u := by
  have hquantum : ¬ 0 < (s.tickWake.thr t).quantum - 1 := by
    rw [h.quantum_tickWake]
    omega
  have hexp : (s.tickExpire t).expiredRq = s.expiredRq := tickWake_expiredRq h.inRange
  have hqueues := (tickWake_queues h.sleepers).1
  -- the priority of `t` changes, and `t` is in no queue
  have hactive : (s.tickExpire t).activeRq.Filed (s.tickExpire t).prio := by
    refine h.filed_tickWake.congr fun v hv => h.tickExpire_prio_eq ?_
    rintro rfl
    exact h.notWoken hv
  have hexpired : (s.tickExpire t).expiredRq.Filed (s.tickExpire t).prio := by
    rw [hexp]
    refine h.expired.congr fun v hv => h.tickExpire_prio_eq ?_
    rintro rfl
    exact h.notExpired hv
  have hinserir : ∀ p, ((s.tickExpire t).inserirExpired t).expiredRq.filas p =
      s.expiredRq.filas p ++ (s.tickExpire t).filedAt t p := fun p => by
    rw [← hexp]
    exact rqInserir_filas _ _ _ _
  rw [userDispatcher_eq, if_neg hquantum, bloquear]
  by_cases hv : ((s.tickExpire t).inserirExpired t).activeRq.rqVazia = true
  · rw [trocarSeVazia, if_pos hv]
    have hnil := rqVazia_iff.mp hv
    have hne : ((s.tickExpire t).inserirExpired t).expiredRq.threads ≠ [] :=
      rqInserir_ne_nil _ (tickExpire_prio h.inRange t t) t
    obtain ⟨u, rq, heq, hbest, hfilas⟩ := retirarActive_best
      (w := ((s.tickExpire t).inserirExpired t).trocarRunqueues) (hexpired.rqInserir t) hne
    rw [heq]
    refine ⟨u, rfl, hbest, .swaps u hq (fun i hi => ?_)
      (fun p => (hfilas p).trans (hinserir p)) hnil⟩
    rw [← hqueues]
    exact (List.flatMap_eq_nil_iff.mp hnil) i (List.mem_range.mpr hi)
  · rw [trocarSeVazia, if_neg hv]
    obtain ⟨u, rq, heq, hbest, hfilas⟩ := retirarActive_best
      (w := (s.tickExpire t).inserirExpired t) hactive fun hc => hv (rqVazia_iff.mpr hc)
    rw [heq]
    exact ⟨u, rfl, hbest, .expires u hq (fun p => (hfilas p).trans (hqueues p)) hinserir⟩

end Tickable

/-! ### Conservation -/

namespace Sched

/-- The threads that run, are ready or sleep. -/
def scheduled (s : Sched) : List Tid :=
  s.activeThr.toList ++ (s.activeRq.threads ++ (s.expiredRq.threads ++ s.sleepThrList))

variable {s : Sched} {t : Tid}

theorem slots_userDispatcher (hp : s.PrioInRange) (ht : s.activeThr = some t) :
    (s.userDispatcher t).slots = s.slots := by
  obtain ⟨s₁, hoff, hp', hf, -, heq | hd | hd⟩ := userDispatcher_spec hp t
  · rw [heq, slots_eq, hoff, hf.activeThr, ← slots_eq]
  · rw [hd.slots, offCpu_inserirActive hp', hoff, slots_of_running ht]
  · rw [hd.slots, offCpu_inserirExpired hp', hoff, slots_of_running ht]

/-- A tick moves no thread into or out of the other lists. -/
theorem userDispatcher_lists (hp : s.PrioInRange) (t : Tid) :
    (s.userDispatcher t).clock = s.tickWake.clock ∧
      (s.userDispatcher t).sleepThrList = s.tickWake.sleepThrList ∧
      (s.userDispatcher t).joinThrList = s.joinThrList ∧
      (s.userDispatcher t).zombieThrList = s.zombieThrList ∧
      (s.userDispatcher t).deadThrList = s.deadThrList := by
  obtain ⟨-, -, hjoin, hzombie, hdead⟩ := tickWake_lists hp
  rw [userDispatcher_eq]
  split
  · split
    · obtain ⟨a, e, heq, -⟩ :=
        dispatches_retirarActive (inserirActive_ne_nil (tickCharge_prio hp t) t) t .tick
      rw [heq]
      exact ⟨rfl, rfl, hjoin, hzombie, hdead⟩
    · exact ⟨rfl, rfl, hjoin, hzombie, hdead⟩
  · obtain ⟨a, e, heq, -⟩ := dispatches_bloquear ((s.tickExpire t).inserirExpired t) t .tick
    rw [heq]
    exact ⟨rfl, rfl, hjoin, hzombie, hdead⟩

theorem scheduled_userDispatcher (hp : s.PrioInRange) (ht : s.activeThr = some t) :
    (s.userDispatcher t).scheduled.Perm s.scheduled := by
  obtain ⟨-, -, hjoin, hzombie, hdead⟩ := userDispatcher_lists hp t
  rw [List.perm_iff_count]
  intro x
  have hslots := congrArg (Multiset.count x) (slots_userDispatcher hp ht)
  rw [count_slots, count_slots, hjoin, hzombie, hdead] at hslots
  simp only [scheduled, current, List.count_append] at hslots ⊢
  omega

end Sched

/--
One call of the dispatcher.

No thread is lost or doubled.  The sleepers that are due leave `sleep_thr_list`, where the
others keep their order, for the ends of their queues.  Some thread runs afterwards, none
in `active_rq` is better, and within a priority the order is that of arrival.
-/
theorem tick_runs_best {s : Sched} {t : Tid} (h : Tickable s t) :
    (s.userDispatcher t).scheduled.Perm s.scheduled ∧
    (s.userDispatcher t).clock = s.clock + 1 ∧
    (s.userDispatcher t).sleepThrList = (s.sleepThrList.filter fun u => !s.due u) ∧
    ∃ u, (s.userDispatcher t).activeThr = some u ∧
      (∀ v ∈ (s.userDispatcher t).activeRq.threads,
        (s.userDispatcher t).prio u ≤ (s.userDispatcher t).prio v) ∧
      TickQueues s (s.userDispatcher t) t u := by
  obtain ⟨hclock, hsleep, -⟩ := userDispatcher_lists h.inRange t
  refine ⟨scheduled_userDispatcher h.inRange h.running, ?_, ?_, ?_⟩
  · rw [hclock, tickWake_clock h.inRange]
  · rw [hsleep, (tickWake_queues h.sleepers).2]
  · by_cases hq : 1 < (s.thr t).quantum
    · exact h.best_goesOn hq
    · exact h.best_expires (Int.not_lt.mp hq)

/-- A thread of priority 3 preempts the main thread at the first tick. -/
theorem tick_runs_best_created :
    Tickable (userInit.userCreateP 1 3) 1 ∧
      ∃ u, ((userInit.userCreateP 1 3).userDispatcher 1).activeThr = some u ∧
        TickQueues (userInit.userCreateP 1 3) ((userInit.userCreateP 1 3).userDispatcher 1) 1 u := by
  have hinit : userInit.activeRq.Filed (userInit.userCreateP 1 3).prio := by
    intro i _ u hu
    cases hu
  have hinv : (userInit.userCreateP 1 3).PrioInRange :=
    (Inv.init.step (a := .call (.create 3)) rfl).prio
  have htick : Tickable (userInit.userCreateP 1 3) 1 := by
    refine ⟨rfl, by decide, by decide, by decide, hinv, hinit.rqInserir 2, ?_, Or.inl (by decide)⟩
    intro i _ u hu
    cases hu
  obtain ⟨-, -, -, u, hrun, -, hqueues⟩ := tick_runs_best htick
  exact ⟨htick, u, hrun, hqueues⟩

end Sthreads.User
