/-
What a thread gets in an epoch.

An epoch is the time between two exchanges of the runqueues by the dispatcher.  While
threads only compute, a thread that is to run in the epoch is charged tick by tick until
its quantum is used up, whatever preempts it in between; it is then filed in
`expired_rq`, where it stays until the exchange.  At the exchange `active_rq` is empty, so
every thread of the epoch got all of its quantum.

`InEpoch` is what a run keeps: how often the thread was charged and what is left of its
quantum, or that it has expired.
-/
import Sthreads.Proofs.User.Refine

namespace Sthreads.User

open Sched Runqueue

namespace Sched

/-- What CPU-bound threads do: ticks are delivered, and a dispatched thread goes on in user code,
which it does unless it still has the second half of a wait to run. -/
def cpuBound (s : Sched) : Act → Bool
  | .tick => true
  | .resume => s.activeThr.all fun t => (s.point t).extra == 0
  | .call _ => false

/-- The step is a tick that charges `t`. -/
def charges (s : Sched) (a : Act) (t : Tid) : Bool := a == .tick && s.activeThr == some t

/-- The step is a tick that uses up the quantum of `t`, so that `t` is filed in `expired_rq`. -/
def expires (s : Sched) (a : Act) (t : Tid) : Bool :=
  s.charges a t && decide ((s.tickWake.thr t).quantum - 1 ≤ 0)

/-- The step is a tick in which the dispatcher exchanges the runqueues. -/
def swaps (s : Sched) (a : Act) : Bool :=
  s.activeThr.any fun t => s.expires a t && s.tickWake.activeRq.rqVazia

/-- How many ticks of a run charged `t`. -/
def ticksCharged (tr : List (Sched × Act)) (t : Tid) : Nat :=
  tr.countP fun p => p.1.charges p.2 t

/-- How many ticks of a run moved `t` to `expired_rq`. -/
def timesExpired (tr : List (Sched × Act)) (t : Tid) : Nat :=
  tr.countP fun p => p.1.expires p.2 t

/-- The threads that are still to run in this epoch, the running one first. -/
def current (s : Sched) : List Tid := s.activeThr.toList ++ s.activeRq.threads

variable {s s' : Sched} {t u : Tid}

theorem charges_self (ht : s.activeThr = some t) : s.charges .tick t = true := by
  simp [charges, ht]

theorem charges_other (hu : s.activeThr = some u) (htu : t ≠ u) : s.charges .tick t = false := by
  simp [charges, hu, Ne.symm htu]

theorem expires_self (ht : s.activeThr = some t) :
    s.expires .tick t = decide ((s.tickWake.thr t).quantum - 1 ≤ 0) := by
  rw [expires, charges_self ht, Bool.true_and]

theorem swaps_eq (hu : s.activeThr = some u) :
    s.swaps .tick = (s.expires .tick u && s.tickWake.activeRq.rqVazia) := by
  rw [swaps, hu, Option.any_some]

/-- An epoch goes on as long as somebody is in `active_rq` when a quantum is used up. -/
theorem active_of_not_swaps (hu : s.activeThr = some u)
    (hq : (s.tickWake.thr u).quantum - 1 ≤ 0) (hns : s.swaps .tick = false) :
    s.tickWake.activeRq.threads ≠ [] := by
  intro hnil
  rw [swaps_eq hu, expires_self hu, decide_eq_true hq, rqVazia_iff.mpr hnil] at hns
  cases hns

/-! ### Where a thread is once -/

theorem count_slots (s : Sched) (x : Tid) : s.slots.count x =
    s.current.count x + s.expiredRq.threads.count x + s.sleepThrList.count x +
      s.joinThrList.count x + s.zombieThrList.count x + s.deadThrList.count x := by
  rw [slots_eq, Multiset.count_add, count_offCpu, Multiset.coe_count, current, List.count_append]
  omega

/-- A thread in a slot with one switch point to pass is in one slot only. -/
theorem Inv.once (hi : s.Inv) (ht : t ∈ s.slots) (hx : (s.point t).extra = 0) :
    s.slots.count t = 1 := by
  have hpl := hi.ok.placed
  have hcr := hpl.created t (Or.inl ht)
  have hnw : ¬ Waits s.locks s.mons t := by
    intro hw
    have hcount : s.slots.count t = 0 := (hpl.countWaits t hw).trans hx
    exact Multiset.count_eq_zero.mp hcount ht
  have hcount : s.slots.count t = 1 + (s.point t).extra := hpl.countFree t hcr.1 hcr.2 hnw
  rw [hcount, hx]

theorem mem_slots_of_current (ht : t ∈ s.current) : t ∈ s.slots := by
  rw [← Multiset.one_le_count_iff_mem, count_slots]
  have := List.count_pos_iff.mpr ht
  omega

theorem mem_slots_of_expired (ht : t ∈ s.expiredRq.threads) : t ∈ s.slots := by
  rw [← Multiset.one_le_count_iff_mem, count_slots]
  have := List.count_pos_iff.mpr ht
  omega

/-- A thread of the epoch does not sleep and has not expired. -/
theorem Inv.current_only (hi : s.Inv) (ht : t ∈ s.current) (hx : (s.point t).extra = 0) :
    t ∉ s.sleepThrList ∧ t ∉ s.expiredRq.threads := by
  have hone := hi.once (mem_slots_of_current ht) hx
  rw [count_slots] at hone
  have := List.count_pos_iff.mpr ht
  constructor <;> exact List.count_eq_zero.mp (by omega)

/-- An expired thread does not run, and will not in this epoch. -/
theorem Inv.expired_only (hi : s.Inv) (ht : t ∈ s.expiredRq.threads)
    (hx : (s.point t).extra = 0) : t ∉ s.current := by
  have hone := hi.once (mem_slots_of_expired ht) hx
  rw [count_slots] at hone
  have := List.count_pos_iff.mpr ht
  exact List.count_eq_zero.mp (by omega)

/-! ### What a tick does to the two runqueues -/

/-- Waking sleepers adds to `active_rq`, and changes only threads that sleep. -/
theorem wakeSleepers_keeps :
    ∀ (xs : List Tid) (s : Sched) (tmp : List Tid), s.PrioInRange →
      (∀ x ∈ s.activeRq.threads, x ∈ (wakeSleepers xs s tmp).1.activeRq.threads) ∧
        ∀ x, x ∉ xs → (wakeSleepers xs s tmp).1.thr x = s.thr x := by
  intro xs
  induction xs with
  | nil => exact fun s tmp _ => ⟨fun x hx => hx, fun x _ => rfl⟩
  | cons j rest ih =>
      intro s tmp hs
      unfold wakeSleepers
      split
      · have hset : (s.setThread j { s.thr j with wakeTime := 0, quantum := quantumBase
                                     }).PrioInRange := hs.setThread (hs j)
        obtain ⟨hmem, hthr⟩ := ih ((s.setThread j { s.thr j with
          wakeTime := 0, quantum := quantumBase }).inserirActive j) tmp hset
        refine ⟨fun x hx => hmem x ?_, fun x hx => ?_⟩
        · exact (threads_rqInserir s.activeRq (hset j) j).mem_iff.mpr (List.mem_cons_of_mem _ hx)
        · rw [hthr x fun hr => hx (List.mem_cons_of_mem _ hr)]
          have hne : x ≠ j := fun he => hx (by rw [he]; exact List.mem_cons_self)
          exact Function.update_of_ne hne _ _
      · obtain ⟨hmem, hthr⟩ := ih s (tmp ++ [j]) hs
        exact ⟨hmem, fun x hx => hthr x fun hr => hx (List.mem_cons_of_mem _ hr)⟩

theorem tickWake_keeps (hp : s.PrioInRange) :
    (∀ x ∈ s.activeRq.threads, x ∈ s.tickWake.activeRq.threads) ∧
      ∀ x, x ∉ s.sleepThrList → s.tickWake.thr x = s.thr x :=
  wakeSleepers_keeps s.sleepThrList { s with clock := s.clock + 1 } [] hp

theorem tickWake_expiredRq (hp : s.PrioInRange) : s.tickWake.expiredRq = s.expiredRq := by
  have hwake := refiles_wakeSleepers s.sleepThrList { s with clock := s.clock + 1 } [] hp
  revert hwake
  unfold tickWake
  dsimp only
  generalize wakeSleepers s.sleepThrList { s with clock := s.clock + 1 } [] = w
  obtain ⟨s₁, tmp⟩ := w
  rintro ⟨th, a, rfl, -, -⟩
  rfl

/-- `rq_retirar` takes the running thread out of `active_rq` and changes nothing else. -/
theorem current_retirarActive (hne : s.activeRq.threads ≠ []) (old : Tid) (p : Point) :
    (s.retirarActive.sthreadSwitch old p).current = s.activeRq.threads ∧
      (s.retirarActive.sthreadSwitch old p).expiredRq = s.expiredRq ∧
      (s.retirarActive.sthreadSwitch old p).thr = s.thr ∧
      (s.retirarActive.sthreadSwitch old p).point = Function.update s.point old p := by
  unfold retirarActive
  cases hr : s.activeRq.rqRetirar with
  | none => exact absurd (rqRetirar_none.mp hr) hne
  | some pr =>
      obtain ⟨x, rq⟩ := pr
      refine ⟨?_, rfl, rfl, rfl⟩
      rw [rqRetirar_some hr]
      rfl

/-- The state in which the dispatcher has charged the running thread. -/
def tickCharge (s : Sched) (u : Tid) : Sched :=
  s.tickWake.setThread u { s.tickWake.thr u with quantum := (s.tickWake.thr u).quantum - 1 }

theorem tickCharge_thr (s : Sched) (u : Tid) : (s.tickCharge u).thr =
    Function.update s.tickWake.thr u
      { s.tickWake.thr u with quantum := (s.tickWake.thr u).quantum - 1 } := rfl

theorem tickCharge_quantum (s : Sched) (u : Tid) :
    ((s.tickCharge u).thr u).quantum = (s.tickWake.thr u).quantum - 1 := by
  rw [tickCharge_thr, Function.update_self]

theorem tickCharge_prio (hp : s.PrioInRange) (u : Tid) : (s.tickCharge u).PrioInRange := by
  obtain ⟨-, hp', -⟩ := tickWake_spec hp
  exact hp'.setThread (hp' u)

/-- The state in which the dispatcher has recalculated a thread whose quantum is used up. -/
def tickExpire (s : Sched) (u : Tid) : Sched :=
  ((s.tickCharge u).setThread u { (s.tickCharge u).thr u with quantum := 0 }).recalcularThr u

theorem tickExpire_prio (hp : s.PrioInRange) (u : Tid) : (s.tickExpire u).PrioInRange := by
  have hcharged := tickCharge_prio hp u
  unfold tickExpire
  generalize s.tickCharge u = w at hcharged ⊢
  have hset : (w.setThread u { w.thr u with quantum := 0 }).PrioInRange :=
    hcharged.setThread (hcharged u)
  exact hset.recalcularThr u

theorem tickExpire_thr (s : Sched) {u x : Tid} (hx : x ≠ u) :
    (s.tickExpire u).thr x = s.tickWake.thr x := by
  simp only [tickExpire, tickCharge, recalcularThr, setThread, Function.update_of_ne hx]

/-- `sthread_user_dispatcher` from the charge on. -/
theorem userDispatcher_eq (s : Sched) (u : Tid) : s.userDispatcher u =
    if 0 < (s.tickWake.thr u).quantum - 1 then
      if (s.tickCharge u).activeRq.rqMelhorPrio ≠ -1 ∧
          (s.tickCharge u).activeRq.rqMelhorPrio < ((s.tickCharge u).thr u).priority then
        ((s.tickCharge u).inserirActive u).retirarActive.sthreadSwitch u .tick
      else s.tickCharge u
    else ((s.tickExpire u).inserirExpired u).bloquear u .tick := by
  rw [← tickCharge_quantum]
  rfl

/-- The quantum of the running thread is not used up: it stays in the epoch. -/
theorem userDispatcher_goes_on (hp : s.PrioInRange) (hu : s.activeThr = some u)
    (hq : 0 < (s.tickWake.thr u).quantum - 1) :
    (s.userDispatcher u).current.Perm (u :: s.tickWake.activeRq.threads) ∧
      (s.userDispatcher u).expiredRq = s.expiredRq ∧
      (s.userDispatcher u).thr = (s.tickCharge u).thr ∧
      ((s.userDispatcher u).point = s.point ∨
        (s.userDispatcher u).point = Function.update s.point u .tick) := by
  obtain ⟨-, -, hf, -⟩ := tickWake_spec hp
  have hexp : (s.tickCharge u).expiredRq = s.expiredRq := tickWake_expiredRq hp
  have hpt : (s.tickCharge u).point = s.point := hf.point
  rw [userDispatcher_eq, if_pos hq]
  split
  · have hfiled := inserirActive_ne_nil (tickCharge_prio hp u) u
    obtain ⟨hcur, hex, hth, hpoint⟩ := current_retirarActive hfiled u .tick
    refine ⟨?_, hex.trans hexp, hth, Or.inr ?_⟩
    · rw [hcur]
      exact threads_rqInserir _ (tickCharge_prio hp u u) u
    · rw [hpoint, ← hpt]
      rfl
  · refine ⟨?_, hexp, rfl, Or.inl hpt⟩
    have hrun : (s.tickCharge u).activeThr = some u := hf.activeThr.trans hu
    rw [current, hrun]
    exact List.Perm.refl _

/-- The quantum of the running thread is used up: it is filed in `expired_rq`. -/
theorem userDispatcher_expires (hp : s.PrioInRange) (hq : (s.tickWake.thr u).quantum - 1 ≤ 0)
    (hne : s.tickWake.activeRq.threads ≠ []) :
    (s.userDispatcher u).current = s.tickWake.activeRq.threads ∧
      (s.userDispatcher u).expiredRq.threads.Perm (u :: s.expiredRq.threads) ∧
      (∀ x, x ≠ u → (s.userDispatcher u).thr x = s.tickWake.thr x) ∧
      (s.userDispatcher u).point = Function.update s.point u .tick := by
  obtain ⟨-, -, hf, -⟩ := tickWake_spec hp
  have hexp : (s.tickExpire u).expiredRq = s.expiredRq := tickWake_expiredRq hp
  have hpt : (s.tickExpire u).point = s.point := hf.point
  have hne' : ((s.tickExpire u).inserirExpired u).activeRq.threads ≠ [] := hne
  have hkeep : ((s.tickExpire u).inserirExpired u).trocarSeVazia =
      (s.tickExpire u).inserirExpired u := by
    unfold trocarSeVazia
    exact if_neg fun hv => hne' (rqVazia_iff.mp hv)
  rw [userDispatcher_eq, if_neg (by omega)]
  unfold bloquear
  rw [hkeep]
  obtain ⟨hcur, hex, hth, hpoint⟩ := current_retirarActive hne' u .tick
  refine ⟨hcur, ?_, fun x hx => ?_, ?_⟩
  · rw [hex, ← hexp]
    exact threads_rqInserir _ (tickExpire_prio hp u u) u
  · rw [hth]
    exact tickExpire_thr s hx
  · rw [hpoint, ← hpt]
    rfl

end Sched

/-! ### A thread of the epoch -/

/-- `t`, with quantum `q` at the start, was charged `c` times and moved `e` times so far. -/
inductive InEpoch (t : Tid) (q : Int) (c e : Nat) (s : Sched) : Prop
  /-- It runs or is to run, with the rest of its quantum. -/
  | toRun (hx : (s.point t).extra = 0) (ht : t ∈ s.current)
      (hq : (s.thr t).quantum = q - c) (hc : (c : Int) < q) (he : e = 0)
  /-- It has used its quantum up. -/
  | expired (hx : (s.point t).extra = 0) (ht : t ∈ s.expiredRq.threads) (hc : (c : Int) = q)
      (he : e = 1)
  /-- It has to wait for a monitor before it computes, and did not get to run. -/
  | toWait (hx : (s.point t).extra ≠ 0) (ht : t ∈ s.current) (hc : c = 0) (he : e = 0)

namespace InEpoch

variable {s s' : Sched} {t u : Tid} {q : Int} {c e : Nat}

theorem start (ht : t ∈ s.current) (hq : 1 ≤ (s.thr t).quantum) :
    InEpoch t (s.thr t).quantum 0 0 s := by
  by_cases hx : (s.point t).extra = 0
  · exact .toRun hx ht (by simp) (by omega) rfl
  · exact .toWait hx ht rfl rfl

/-- A step that leaves the queues and the quanta alone. -/
theorem same (h : InEpoch t q c e s) (hcur : s'.current = s.current)
    (hexp : s'.expiredRq = s.expiredRq) (hthr : s'.thr = s.thr)
    (hx : (s'.point t).extra = (s.point t).extra) : InEpoch t q c e s' := by
  cases h with
  | toRun h1 h2 h3 h4 h5 =>
      exact .toRun (hx.trans h1) (by rw [hcur]; exact h2) (by rw [hthr]; exact h3) h4 h5
  | expired h1 h2 h3 h4 => exact .expired (hx.trans h1) (by rw [hexp]; exact h2) h3 h4
  | toWait h1 h2 h3 h4 => exact .toWait (by rw [hx]; exact h1) (by rw [hcur]; exact h2) h3 h4

/-- A dispatched thread goes on in user code. -/
theorem resume (h : InEpoch t q c e s) (hcpu : s.cpuBound .resume = true)
    (hs : Sched.step s .resume = some s') : InEpoch t q c e s' := by
  unfold Sched.step at hs
  cases hu : s.activeThr with
  | none => rw [hu] at hs; cases hs
  | some u =>
      simp only [hu] at hs
      rw [cpuBound, hu, Option.all_some, beq_iff_eq] at hcpu
      obtain ⟨m, hm, -⟩ | ⟨-, -, v, r, rfl, -⟩ := resume_cases hs
      · rw [hm] at hcpu
        cases hcpu
      · refine h.same rfl rfl rfl ?_
        by_cases htu : t = u
        · change (Function.update s.point u Point.user t).extra = _
          rw [htu, Function.update_self, hcpu]
          rfl
        · change (Function.update s.point u Point.user t).extra = _
          rw [Function.update_of_ne htu]

/-- The points after a tick: the running thread may be at `tick`. -/
theorem extra_tick (hu : s.point u = .user)
    (h : s'.point = s.point ∨ s'.point = Function.update s.point u .tick) :
    (s'.point t).extra = (s.point t).extra := by
  rcases h with h | h
  · rw [h]
  · rw [h]
    by_cases htu : t = u
    · rw [htu, Function.update_self, hu]
      rfl
    · rw [Function.update_of_ne htu]

/-- A tick that charges somebody else. -/
theorem tick_other (h : InEpoch t q c e s) (hi : s.Inv) (hu : s.activeThr = some u)
    (hpu : s.point u = .user) (htu : t ≠ u) (hns : s.swaps .tick = false) :
    InEpoch t q c e (s.userDispatcher u) := by
  obtain ⟨hmem, hthr⟩ := tickWake_keeps hi.prio
  -- a thread of the epoch other than the running one is in `active_rq`
  have hact : t ∈ s.current → t ∈ s.tickWake.activeRq.threads := by
    intro ht
    rw [current, hu] at ht
    exact hmem t ((List.mem_cons.mp ht).resolve_left htu)
  by_cases hq : 0 < (s.tickWake.thr u).quantum - 1
  · obtain ⟨hcur, hexp, hth, hpt⟩ := userDispatcher_goes_on hi.prio hu hq
    have hx := extra_tick (t := t) hpu hpt
    cases h with
    | toRun h1 h2 h3 h4 h5 =>
        refine .toRun (hx.trans h1) (hcur.mem_iff.mpr (List.mem_cons_of_mem _ (hact h2))) ?_ h4 h5
        rw [hth, tickCharge_thr, Function.update_of_ne htu, hthr t (hi.current_only h2 h1).1]
        exact h3
    | expired h1 h2 h3 h4 => exact .expired (hx.trans h1) (by rw [hexp]; exact h2) h3 h4
    | toWait h1 h2 h3 h4 =>
        exact .toWait (by rw [hx]; exact h1)
          (hcur.mem_iff.mpr (List.mem_cons_of_mem _ (hact h2))) h3 h4
  · have hne := active_of_not_swaps hu (Int.not_lt.mp hq) hns
    obtain ⟨hcur, hexp, hth, hpt⟩ := userDispatcher_expires hi.prio (Int.not_lt.mp hq) hne
    have hx := extra_tick (t := t) hpu (Or.inr hpt)
    cases h with
    | toRun h1 h2 h3 h4 h5 =>
        refine .toRun (hx.trans h1) (by rw [hcur]; exact hact h2) ?_ h4 h5
        rw [hth t htu, hthr t (hi.current_only h2 h1).1]
        exact h3
    | expired h1 h2 h3 h4 =>
        exact .expired (hx.trans h1) (hexp.mem_iff.mpr (List.mem_cons_of_mem _ h2)) h3 h4
    | toWait h1 h2 h3 h4 =>
        exact .toWait (by rw [hx]; exact h1) (by rw [hcur]; exact hact h2) h3 h4

/-- The thread that a tick charges has one tick of its quantum left, or more. -/
theorem charged (h : InEpoch t q c e s) (hi : s.Inv) (ht : s.activeThr = some t)
    (hpt : s.point t = .user) : (s.tickWake.thr t).quantum = q - c ∧ (c : Int) < q ∧ e = 0 := by
  obtain ⟨-, hthr⟩ := tickWake_keeps hi.prio
  have hcur : t ∈ s.current := by
    rw [current, ht]
    exact List.mem_cons_self
  have hx : (s.point t).extra = 0 := by rw [hpt]; rfl
  cases h with
  | toRun h1 h2 h3 h4 h5 =>
      rw [hthr t (hi.current_only h2 h1).1]
      exact ⟨h3, h4, h5⟩
  | expired h1 h2 h3 h4 => exact absurd hcur (hi.expired_only h2 h1)
  | toWait h1 h2 h3 h4 => exact absurd hx h1

/-- A tick that charges `t`. -/
theorem tick_self (h : InEpoch t q c e s) (hi : s.Inv) (ht : s.activeThr = some t)
    (hpt : s.point t = .user) (hns : s.swaps .tick = false) :
    InEpoch t q (c + 1) (e + (s.expires .tick t).toNat) (s.userDispatcher t) := by
  obtain ⟨hquant, hc, he⟩ := h.charged hi ht hpt
  have hx : (s.point t).extra = 0 := by rw [hpt]; rfl
  by_cases hq : 0 < (s.tickWake.thr t).quantum - 1
  · obtain ⟨hcur, -, hth, hpoint⟩ := userDispatcher_goes_on hi.prio ht hq
    rw [expires_self ht, decide_eq_false (by omega)]
    refine .toRun ((extra_tick hpt hpoint).trans hx) (hcur.mem_iff.mpr List.mem_cons_self) ?_ ?_ he
    · rw [hth, tickCharge_quantum]
      push_cast
      omega
    · push_cast
      omega
  · have hle : (s.tickWake.thr t).quantum - 1 ≤ 0 := Int.not_lt.mp hq
    have hne := active_of_not_swaps ht hle hns
    obtain ⟨-, hex, -, hpoint⟩ := userDispatcher_expires hi.prio hle hne
    rw [expires_self ht, decide_eq_true hle, he]
    refine .expired ((extra_tick hpt (Or.inr hpoint)).trans hx)
      (hex.mem_iff.mpr List.mem_cons_self) ?_ rfl
    push_cast
    omega

/-- One step of CPU-bound threads that does not end the epoch. -/
theorem step {a : Act} (h : InEpoch t q c e s) (hi : s.Inv) (hcpu : s.cpuBound a = true)
    (hns : s.swaps a = false) (hs : Sched.step s a = some s') :
    InEpoch t q (c + (s.charges a t).toNat) (e + (s.expires a t).toNat) s' := by
  cases a with
  | call _ => cases hcpu
  | resume =>
      have hz : s.charges .resume t = false := rfl
      rw [expires, hz]
      exact h.resume hcpu hs
  | tick =>
      unfold Sched.step at hs
      cases hu : s.activeThr with
      | none => rw [hu] at hs; cases hs
      | some u =>
          simp only [hu] at hs
          split at hs
          · rename_i hpu
            obtain rfl := Option.some.inj hs
            by_cases htu : t = u
            · subst htu
              rw [charges_self hu]
              exact h.tick_self hi hu hpu.1 hns
            · rw [expires, charges_other hu htu]
              exact h.tick_other hi hu hpu.1 htu hns
          · cases hs

/-- The tick that ends the epoch finds that every thread of it got its whole quantum. -/
theorem swap (h : InEpoch t q c e s) (hi : s.Inv) (hs : Sched.step s .tick = some s')
    (hswap : s.swaps .tick = true) :
    ((c + (s.charges .tick t).toNat : Nat) : Int) = q ∧ e + (s.expires .tick t).toNat = 1 := by
  unfold Sched.step at hs
  cases hu : s.activeThr with
  | none => rw [hu] at hs; cases hs
  | some u =>
      simp only [hu] at hs
      split at hs
      · rename_i hpu
        rw [swaps_eq hu, Bool.and_eq_true] at hswap
        obtain ⟨hexp, hv⟩ := hswap
        have hnil := rqVazia_iff.mp hv
        by_cases htu : t = u
        · subst htu
          obtain ⟨hquant, hc, he⟩ := h.charged hi hu hpu.1
          rw [hexp, charges_self hu, he]
          rw [expires_self hu, decide_eq_true_eq] at hexp
          refine ⟨?_, rfl⟩
          rw [Bool.toNat_true]
          push_cast
          omega
        · -- `active_rq` is empty, so any other thread of the epoch has expired
          have hnot : t ∉ s.current := by
            intro ht
            rw [current, hu] at ht
            have hmem := (tickWake_keeps hi.prio).1 t ((List.mem_cons.mp ht).resolve_left htu)
            rw [hnil] at hmem
            cases hmem
          rw [expires, charges_other hu htu]
          cases h with
          | toRun h1 h2 h3 h4 h5 => exact absurd h2 hnot
          | expired h1 h2 h3 h4 => exact ⟨h3, h4⟩
          | toWait h1 h2 h3 h4 => exact absurd h2 hnot
      · cases hs

end InEpoch

theorem ticksCharged_snoc (tr : List (Sched × Act)) (s : Sched) (a : Act) (t : Tid) :
    ticksCharged (tr ++ [(s, a)]) t = ticksCharged tr t + (s.charges a t).toNat := by
  rw [ticksCharged, List.countP_append, List.countP_singleton]
  cases s.charges a t <;> rfl

theorem timesExpired_snoc (tr : List (Sched × Act)) (s : Sched) (a : Act) (t : Tid) :
    timesExpired (tr ++ [(s, a)]) t = timesExpired tr t + (s.expires a t).toNat := by
  rw [timesExpired, List.countP_append, List.countP_singleton]
  cases s.expires a t <;> rfl

/-- A run of CPU-bound threads that does not end the epoch. -/
theorem inEpoch_run {s₀ s : Sched} {tr : List (Sched × Act)} (hi : s₀.Inv)
    (hrun : Run Sched.step s₀ tr s) (hcpu : ∀ p ∈ tr, p.1.cpuBound p.2 = true)
    (hns : ∀ p ∈ tr, p.1.swaps p.2 = false) {t : Tid} (ht : t ∈ s₀.current)
    (hq : 1 ≤ (s₀.thr t).quantum) :
    s.Inv ∧ InEpoch t (s₀.thr t).quantum (ticksCharged tr t) (timesExpired tr t) s := by
  induction hrun with
  | nil => exact ⟨hi, InEpoch.start ht hq⟩
  | @snoc tr s s' a hr hs ih =>
      obtain ⟨hinv, hin⟩ := ih (fun p hp => hcpu p (List.mem_append_left _ hp))
        fun p hp => hns p (List.mem_append_left _ hp)
      have hlast : (s, a) ∈ tr ++ [(s, a)] := List.mem_append_right _ (List.mem_singleton_self _)
      refine ⟨hinv.step hs, ?_⟩
      rw [ticksCharged_snoc, timesExpired_snoc]
      exact hin.step hinv (hcpu _ hlast) (hns _ hlast) hs

end Sthreads.User
