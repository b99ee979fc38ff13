/-
What `sthread_user_nice` promises, and what the dispatcher does.

The call returns the priority that `recalcular` would compute from the quantum the caller
has left.  When the quantum is used up the dispatcher sets it to zero before it calls
`recalcular`, and `recalcular` leaves a static priority alone.  The promise is kept only
where neither difference shows.

Between the call and the tick in which the quantum is used up nobody else writes to the
control block: `Undisturbed` is what every step keeps until then.
-/
import Sthreads.Proofs.User.Quantum
import Sthreads.Proofs.User.Tick

namespace Sthreads.User

open Sched Runqueue

namespace Sched

/-- The step is a call that `t` makes. -/
def callsBy (s : Sched) (t : Tid) : Act → Bool
  | .call _ => s.activeThr == some t
  | _ => false

/-- The tick from `s` to `s'` files `t` in `expired_rq` under the priority `p`. -/
def FilesExpired (s s' : Sched) (t : Tid) (p : Int) : Prop :=
  s' = ((s.tickExpire t).inserirExpired t).bloquear t .tick ∧ (s.tickExpire t).prio t = p

end Sched

/-- The argument of `sthread_user_nice` as it is stored. -/
def niceArg (n : Int) : Int := min (max n 0) 10

/-- Since a call of `sthread_user_nice`, `t` was preempted at most, and its control block is that
of `v` up to the quantum. -/
structure Undisturbed (s : Sched) (t : Tid) (v : Thread) : Prop where
  point : s.point t = .user ∨ s.point t = .tick
  created : t < s.tidGen
  block : ∃ q, s.thr t = { v with quantum := q }

variable {s s' : Sched} {t u : Tid} {a : Act} {v : Thread}

/-! ### The two computations of the priority -/

theorem clampDynamic_of_le {p : Int} (h : p ≤ dynMinPrio) : clampDynamic p = dynMinPrio := by
  unfold clampDynamic dynMinPrio at *
  grind

theorem clampDynamic_of_ge {p : Int} (h : 14 ≤ p) : clampDynamic p = 14 := by
  unfold clampDynamic dynMinPrio at *
  grind

theorem dynMinPrio_le_clampDynamic (p : Int) : dynMinPrio ≤ clampDynamic p := by
  unfold clampDynamic dynMinPrio
  grind

/-- Clamping hides a difference only at the two ends. -/
theorem clampDynamic_sub_eq_iff {p q : Int} (hq : 1 ≤ q) :
    clampDynamic (p - q) = clampDynamic p ↔ p ≤ dynMinPrio ∨ 14 ≤ p - q := by
  constructor
  · intro h
    unfold clampDynamic dynMinPrio at *
    grind
  · rintro (h | h)
    · rw [clampDynamic_of_le h, clampDynamic_of_le (by omega)]
    · rw [clampDynamic_of_ge h, clampDynamic_of_ge (by omega)]

theorem recalcular_priority (h : staticMaxPrio < v.priority) :
    (recalcular v).priority = clampDynamic (v.basePriority - v.quantum + v.nice) := by
  rw [recalcular, if_neg (by omega)]

/-- The priority a thread has after its quantum was used up. -/
theorem expired_priority (v : Thread) : (recalcular { v with quantum := 0 }).priority =
    if v.priority ≤ staticMaxPrio then v.priority
    else clampDynamic (v.basePriority + v.nice) := by
  split
  · rename_i h
    have hstay : recalcular { v with quantum := 0 } = { v with quantum := 0 } :=
      recalcular_static h
    rw [hstay]
  · rename_i h
    have hdyn : staticMaxPrio < ({ v with quantum := 0 } : Thread).priority := Int.not_le.mp h
    rw [recalcular_priority hdyn, Int.sub_zero]

/-! ### Quanta of dynamic threads -/

/-- A thread of dynamic priority always has some of its quantum left. -/
def DynamicQuanta (s : Sched) : Prop :=
  ∀ u, staticMaxPrio < (s.thr u).priority → 1 ≤ (s.thr u).quantum

theorem dynamic_of_writes {w : Thread} (hw : Writes s t a u w)
    (hu : staticMaxPrio < (s.thr u).priority → 1 ≤ (s.thr u).quantum)
    (hdyn : staticMaxPrio < w.priority) : 1 ≤ w.quantum := by
  have hrec : ∀ x : Thread, staticMaxPrio < (recalcular x).priority →
      1 ≤ (recalcular x).quantum := by
    intro x hx
    refine recalcular_dynamic (Int.not_le.mp fun hs => ?_)
    rw [recalcular_static hs] at hx
    omega
  cases hw with
  | nothing => exact hu hdyn
  | create => exact (by decide : (1 : Int) ≤ quantumBase)
  | nice => exact hu hdyn
  | recalcular => exact hrec _ hdyn
  | join => exact hu hdyn
  | sleep => exact hu hdyn
  | joined => exact hu hdyn
  | wake => exact (by decide : (1 : Int) ≤ quantumBase)
  | charge _ _ hq =>
      change 1 ≤ (s.thr u).quantum - 1
      omega
  | expire => exact hrec _ hdyn

theorem dynamicQuanta_of_reaches (h : Reaches step userInit s) : DynamicQuanta s := by
  obtain ⟨tr, htr⟩ := h
  refine (htr.invariant (fun x => x.Inv ∧ DynamicQuanta x) ⟨Inv.init, fun u hu => ?_⟩ ?_).2
  · by_cases h1 : u = 1
    · subst h1
      decide
    · simp [userInit, Function.update_of_ne h1, newThread, quantumBase]
  · rintro x a x' ⟨hi, hx⟩ hs
    obtain ⟨t, ht, -⟩ := step_refines hi hs
    exact ⟨hi.step hs, fun u => dynamic_of_writes (step_writes hi ht hs u) (hx u)⟩

/-! ### From the call to the tick -/

theorem activeThr_of_expires (h : s.expires a t = true) : s.activeThr = some t := by
  have hcharges : s.charges a t = true := (Bool.and_eq_true_iff.mp h).1
  simp only [charges, Bool.and_eq_true, beq_iff_eq] at hcharges
  exact hcharges.2

/-- The tick in which a quantum is used up. -/
theorem filesExpired_of_expires (hexp : s.expires .tick t = true)
    (hs : step s .tick = some s') : FilesExpired s s' t ((s.tickExpire t).prio t) := by
  have ht := activeThr_of_expires hexp
  obtain ⟨-, -, rfl⟩ := step_tick ht hs
  have hq : ¬ 0 < (s.tickWake.thr t).quantum - 1 := by
    rw [expires_self ht, decide_eq_true_eq] at hexp
    exact Int.not_lt.mpr hexp
  exact ⟨by rw [userDispatcher_eq, if_neg hq], rfl⟩

namespace Undisturbed

/-- A step of another thread. -/
theorem step_other (h : Undisturbed s t v) (hi : s.Inv) (hp : Parked s)
    (hu : s.activeThr = some u) (htu : t ≠ u) (hs : step s a = some s') : Undisturbed s' t v := by
  obtain ⟨u', hu', hkept⟩ := step_kept hi hs
  obtain rfl : u = u' := Option.some.inj (hu.symm.trans hu')
  obtain ⟨_, _, href⟩ := step_refines hi hs
  have hpoint : s'.point t = s.point t := hkept.point t htu h.created
  refine ⟨hpoint ▸ h.point, Nat.lt_of_lt_of_le h.created href.effect.tidGen_le, ?_⟩
  have hsame : s'.thr t = s.thr t := by
    have hw := step_writes hi hu hs t
    generalize s'.thr t = w at hw
    cases hw with
    | nothing => rfl
    | create _ hnew => exact absurd hnew (Nat.ne_of_lt h.created)
    | joined _ _ hj =>
        obtain ⟨x, hx⟩ := hp.join t hj
        have hpt := h.point
        rw [hx] at hpt
        simp at hpt
    | wake _ hsleep =>
        have hpt := h.point
        rw [hp.sleep t hsleep] at hpt
        simp at hpt
    | nice _ hw | recalcular hw | join _ hw _ | sleep _ hw | charge _ hw _ | expire _ hw _ =>
        exact absurd hw htu
  rw [hsame]
  exact h.block

/-- A step of `t` that is no call and leaves some of its quantum. -/
theorem step_self (h : Undisturbed s t v) (hi : s.Inv) (ht : s.activeThr = some t)
    (hcall : s.callsBy t a = false) (hexp : s.expires a t = false) (hs : step s a = some s') :
    Undisturbed s' t v := by
  obtain ⟨_, _, href⟩ := step_refines hi hs
  have hcreated := Nat.lt_of_lt_of_le h.created href.effect.tidGen_le
  cases a with
  | call c => simp [callsBy, ht] at hcall
  | tick =>
      obtain ⟨hu, -, rfl⟩ := step_tick ht hs
      have hq : 0 < (s.tickWake.thr t).quantum - 1 := by
        rw [expires_self ht, decide_eq_false_iff_not] at hexp
        exact Int.not_le.mp hexp
      obtain ⟨-, -, hthr, hpoint⟩ := userDispatcher_goes_on hi.prio ht hq
      refine ⟨?_, hcreated, (s.thr t).quantum - 1, ?_⟩
      · rcases hpoint with hpt | hpt
        · rw [hpt]
          exact h.point
        · rw [hpt, Function.update_self]
          exact Or.inr rfl
      · obtain ⟨q, hblock⟩ := h.block
        rw [hthr, tickCharge_thr, Function.update_self,
          (tickWake_keeps hi.prio).2 t (hi.user_only ht hu).2.2, hblock]
  | resume =>
      have hres : s.resume t = some s' := by simpa [step, ht] using hs
      obtain ⟨m, hm, -⟩ | ⟨-, -, l, r, rfl, -⟩ := resume_cases hres
      · have hpt := h.point
        rw [hm] at hpt
        simp at hpt
      · exact ⟨Or.inl (Function.update_self _ _ _), hcreated, h.block⟩

theorem run {s₁ s₂ : Sched} {tr : List (Sched × Act)} (h : Undisturbed s₁ t v) (hi : s₁.Inv)
    (hp : Parked s₁) (hrun : Run step s₁ tr s₂) (hcall : ∀ p ∈ tr, p.1.callsBy t p.2 = false)
    (hexp : ∀ p ∈ tr, p.1.expires p.2 t = false) : s₂.Inv ∧ Undisturbed s₂ t v := by
  have hall := hrun.invariant_of (fun x => (x.Inv ∧ Parked x) ∧ Undisturbed x t v)
    (fun x a => x.callsBy t a = false ∧ x.expires a t = false) ⟨⟨hi, hp⟩, h⟩ ?_
    fun p hp => ⟨hcall p hp, hexp p hp⟩
  · exact ⟨hall.1.1, hall.2⟩
  · rintro x a x' ⟨⟨hxi, hxp⟩, hx⟩ ⟨hnc, hne⟩ hs
    refine ⟨⟨hxi.step hs, hxp.step hxi hs⟩, ?_⟩
    obtain ⟨u, hu, -⟩ := step_refines hxi hs
    by_cases htu : t = u
    · subst htu
      exact hx.step_self hxi hu hnc hne hs
    · exact hx.step_other hxi hxp hu htu hs

/-- The tick in which the quantum is used up. -/
theorem filed (h : Undisturbed s t v) (hi : s.Inv) (hexp : s.expires .tick t = true)
    (hs : step s .tick = some s') :
    FilesExpired s s' t (recalcular { v with quantum := 0 }).priority := by
  have ht := activeThr_of_expires hexp
  have hself : s.tickWake.thr t = s.thr t :=
    (tickWake_keeps hi.prio).2 t (hi.user_only ht (step_tick ht hs).1).2.2
  have hthr : (s.tickExpire t).thr t = recalcular { s.thr t with quantum := 0 } := by
    simp [tickExpire, recalcularThr, setThread, tickCharge_thr, hself]
  obtain ⟨q, hblock⟩ := h.block
  have hfiled := filesExpired_of_expires hexp hs
  rwa [prio, hthr, hblock] at hfiled

end Undisturbed

/-! ### The promise -/

/-- The promise is kept: the thread is one of dynamic priority, and it has so good or so bad a
priority without its quantum that the quantum makes no difference. -/
def PromiseKept (v : Thread) (n : Int) : Prop :=
  staticMaxPrio < v.priority ∧ (v.basePriority + niceArg n ≤ dynMinPrio ∨
    14 ≤ v.basePriority - v.quantum + niceArg n)

theorem userNice_eq (s : Sched) (t : Tid) (n : Int) : s.userNice t n =
    (s.setThread t { s.thr t with nice := niceArg n }).setResult t
      (.status (clampDynamic ((s.thr t).basePriority - (s.thr t).quantum + niceArg n))) := by
  have harg : (if (if n < 0 then 0 else n) > 10 then 10 else (if n < 0 then 0 else n)) =
      niceArg n := by
    unfold niceArg
    omega
  unfold userNice
  dsimp only
  rw [harg]
  simp [setThread]

theorem promiseKept_iff {n : Int} (hq : staticMaxPrio < v.priority → 1 ≤ v.quantum) :
    clampDynamic (v.basePriority - v.quantum + niceArg n) =
      (recalcular { v with nice := niceArg n, quantum := 0 }).priority ↔ PromiseKept v n := by
  have hfiled := expired_priority { v with nice := niceArg n }
  dsimp only at hfiled
  rw [hfiled, PromiseKept]
  by_cases hdyn : staticMaxPrio < v.priority
  · have hswap : v.basePriority - v.quantum + niceArg n =
        v.basePriority + niceArg n - v.quantum := by omega
    rw [if_neg (Int.not_le.mpr hdyn), hswap, clampDynamic_sub_eq_iff (hq hdyn), and_iff_right hdyn]
  · -- what is promised is a dynamic priority, and a static one is not recalculated
    have hle := dynMinPrio_le_clampDynamic (v.basePriority - v.quantum + niceArg n)
    rw [if_pos (Int.not_lt.mp hdyn)]
    constructor
    · intro h
      unfold dynMinPrio staticMaxPrio at *
      omega
    · exact fun h => absurd h.1 hdyn

/--
A call of `sthread_user_nice`, and the tick in which the caller's quantum is used up without
another call of its own.

`tr` is what happens in between: ticks, and whatever other threads do.  The priority under
which the dispatcher files the caller is the one the call returned if and only if the
caller has a dynamic priority and the quantum makes no difference to what it is clamped to.
-/
theorem nice_promise_iff {s₀ s₁ s₂ s₃ : Sched} {t : Tid} {n : Int} {tr : List (Sched × Act)}
    (hreach : Reaches step userInit s₀) (ht : s₀.activeThr = some t)
    (hnice : step s₀ (.call (.nice n)) = some s₁) (hrun : Run step s₁ tr s₂)
    (hcall : ∀ p ∈ tr, p.1.callsBy t p.2 = false) (hexp : ∀ p ∈ tr, p.1.expires p.2 t = false)
    (hlast : s₂.expires .tick t = true) (htick : step s₂ .tick = some s₃) :
    (∃ p, FilesExpired s₂ s₃ t p ∧ s₁.result t = .status p) ↔ PromiseKept (s₀.thr t) n := by
  obtain ⟨tr₀, htr₀⟩ := hreach
  have hi := inv_of_run htr₀
  have hparked : Parked s₀ := (htr₀.invariant (fun x => x.Inv ∧ Parked x) ⟨Inv.init, Parked.init⟩
    fun x a x' hx hs => ⟨hx.1.step hs, hx.2.step hx.1 hs⟩).2
  have hi₁ := hi.step hnice
  have hparked₁ := hparked.step hi hnice
  obtain ⟨hu, hcalled⟩ := step_call ht hnice
  obtain rfl : s₀.userNice t n = s₁ := Option.some.inj hcalled
  rw [userNice_eq] at hi₁ hparked₁ hrun ⊢
  have hcreated : t < s₀.tidGen := by
    refine (hi.ok.placed.created t (Or.inl (mem_slots_of_current ?_))).2
    rw [current, ht]
    exact List.mem_cons_self
  have hstart : Undisturbed ((s₀.setThread t { s₀.thr t with nice := niceArg n }).setResult t
      (.status (clampDynamic ((s₀.thr t).basePriority - (s₀.thr t).quantum + niceArg n)))) t
      { s₀.thr t with nice := niceArg n } :=
    ⟨Or.inl hu, hcreated, (s₀.thr t).quantum, Function.update_self _ _ _⟩
  obtain ⟨hi₂, h₂⟩ := hstart.run hi₁ hparked₁ hrun hcall hexp
  have hfiled := h₂.filed hi₂ hlast htick
  have hdyn := dynamicQuanta_of_reaches ⟨tr₀, htr₀⟩ t
  rw [← promiseKept_iff hdyn]
  constructor
  · rintro ⟨p, ⟨-, hp⟩, hres⟩
    have hstatus : Result.status (clampDynamic ((s₀.thr t).basePriority - (s₀.thr t).quantum +
        niceArg n)) = .status p := (Function.update_self _ _ _).symm.trans hres
    exact (Result.status.inj hstatus).trans (hp.symm.trans hfiled.2)
  · intro heq
    refine ⟨_, hfiled, ?_⟩
    rw [← heq]
    exact Function.update_self _ _ _

/-- The main thread calls `sthread_user_nice(0)` at once and then computes: the call returns 5,
and when its quantum is used up it is filed under 7. -/
theorem nice_breaks_promise :
    ∃ s₁ tr s₂ s₃, step userInit (.call (.nice 0)) = some s₁ ∧ Run step s₁ tr s₂ ∧
      (∀ p ∈ tr, p.1.callsBy 1 p.2 = false ∧ p.1.expires p.2 1 = false) ∧
      s₂.expires .tick 1 = true ∧ step s₂ .tick = some s₃ ∧
      s₁.result 1 = .status 5 ∧ FilesExpired s₂ s₃ 1 7 := by
  have hrun : ((step userInit (.call (.nice 0))).bind fun s₁ =>
      (runTrace step s₁ (List.replicate 4 .tick)).bind fun r => (step r.2 .tick).map fun _ =>
        (s₁.result 1, r.1.all fun p => !p.1.callsBy 1 p.2 && !p.1.expires p.2 1,
          r.2.expires .tick 1, (r.2.tickExpire 1).prio 1)) =
      some (.status 5, true, true, 7) := by
    decide +kernel
  obtain ⟨s₁, hnice, hrun⟩ := Option.bind_eq_some_iff.mp hrun
  obtain ⟨⟨tr, s₂⟩, htr, hrun⟩ := Option.bind_eq_some_iff.mp hrun
  obtain ⟨s₃, htick, hfacts⟩ := Option.map_eq_some_iff.mp hrun
  simp only [Prod.mk.injEq] at hfacts
  obtain ⟨hres, hall, hexp, hprio⟩ := hfacts
  have hfiled := filesExpired_of_expires hexp htick
  rw [hprio] at hfiled
  refine ⟨s₁, tr, s₂, s₃, hnice, run_of_runTrace _ .nil htr, fun p hp => ?_, hexp, htick, hres,
    hfiled⟩
  simpa using List.all_eq_true.mp hall p hp

/-- After two ticks the main thread calls `sthread_user_nice(10)`, which returns 14, and it is
filed under 14. -/
theorem nice_promise_iff_worst :
    ∃ s₀ s₁ tr s₂ s₃, Reaches step userInit s₀ ∧ step s₀ (.call (.nice 10)) = some s₁ ∧
      Run step s₁ tr s₂ ∧ step s₂ .tick = some s₃ ∧
      ∃ p, FilesExpired s₂ s₃ 1 p ∧ s₁.result 1 = .status p := by
  have hrun : ((runActs step userInit [.tick, .tick]).bind fun s₀ =>
      (step s₀ (.call (.nice 10))).bind fun s₁ =>
        (runTrace step s₁ [.tick, .tick]).bind fun r => (step r.2 .tick).map fun _ =>
          (s₀.activeThr, r.1.all fun p => !p.1.callsBy 1 p.2 && !p.1.expires p.2 1,
            r.2.expires .tick 1, (s₀.thr 1).priority, (s₀.thr 1).basePriority,
            (s₀.thr 1).quantum)) =
      some (some 1, true, true, 7, 7, 3) := by
    decide +kernel
  obtain ⟨s₀, hs₀, hrun⟩ := Option.bind_eq_some_iff.mp hrun
  obtain ⟨s₁, hnice, hrun⟩ := Option.bind_eq_some_iff.mp hrun
  obtain ⟨⟨tr, s₂⟩, htr, hrun⟩ := Option.bind_eq_some_iff.mp hrun
  obtain ⟨s₃, htick, hfacts⟩ := Option.map_eq_some_iff.mp hrun
  simp only [Prod.mk.injEq] at hfacts
  obtain ⟨hactive, hall, hexp, hprio, hbase, hquantum⟩ := hfacts
  have hreach := reaches_runActs _ hs₀
  have htrace : Run step s₁ tr s₂ := run_of_runTrace _ .nil htr
  have hok : ∀ p ∈ tr, p.1.callsBy 1 p.2 = false ∧ p.1.expires p.2 1 = false := by
    intro p hp
    simpa using List.all_eq_true.mp hall p hp
  refine ⟨s₀, s₁, tr, s₂, s₃, hreach, hnice, htrace, htick, ?_⟩
  refine (nice_promise_iff hreach hactive hnice htrace (fun p hp => (hok p hp).1)
    (fun p hp => (hok p hp).2) hexp htick).mpr ?_
  rw [PromiseKept, hprio, hbase, hquantum]
  decide

end Sthreads.User
