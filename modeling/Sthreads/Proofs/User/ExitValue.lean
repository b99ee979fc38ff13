/-
What `sthread_user_join` delivers.

`sthread_user_exit` writes the value it is given to the `join_ret` of its joiners, and
never to its own; `sthread_user_join` reads the `join_ret` of the thread it joins.  So the
value delivered is the one that the thread joined received itself, in the last join in
which it was blocked, or `NULL`: `exit_value_iff`.

Once a thread has exited nothing is written to its control block, so the value is the same
for all that join it.
-/
import Sthreads.Proofs.User.Join

namespace Sthreads.User

open Sched

/-- The value that a step hands to `u`: `u` is in the list of joiners, and the step is the exit of
the thread it joins. -/
def receives (s : Sched) (a : Act) (u : Tid) : Option Ptr :=
  match a with
  | .call (.exit ret) =>
      if u ∈ s.joinThrList ∧ s.activeThr = some (s.thr u).joinTid then some ret else none
  | _ => none

/-- The last value handed to `u` in a run; `NULL` if there was none. -/
def lastReceived (tr : List (Sched × Act)) (u : Tid) : Ptr :=
  ((tr.filterMap fun p => receives p.1 p.2 u).getLast?).getD 0

/-- The step is the return of 0 from a join of `u` by `j`, which delivers `p`. -/
structure ReturnsJoin (s : Sched) (a : Act) (s' : Sched) (j u : Tid) (p : Ptr) : Prop where
  running : s.activeThr = some j
  step : Sched.step s a = some s'
  joins : a = .call (.join u) ∨ a = .resume ∧ s.point j = .join u
  returned : s'.point j = .user
  result : s'.result j = .joined 0 (some p)

variable {s s' : Sched} {t j u : Tid} {a : Act} {p : Ptr}

/-! ### The history of `join_ret` -/

theorem receives_exit (ht : s.activeThr = some t) (ret : Ptr) (u : Tid) :
    receives s (.call (.exit ret)) u =
      if u ∈ s.joinThrList ∧ (s.thr u).joinTid = t then some ret else none := by
  unfold receives
  simp only [ht, Option.some.injEq, eq_comm]

/-- Nothing is handed to a thread that is not in the list of joiners. -/
theorem receives_none (hl : u ∉ s.joinThrList) (a : Act) : receives s a u = none := by
  unfold receives
  split
  · exact if_neg fun hc => hl hc.1
  · rfl

theorem lastReceived_snoc (tr : List (Sched × Act)) (s : Sched) (a : Act) (u : Tid) :
    lastReceived (tr ++ [(s, a)]) u = (receives s a u).getD (lastReceived tr u) := by
  unfold lastReceived
  rw [List.filterMap_append]
  cases h : receives s a u with
  | none => simp [h]
  | some ret => simp [h]

/-- What a step does to `join_ret`. -/
theorem joinRet_step (hi : s.Inv) (hfresh : ∀ v : Nat, s.tidGen ≤ v → (s.thr v).joinRet = 0)
    (h : Sched.step s a = some s') (u : Tid) :
    (s'.thr u).joinRet = (receives s a u).getD (s.thr u).joinRet := by
  obtain ⟨t, ht, -⟩ := step_refines hi h
  by_cases hexit : ∃ ret, a = .call (.exit ret)
  · obtain ⟨ret, rfl⟩ := hexit
    have hcall : s.userExit t ret = some s' := (step_call ht h).2
    rw [receives_exit ht]
    unfold userExit at hcall
    dsimp only at hcall
    split at hcall
    · cases hcall
    · cases hcall
      rw [(dispatches_bloquear (s.exitLists t ret) t .exited).thr, exitLists_thr]
      split <;> rfl
  · have hnone : receives s a u = none := by
      cases a with
      | call c =>
          cases c with
          | exit ret => exact absurd ⟨ret, rfl⟩ hexit
          | _ => rfl
      | _ => rfl
    rw [hnone, Option.getD_none]
    have hw := step_writes hi ht h u
    generalize s'.thr u = v at hw
    cases hw with
    | create _ hu => rw [hu, hfresh _ (Nat.le_refl _)]; rfl
    | recalcular => unfold recalcular; split <;> rfl
    | joined ret ha => exact absurd ⟨ret, ha⟩ hexit
    | expire => unfold recalcular; split <;> rfl
    | _ => rfl

/-- The block of a thread holds what its joins have delivered. -/
structure History (tr : List (Sched × Act)) (s : Sched) : Prop where
  joinRet : ∀ u, (s.thr u).joinRet = lastReceived tr u
  fresh : ∀ v : Nat, s.tidGen ≤ v → (s.thr v).joinRet = 0

theorem history_of_run {tr : List (Sched × Act)} (h : Run Sched.step userInit tr s) :
    History tr s := by
  induction h with
  | nil =>
      have hzero : ∀ u, (userInit.thr u).joinRet = 0 := by
        intro u
        by_cases hu : u = 1 <;> simp [userInit, hu, newThread]
      exact ⟨hzero, fun v _ => hzero v⟩
  | @snoc tr s s' a hr hs ih =>
      have hset : Settled s := Settled.init.run hr
      have hstep := joinRet_step hset.inv ih.fresh hs
      refine ⟨fun u => ?_, fun v hv => ?_⟩
      · rw [hstep u, lastReceived_snoc, ih.joinRet u]
      · have hle := hset.tidGen_le hs
        have hl : v ∉ s.joinThrList := fun hc =>
          Nat.not_lt.mpr (Nat.le_trans hle hv) (hset.created hc).2
        rw [hstep v, receives_none hl, Option.getD_none]
        exact ih.fresh v (Nat.le_trans hle hv)

/-! ### Threads that have exited -/

theorem Settled.exited_step (h : Settled s) (hs : Sched.step s a = some s')
    (hu : Exited s u) : Exited s' u := by
  obtain ⟨t, ht, -⟩ := step_refines h.inv hs
  cases step_joinStep h.inv ht hs with
  | exit _ _ hexited => exact (hexited u).mpr (Or.inl hu)
  | join _ _ hexited => exact (hexited u).mpr hu
  | other _ _ _ hexited => exact (hexited u).mpr hu

/-- The last value is as it was when the thread exited. -/
theorem exited_run {tr₀ tr : List (Sched × Act)} {s₀ : Sched}
    (h₀ : Run Sched.step userInit tr₀ s₀) (h : Run Sched.step s₀ tr s) (hu : Exited s₀ u) :
    Exited s u ∧ (s.thr u).joinRet = (s₀.thr u).joinRet := by
  have hset : Settled s₀ := Settled.init.run h₀
  suffices hs : (Settled s ∧ ∀ v : Nat, s.tidGen ≤ v → (s.thr v).joinRet = 0) ∧ Exited s u ∧
      (s.thr u).joinRet = (s₀.thr u).joinRet from hs.2
  induction h with
  | nil => exact ⟨⟨hset, (history_of_run h₀).fresh⟩, hu, rfl⟩
  | @snoc tr s s' a hr hs ih =>
      obtain ⟨⟨hx, hfresh⟩, hex, hret⟩ := ih
      have hstep := joinRet_step hx.inv hfresh hs
      refine ⟨⟨hx.step hs, fun v hv => ?_⟩, hx.exited_step hs hex, ?_⟩
      · have hle := hx.tidGen_le hs
        have hl : v ∉ s.joinThrList := fun hc =>
          Nat.not_lt.mpr (Nat.le_trans hle hv) (hx.created hc).2
        rw [hstep v, receives_none hl, Option.getD_none]
        exact hfresh v (Nat.le_trans hle hv)
      · have hl : u ∉ s.joinThrList := fun hc => hx.parked.not_exited hx.inv (Or.inr (Or.inl hc)) hex
        rw [hstep u, receives_none hl, Option.getD_none, hret]

/-! ### Who is past its join -/

/-- A thread in a join is in the list of joiners, unless the thread it joins has exited. -/
def JoinsDone (s : Sched) : Prop :=
  ∀ j u, s.point j = .join u → (j ∈ s.joinThrList ∧ (s.thr j).joinTid = u) ∨ Exited s u

/-- A step moves no thread but the running one and a new one. -/
theorem Effect.point_start {P P' : Places} (h : Effect P t a P') (hj : j ≠ t)
    (hp : P.point j = .start) : P'.point j = .start := by
  cases h with
  | stay | acquire | unlock | signal => exact hp
  | create =>
      change Function.update P.point P.tidGen Point.start j = _
      by_cases hn : j = P.tidGen
      · rw [hn, Function.update_self]
      · rw [Function.update_of_ne hn, hp]
  | _ => exact (Function.update_of_ne hj _ _).trans hp

theorem JoinsDone.step (hd : JoinsDone s) (h : Settled s) (hs : Sched.step s a = some s') :
    JoinsDone s' := by
  obtain ⟨t, ht, href⟩ := step_refines h.inv hs
  have hstep := step_joinStep h.inv ht hs
  intro j u hpj
  by_cases hjt : j = t
  · subst hjt
    cases hstep with
    | exit _ _ _ hpoint => rw [hpoint] at hpj; cases hpj
    | join v hjoin _ hpoint htid =>
        rw [hpoint, Point.join.injEq] at hpj
        subst hpj
        exact Or.inl ⟨by rw [hjoin]; simp, htid⟩
    | other _ _ _ _ hpoint => exact absurd hpj (hpoint u)
  · by_cases hn : j < s.tidGen
    · obtain ⟨htid, hpoint⟩ := h.keeps ht hs hjt hn
      rw [hpoint] at hpj
      rcases hd j u hpj with ⟨hl, hju⟩ | hex
      · cases hstep with
        | exit _ hjoin hexited =>
            by_cases hut : u = t
            · exact Or.inr ((hexited u).mpr (Or.inr hut))
            · refine Or.inl ⟨?_, htid.trans hju⟩
              rw [hjoin, List.mem_filter, decide_eq_true_eq, hju]
              exact ⟨hl, hut⟩
        | join _ hjoin => exact Or.inl ⟨by rw [hjoin]; simp [hl], htid.trans hju⟩
        | other _ _ hjoin => exact Or.inl ⟨by rw [hjoin]; exact hl, htid.trans hju⟩
      · exact Or.inr (h.exited_step hs hex)
    · have hstart : s'.point j = .start :=
        href.effect.point_start hjt (h.inv.ok.placed.fresh j (Nat.not_lt.mp hn))
      rw [hstart] at hpj
      cases hpj

theorem joinsDone_of_run {tr : List (Sched × Act)} (h : Run Sched.step userInit tr s) :
    JoinsDone s := by
  have hall := h.invariant (fun s => Settled s ∧ JoinsDone s) ⟨Settled.init, ?_⟩
    fun x a x' hx hs => ⟨hx.1.step hs, hx.2.step hx.1 hs⟩
  · exact hall.2
  · intro j u hp
    by_cases hj : j = 1
    · subst hj; cases hp
    · have hstart : userInit.point j = .start := if_neg hj
      rw [hstart] at hp
      cases hp

/-- A join that returns 0 delivers the `join_ret` of a thread that has exited. -/
theorem ReturnsJoin.delivers (hr : ReturnsJoin s a s' j u p) (h : Settled s) (hd : JoinsDone s) :
    p = (s.thr u).joinRet ∧ Exited s u := by
  have hs := hr.step
  rcases hr.joins with rfl | ⟨rfl, hp⟩
  · have hcall := (step_call hr.running hs).2
    rw [call] at hcall
    split at hcall
    · cases hcall
      by_cases hz : u ∈ s.zombieThrList
      · have hres := hr.result
        rw [userJoin_zombie hz] at hres
        change Function.update s.result j (.joined 0 (some (s.thr u).joinRet)) j = _ at hres
        rw [Function.update_self] at hres
        simp only [Result.joined.injEq, Option.some.injEq, true_and] at hres
        exact ⟨hres.symm, Or.inl hz⟩
      · have hres := hr.result
        have hret := hr.returned
        rw [userJoin_alive hz] at hres hret
        split at hres
        · rename_i hf
          rw [if_pos hf, (dispatches_bloquear (s.joinBlocked j u) j (.join u)).point,
            Function.update_self] at hret
          cases hret
        · change Function.update s.result j (.joined (-1) none) j = _ at hres
          rw [Function.update_self] at hres
          cases hres
    · cases hcall
  · simp only [Sched.step, hr.running, resume, hp, Option.some.injEq] at hs
    subst hs
    have hres := hr.result
    change Function.update s.result j (.joined 0 (some (s.thr u).joinRet)) j = _ at hres
    rw [Function.update_self] at hres
    simp only [Result.joined.injEq, Option.some.injEq, true_and] at hres
    refine ⟨hres.symm, (hd j u hp).resolve_left fun hc => ?_⟩
    exact (running_not_parked h.inv h.parked hr.running).2.1 hc.1

/--
In any run in which `u` exits with `v` and a join of `u` by `j` returns 0, the value the join
delivers is `v` if and only if `v` is the last value that `u` was handed itself, by a thread
it was blocked joining, before it exited (`NULL` if it never was).
-/
theorem exit_value_iff {tr tr₁ tr₂ : List (Sched × Act)} {s y x x' : Sched} {a : Act}
    {u j : Tid} {v p : Ptr} (h : Run Sched.step userInit tr s)
    (htr : tr = tr₁ ++ (y, .call (.exit v)) :: tr₂) (hu : y.activeThr = some u)
    (hx : (x, a) ∈ tr) (hr : ReturnsJoin x a x' j u p) : p = v ↔ lastReceived tr₁ u = v := by
  subst htr
  obtain ⟨hy, z, hz, hrest⟩ := h.split_at
  have hset : Settled y := Settled.init.run hy
  obtain ⟨-, -, halive⟩ := running_not_parked hset.inv hset.parked hu
  have hexited : Exited z u := by
    cases step_joinStep hset.inv hu hz with
    | exit _ _ hexited => exact (hexited u).mpr (Or.inr rfl)
    | other _ ha => exact absurd rfl (ha v)
  have hret : (z.thr u).joinRet = lastReceived tr₁ u := by
    have hist := history_of_run hy
    have hl := (running_not_parked hset.inv hset.parked hu).2.1
    rw [joinRet_step hset.inv hist.fresh hz u, receives_none hl, Option.getD_none, hist.joinRet u]
  rcases List.mem_append.mp hx with hx | hx
  · -- the join returns before the thread it joins has exited
    obtain ⟨l₁, l₂, rfl⟩ := List.append_of_mem hx
    obtain ⟨hx₁, x₁, hs₁, hrun⟩ := hy.split_at
    have hsx : Settled x := Settled.init.run hx₁
    have hex := (hr.delivers hsx (joinsDone_of_run hx₁)).2
    exact absurd (exited_run (hx₁.snoc hs₁) hrun (hsx.exited_step hs₁ hex)).1 halive
  · rcases List.mem_cons.mp hx with hx | hx
    · obtain ⟨rfl, rfl⟩ := Prod.mk.inj hx
      rcases hr.joins with hc | ⟨hc, -⟩ <;> cases hc
    · obtain ⟨l₁, l₂, rfl⟩ := List.append_of_mem hx
      obtain ⟨hx₁, x₁, hs₁, -⟩ := hrest.split_at
      have hx₀ : Run Sched.step userInit (tr₁ ++ (y, .call (.exit v)) :: l₁) x := by
        have hall := h
        rw [← List.cons_append, ← List.append_assoc] at hall
        exact hall.split_at.1
      have hp := (hr.delivers (Settled.init.run hx₀) (joinsDone_of_run hx₀)).1
      rw [hp, (exited_run (hy.snoc hz) hx₁ hexited).2, hret]

/-- The main thread joins thread 2, which exits with 7. -/
def exitSeven : List Act := [.call (.create 0), .call (.join 2), .resume]

/-- The join delivers `NULL`. -/
theorem exit_value_lost :
    ∃ tr s y x x' p, Run Sched.step userInit tr s ∧ (y, .call (.exit 7)) ∈ tr ∧
      y.activeThr = some 2 ∧ (x, .resume) ∈ tr ∧ ReturnsJoin x .resume x' 1 2 p ∧ p ≠ 7 := by
  have hrun : (runTrace Sched.step userInit exitSeven).bind (fun r =>
      (Sched.step r.2 (.call (.exit 7))).bind fun x => (Sched.step x .resume).map fun x' =>
        (r.2.activeThr, x.activeThr, x.point 1, x'.point 1, x'.result 1)) =
      some (some 2, some 1, .join 2, .user, .joined 0 (some 0)) := by decide
  obtain ⟨⟨tr, y⟩, htr, hrun⟩ := Option.bind_eq_some_iff.mp hrun
  obtain ⟨x, hx, hrun⟩ := Option.bind_eq_some_iff.mp hrun
  obtain ⟨x', hx', hfacts⟩ := Option.map_eq_some_iff.mp hrun
  simp only [Prod.mk.injEq] at hfacts
  obtain ⟨hy, hxt, hpoint, hpoint', hresult⟩ := hfacts
  have hall := ((run_of_runTrace _ .nil htr).snoc hx).snoc hx'
  exact ⟨_, x', y, x, x', 0, hall, by simp, hy, by simp,
    ⟨hxt, hx', Or.inr ⟨rfl, hpoint⟩, hpoint', hresult⟩, by decide⟩

/-- Thread 2 joins thread 3, which exits with 7, and exits with 7 itself. -/
def handOnSeven : List Act :=
  [.call (.create 0), .call (.join 2), .resume, .call (.create 0), .call (.join 3), .resume,
    .call (.exit 7), .resume]

/-- The main thread, which joins thread 2, gets 7. -/
theorem exit_value_iff_handed_on :
    ∃ tr s y x x' p, Run Sched.step userInit tr s ∧ (y, .call (.exit 7)) ∈ tr ∧
      y.activeThr = some 2 ∧ ReturnsJoin x .resume x' 1 2 p ∧ p = 7 := by
  have hrun : (runTrace Sched.step userInit handOnSeven).bind (fun r =>
      (Sched.step r.2 (.call (.exit 7))).bind fun x => (Sched.step x .resume).map fun x' =>
        (r.2.activeThr, x.activeThr, x.point 1, x'.point 1, x'.result 1, lastReceived r.1 2)) =
      some (some 2, some 1, .join 2, .user, .joined 0 (some 7), 7) := by decide
  obtain ⟨⟨tr, y⟩, htr, hrun⟩ := Option.bind_eq_some_iff.mp hrun
  obtain ⟨x, hx, hrun⟩ := Option.bind_eq_some_iff.mp hrun
  obtain ⟨x', hx', hfacts⟩ := Option.map_eq_some_iff.mp hrun
  simp only [Prod.mk.injEq] at hfacts
  obtain ⟨hy, hxt, hpoint, hpoint', hresult, hlast⟩ := hfacts
  have hall := ((run_of_runTrace _ .nil htr).snoc hx).snoc hx'
  have hret : ReturnsJoin x .resume x' 1 2 7 :=
    ⟨hxt, hx', Or.inr ⟨rfl, hpoint⟩, hpoint', hresult⟩
  refine ⟨_, x', y, x, x', 7, hall, by simp, hy, hret, ?_⟩
  have hsplit : tr ++ [(y, .call (.exit 7))] ++ [(x, .resume)] =
      tr ++ (y, .call (.exit 7)) :: [(x, .resume)] := by simp
  exact (exit_value_iff hall hsplit hy (by simp) hret).mpr hlast

end Sthreads.User
