/-
When a thread is in exactly one place.

A thread that `sthread_user_mutex_unlock` preempts inside
`sthread_user_monitor_wait` was already registered as a waiter of the monitor and is
filed in `active_rq` as well.  This is the only way to be in two places: a run keeps
every thread in one place exactly as long as no wait is preempted, and a wait is
preempted when the thread it hands the monitor to has a better priority than the
caller's recalculated one.
-/
import Sthreads.Proofs.User.MutexSafety

namespace Sthreads.User

open Sched Runqueue

/-- The places of the scheduler a thread can be in. -/
inductive Place
  | running
  | activeRq (i : Fin numPriorities)
  | expiredRq (i : Fin numPriorities)
  | sleep
  | join
  | lock (l : Lock)
  | monitor (m : Nat)
  | zombie
  | dead

/-- The threads in a place. -/
def Sched.contents (s : Sched) : Place → List Tid
  | .running => s.activeThr.toList
  | .activeRq i => s.activeRq.filas (i : Nat)
  | .expiredRq i => s.expiredRq.filas (i : Nat)
  | .sleep => s.sleepThrList
  | .join => s.joinThrList
  | .lock l => (s.locks l).queue
  | .monitor m => s.mons m
  | .zombie => s.zombieThrList
  | .dead => s.deadThrList

/-- `t` occurs once in one place and in no other. -/
def InOnePlace (s : Sched) (t : Tid) : Prop :=
  ∃ p, (s.contents p).count t = 1 ∧ ∀ q, q ≠ p → (s.contents q).count t = 0

/-- Every thread that was created is in exactly one place. -/
def EveryThreadInOnePlace (s : Sched) : Prop :=
  ∀ t : Nat, 1 ≤ t → t < s.tidGen → InOnePlace s t

/-- The step is no wait that hands the monitor to a thread of better priority than the
caller's recalculated one. -/
def WaitNotPreempted (s : Sched) (a : Act) : Prop :=
  ∀ t m, s.activeThr = some t → a = .call (.monitorWait m) →
    (s.locks (.monitor m)).thr = some t → ∀ u ∈ (s.locks (.monitor m)).queue.head?,
      (recalcular (s.thr t)).priority ≤ (s.thr u).priority

/-! ### The slots, place by place -/

/-- The places that are not the wait queue of a lock or of a monitor. -/
def slotPlaces : List Place :=
  .running :: ((List.finRange numPriorities).map .activeRq ++
    ((List.finRange numPriorities).map .expiredRq ++ [.sleep, .join, .zombie, .dead]))

theorem mem_slotPlaces {p : Place} (hl : ∀ l, p ≠ .lock l) (hm : ∀ m, p ≠ .monitor m) :
    p ∈ slotPlaces := by
  cases p with
  | lock l => exact absurd rfl (hl l)
  | monitor m => exact absurd rfl (hm m)
  | _ => simp [slotPlaces]

theorem threads_eq_flatMap (rq : Runqueue) : rq.threads =
    (List.finRange numPriorities).flatMap fun i : Fin numPriorities => rq.filas (i : Nat) := by
  rw [threads, ← List.map_coe_finRange_eq_range, List.flatMap_map]

theorem slots_eq_flatMap (s : Sched) : s.slots = ↑(slotPlaces.flatMap s.contents) := by
  simp [slots, ready, lists, slotPlaces, contents, threads_eq_flatMap, List.flatMap_map]

/-- Where the occurrences in a list of places are none, every place has none. -/
theorem count_flatMap_eq_zero {ps : List Place} {f : Place → List Tid} {t : Tid}
    (h : (ps.flatMap f).count t = 0) : ∀ p ∈ ps, (f p).count t = 0 := by
  intro p hp
  rw [List.count_eq_zero] at h ⊢
  exact fun ht => h (List.mem_flatMap.mpr ⟨p, hp, ht⟩)

/-- Where there is one occurrence in a list of places, it is in one of them. -/
theorem count_flatMap_eq_one {f : Place → List Tid} {t : Tid} :
    ∀ {ps : List Place}, (ps.flatMap f).count t = 1 →
      ∃ p ∈ ps, (f p).count t = 1 ∧ ∀ q ∈ ps, q ≠ p → (f q).count t = 0
  | [], h => by simp at h
  | p :: ps, h => by
      rw [List.flatMap_cons, List.count_append] at h
      by_cases hp : (f p).count t = 0
      · obtain ⟨p', hp', hone, hrest⟩ := count_flatMap_eq_one (show (ps.flatMap f).count t = 1 by omega)
        refine ⟨p', List.mem_cons_of_mem _ hp', hone, fun q hq hne => ?_⟩
        rcases List.mem_cons.mp hq with rfl | hq
        · exact hp
        · exact hrest q hq hne
      · have hzero := count_flatMap_eq_zero (show (ps.flatMap f).count t = 0 by omega)
        refine ⟨p, List.mem_cons_self, by omega, fun q hq hne => ?_⟩
        exact hzero q ((List.mem_cons.mp hq).resolve_left hne)

/-! ### One place, and the preempted waiter in two -/

variable {s s' : Sched} {t : Tid} {a : Act}

/-- A thread with one switch point to pass is in exactly one place. -/
theorem inOnePlace_of_extra (hi : s.Inv) {t : Nat} (h1 : 1 ≤ t) (hn : t < s.tidGen)
    (hx : (s.point t).extra = 0) : InOnePlace s t := by
  have hpl := hi.ok.placed
  by_cases hw : Waits s.locks s.mons t
  · -- in a wait queue, and then in no slot
    have hslots : s.slots.count t = 0 := (hpl.countWaits t hw).trans hx
    rw [slots_eq_flatMap, Multiset.coe_count] at hslots
    have hzero := count_flatMap_eq_zero hslots
    obtain ⟨m, hm⟩ | ⟨l, hl⟩ := hw
    · refine ⟨.monitor m, List.count_eq_one_of_mem (hpl.nodupMon m) hm, fun q hq => ?_⟩
      by_cases hql : ∃ l, q = .lock l
      · obtain ⟨l, rfl⟩ := hql
        exact List.count_eq_zero.mpr fun hl => (hpl.queue_only hl).1 m hm
      · by_cases hqm : ∃ m', q = .monitor m'
        · obtain ⟨m', rfl⟩ := hqm
          refine List.count_eq_zero.mpr fun hm' => hq ?_
          rw [(waitOnce_of_inv hi).oneMon t m m' hm hm']
        · exact hzero q (mem_slotPlaces (fun l hc => hql ⟨l, hc⟩) fun m' hc => hqm ⟨m', hc⟩)
    · refine ⟨.lock l, List.count_eq_one_of_mem (hpl.nodupLock l) hl, fun q hq => ?_⟩
      by_cases hql : ∃ l', q = .lock l'
      · obtain ⟨l', rfl⟩ := hql
        refine List.count_eq_zero.mpr fun hl' => hq ?_
        rw [(hpl.queue_only hl).2 l' hl']
      · by_cases hqm : ∃ m', q = .monitor m'
        · obtain ⟨m', rfl⟩ := hqm
          exact List.count_eq_zero.mpr fun hm' => (hpl.queue_only hl).1 m' hm'
        · exact hzero q (mem_slotPlaces (fun l hc => hql ⟨l, hc⟩) fun m' hc => hqm ⟨m', hc⟩)
  · -- in one of the slots
    have hslots : s.slots.count t = 1 := by
      have := hpl.countFree t h1 hn hw
      rw [show s.places.point = s.point from rfl, hx] at this
      exact this
    rw [slots_eq_flatMap, Multiset.coe_count] at hslots
    obtain ⟨p, -, hone, hrest⟩ := count_flatMap_eq_one hslots
    refine ⟨p, hone, fun q hq => ?_⟩
    cases q with
    | lock l => exact List.count_eq_zero.mpr fun hl => hw (Or.inr ⟨l, hl⟩)
    | monitor m => exact List.count_eq_zero.mpr fun hm => hw (Or.inl ⟨m, hm⟩)
    | _ => exact hrest _ (mem_slotPlaces (by simp) (by simp)) hq

/-- A waiter that is in a slot as well is in two places. -/
theorem not_inOnePlace {m : Nat} (hm : t ∈ s.mons m) (ht : t ∈ s.slots) : ¬ InOnePlace s t := by
  rintro ⟨p, -, hrest⟩
  have hp : p = .monitor m := by
    by_contra hc
    exact List.count_eq_zero.mp (hrest (.monitor m) (Ne.symm hc)) hm
  rw [slots_eq_flatMap, Multiset.mem_coe] at ht
  obtain ⟨q, hq, htq⟩ := List.mem_flatMap.mp ht
  have hqp : q ≠ p := by
    rw [hp]
    rintro rfl
    simp [slotPlaces] at hq
  exact List.count_eq_zero.mp (hrest q hqp) htq

/-! ### Steps -/

theorem preempts_eq_false_iff (s : Sched) (t : Tid) (l : Lock) : s.preempts t l = false ↔
    ∀ u ∈ (s.locks l).queue.head?, (s.thr t).priority ≤ (s.thr u).priority := by
  unfold preempts
  cases (s.locks l).queue.head? <;> simp

/-- The priorities `sthread_user_monitor_wait` compares. -/
theorem preempts_registered {m : Nat} (ht : t ∉ (s.locks (.monitor m)).queue) :
    (s.registered t m).preempts t (.monitor m) = false ↔
      ∀ u ∈ (s.locks (.monitor m)).queue.head?,
        (recalcular (s.thr t)).priority ≤ (s.thr u).priority := by
  rw [preempts_eq_false_iff]
  refine forall₂_congr fun u hu => ?_
  have hut : u ≠ t := by
    rintro rfl
    exact ht (List.mem_of_mem_head? hu)
  simp [registered, recalcularThr, setThread, setMon, Function.update_of_ne hut]

/-- Only a wait by the owner of a monitor can leave a thread with two switch points to pass. -/
theorem Effect.extra {P P' : Places} (he : Effect P t a P')
    (hx : ∀ u, (P.point u).extra = 0) : (∀ u, (P'.point u).extra = 0) ∨
      ∃ m, a = .call (.monitorWait m) ∧ (P.locks (.monitor m)).thr = some t := by
  have hupd : ∀ (v : Tid) (p : Point), p.extra = 0 →
      ∀ u, (Function.update P.point v p u).extra = 0 := by
    intro v p hp u
    by_cases huv : u = v
    · rw [huv, Function.update_self, hp]
    · rw [Function.update_of_ne huv]
      exact hx u
  cases he with
  | stay => exact Or.inl hx
  | create => exact Or.inl (hupd _ _ rfl)
  | enter => exact Or.inl (hupd _ _ rfl)
  | leave _ p _ _ _ _ hpx => exact Or.inl (hupd _ _ hpx)
  | acquire => exact Or.inl hx
  | block => exact Or.inl (hupd _ _ rfl)
  | unlock => exact Or.inl hx
  | unlockPreempted => exact Or.inl (hupd _ _ rfl)
  | wait => exact Or.inl (hupd _ _ rfl)
  | waitPreempted m _ _ hown => exact Or.inr ⟨m, rfl, hown⟩
  | finishWait => exact Or.inl (hupd _ _ rfl)
  | signal => exact Or.inl hx

/-- The caller of a wait owns the monitor, so it is not in the queue of its mutex. -/
theorem not_mem_queue_of_user (hi : s.Inv) (hu : s.point t = .user) (l : Lock) :
    t ∉ (s.locks l).queue := fun hq => hi.ok.user_not_waits hu (Or.inr ⟨l, hq⟩)

theorem extra_step (hi : s.Inv) (hx : ∀ u, (s.point u).extra = 0) (hok : WaitNotPreempted s a)
    (h : step s a = some s') : ∀ u, (s'.point u).extra = 0 := by
  obtain ⟨t, ht, href⟩ := step_refines hi h
  rcases href.effect.extra hx with hx' | ⟨m, rfl, hown⟩
  · exact hx'
  · obtain ⟨hu, hw⟩ := step_call ht h
    have hnp := (preempts_registered (not_mem_queue_of_user hi hu (.monitor m))).mpr
      (hok t m ht rfl hown)
    change s.userMonitorWait t m = some s' at hw
    rw [userMonitorWait_owner (hi.ok.clear _) hown, if_neg (by rw [hnp]; simp)] at hw
    cases hw
    intro u
    rw [waitBlock, (dispatches_bloquear _ t _).point]
    by_cases hut : u = t
    · rw [hut, Function.update_self]
      rfl
    · rw [Function.update_of_ne hut]
      have hgr : ((s.registered t m).granted (.monitor m)).point = s.point :=
        congrArg Places.point (granted_spec (hi.prio.registered t m) (.monitor m)).1
      change (((s.registered t m).granted (.monitor m)).point u).extra = 0
      rw [hgr]
      exact hx u

/-- A wait that is preempted leaves its caller in two places. -/
theorem two_places_of_preempted (hi : s.Inv) (hbad : ¬ WaitNotPreempted s a)
    (h : step s a = some s') : ¬ EveryThreadInOnePlace s' := by
  unfold WaitNotPreempted at hbad
  push Not at hbad
  obtain ⟨t, m, ht, rfl, hown, u, hhead, hlt⟩ := hbad
  obtain ⟨hu, hw⟩ := step_call ht h
  have hpre : (s.registered t m).preempts t (.monitor m) = true := by
    by_contra hc
    have hall := (preempts_registered (not_mem_queue_of_user hi hu (.monitor m))).mp
      (Bool.not_eq_true _ ▸ hc)
    exact absurd (hall u hhead) (by omega)
  change s.userMonitorWait t m = some s' at hw
  rw [userMonitorWait_owner (hi.ok.clear _) hown, if_pos hpre] at hw
  have hpl := places_preempted (hi.prio.registered t m) ht (.monitor m) (.unlockInWait m)
  rw [Option.some.inj hw] at hpl
  have hmn : s'.mons = Function.update s.mons m (s.mons m ++ [t]) := congrArg Places.mons hpl
  have hsl : s'.slots = ↑(s.locks (.monitor m)).queue.head?.toList + s.slots :=
    congrArg Places.slots hpl
  have htid : s'.tidGen = s.tidGen := congrArg Places.tidGen hpl
  have hcr := hi.ok.placed.created t (Or.inl (running_mem_slots ht))
  intro hall
  refine not_inOnePlace (m := m) ?_ ?_ (hall t hcr.1 (htid ▸ hcr.2))
  · rw [hmn, Function.update_self]
    simp
  · rw [hsl]
    exact Multiset.mem_add.mpr (Or.inr (running_mem_slots ht))

/-! ### Runs -/

/-- Every thread is in exactly one place all along a run if and only if no wait of the run is
preempted. -/
theorem one_place_iff {tr : List (Sched × Act)} {s : Sched} (h : Run step userInit tr s) :
    (∀ x ∈ visited tr s, EveryThreadInOnePlace x) ↔ ∀ p ∈ tr, WaitNotPreempted p.1 p.2 := by
  refine h.visited_iff (fun x => x.Inv ∧ ∀ u, (x.point u).extra = 0) ?_ ?_ ?_ ?_
  · refine ⟨Inv.init, fun u => ?_⟩
    by_cases hu : u = 1 <;> simp [userInit, hu, Point.extra]
  · exact fun x hx t h1 hn => inOnePlace_of_extra hx.1 h1 hn (hx.2 t)
  · exact fun x a x' hx hok hs => ⟨hx.1.step hs, extra_step hx.1 hx.2 hok hs⟩
  · exact fun x a x' hx hbad hs => two_places_of_preempted hx.1 hbad hs

/-- The main thread waits while a thread of priority 0 is queued for the monitor. -/
def preemptedWait : List Act :=
  [.call (.create 0), .call (.monitorEnter 0), .call .yield, .resume, .call (.monitorEnter 0),
    .resume, .call (.monitorWait 0)]

/-- The main thread is ready to run and a waiter of the monitor. -/
theorem preempted_wait_in_two_places :
    ∃ s, Reaches step userInit s ∧ s.activeRq.filas 5 = [1] ∧ s.mons 0 = [1] ∧
      ¬ EveryThreadInOnePlace s := by
  have hrun : (runActs step userInit preemptedWait).map
      (fun s => (s.activeRq.filas 5, s.mons 0, s.tidGen)) = some ([1], [1], 3) := by decide
  obtain ⟨s, hs, heq⟩ := Option.map_eq_some_iff.mp hrun
  simp only [Prod.mk.injEq] at heq
  obtain ⟨hact, hmon, hn⟩ := heq
  refine ⟨s, reaches_runActs _ hs, hact, hmon, fun hall => ?_⟩
  obtain ⟨p, -, hrest⟩ := hall 1 (Nat.le_refl 1) (by omega)
  have hm : p = .monitor 0 := by
    by_contra hc
    exact absurd (hrest (.monitor 0) (Ne.symm hc)) (by simp [contents, hmon])
  refine absurd (hrest (.activeRq ⟨5, by decide⟩) (by simp [hm])) ?_
  have hfila : s.contents (.activeRq ⟨5, by decide⟩) = [1] := hact
  simp [hfila]

/-- A wait nobody contends for: the caller is in the monitor's queue and nowhere else. -/
theorem one_place_iff_quiet_wait :
    ∃ tr s, Run step userInit tr s ∧ tr.length = 3 ∧ s.mons 0 = [1] ∧
      ∀ x ∈ visited tr s, EveryThreadInOnePlace x := by
  have hrun := ((Run.nil : Run step userInit [] userInit).snoc (a := .call (.create 7)) rfl
    |>.snoc (a := .call (.monitorEnter 0)) rfl).snoc (a := .call (.monitorWait 0)) rfl
  refine ⟨_, _, hrun, rfl, by decide, (one_place_iff hrun).mpr ?_⟩
  simp only [List.nil_append, List.cons_append, List.forall_mem_cons]
  refine ⟨?_, ?_, ?_, by simp⟩
  · rintro t m - hc
    cases hc
  · rintro t m - hc
    cases hc
  · rintro t m - hc - u hu
    cases hc
    cases hu

end Sthreads.User
