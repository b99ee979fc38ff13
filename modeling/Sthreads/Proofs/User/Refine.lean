/-
Every step of the scheduler has one of the effects of `Effect`.

One lemma a function: from a state with the invariant, what the function does to the
places, the points and the locks is the effect named in the lemma.  The invariant
of the scheduler follows from this and from `Effect.ok` for every reachable state.
-/
import Sthreads.Lib.Run
import Sthreads.Proofs.User.Dispatch
import Sthreads.Proofs.User.Effect
import Mathlib.Tactic.SplitIfs

namespace Sthreads.User

open Runqueue

theorem inRange_clampDynamic (p : Int) : InRange (clampDynamic p) := by
  simp only [InRange, clampDynamic, dynMinPrio]
  split_ifs <;> omega

theorem inRange_recalcular {t : Thread} (h : InRange t.priority) :
    InRange (recalcular t).priority := by
  unfold recalcular
  split
  · exact h
  · exact inRange_clampDynamic _

namespace Sched

/-- The abstract state. -/
def places (s : Sched) : Places :=
  { run := s.activeThr, slots := s.slots, point := s.point, locks := s.locks, mons := s.mons
    tidGen := s.tidGen }

/-- The invariant of the scheduler. -/
structure Inv (s : Sched) : Prop where
  ok : s.places.Ok
  prio : s.PrioInRange

/-- `s₁` differs from `s` in what the places and the locks do not depend on. -/
structure Frame (s s₁ : Sched) : Prop where
  activeThr : s₁.activeThr = s.activeThr
  point : s₁.point = s.point
  locks : s₁.locks = s.locks
  mons : s₁.mons = s.mons
  tidGen : s₁.tidGen = s.tidGen

theorem Frame.setThread {s s₁ : Sched} {t : Tid} {v : Thread} (h : Frame s s₁) :
    Frame s (s₁.setThread t v) := ⟨h.activeThr, h.point, h.locks, h.mons, h.tidGen⟩

/-- A step of `t` with one of the effects; the priorities stay in range. -/
structure Refines (s : Sched) (t : Tid) (a : Act) (s' : Sched) : Prop where
  effect : Effect s.places t a s'.places
  prio : s'.PrioInRange

theorem slots_eq (s : Sched) : s.slots = ↑s.activeThr.toList + s.offCpu := rfl

theorem slots_of_running {s : Sched} {t : Tid} (ht : s.activeThr = some t) :
    s.slots = t ::ₘ s.offCpu := by
  rw [slots_eq, ht]
  rfl

theorem slots_inserirActive {s : Sched} (h : s.PrioInRange) (t : Tid) :
    (s.inserirActive t).slots = t ::ₘ s.slots := by
  rw [slots_eq, slots_eq, offCpu_inserirActive h, Multiset.add_cons]
  rfl

theorem count_offCpu (s : Sched) (x : Tid) : s.offCpu.count x =
    s.activeRq.threads.count x + s.expiredRq.threads.count x + s.sleepThrList.count x +
      s.joinThrList.count x + s.zombieThrList.count x + s.deadThrList.count x := by
  simp only [offCpu, ready, lists, Multiset.coe_count, List.count_append]
  omega

theorem count_slot (t x : Tid) (sl : Multiset Tid) :
    (t ::ₘ sl).count x = sl.count x + [t].count x := by
  rw [Multiset.count_cons, List.count_singleton]
  by_cases hx : x = t
  · simp [hx]
  · simp [hx, Ne.symm hx]

theorem places_congr {P : Places} {sl : Multiset Tid} (h : P.slots = sl) :
    P = { P with slots := sl } := by
  rw [← h]

theorem PrioInRange.recalcularThr {s : Sched} (h : s.PrioInRange) (t : Tid) :
    (s.recalcularThr t).PrioInRange := h.setThread (inRange_recalcular (h t))

theorem PrioInRange.dispatched {s s' : Sched} {t : Tid} {p : Point} (h : s.PrioInRange)
    (hd : Dispatches s s' t p) : s'.PrioInRange := by
  intro u
  rw [hd.thr]
  exact h u

variable {s : Sched} {t : Tid}

/-- What a dispatch does to the places. -/
theorem Dispatches.places {s s' : Sched} {t : Tid} {p : Point} (hd : Dispatches s s' t p) :
    s'.places = { s.places with run := s'.activeThr, slots := s.offCpu
                                point := Function.update s.point t p } := by
  rw [Sched.places, hd.slots, hd.point, hd.locks, hd.mons, hd.tidGen]
  rfl

/-! ### Steps that leave the places as they are -/

theorem Refines.stay {s' : Sched} {a : Act} (hp : s'.PrioInRange) (hoff : s'.offCpu = s.offCpu)
    (hf : Frame s s') : Refines s t a s' := by
  refine ⟨?_, hp⟩
  have heq : s'.places = s.places := by
    simp only [places, slots_eq, hoff, hf.activeThr, hf.point, hf.locks, hf.mons, hf.tidGen]
  rw [heq]
  exact Effect.stay a

/-- The caller leaves the processor through `s₁`, in which it was put in some slot. -/
theorem Refines.leave {s₁ s' : Sched} {a : Act} {p : Point} (hd : Dispatches s₁ s' t p)
    (hu : s.point t = .user) (hoff : s₁.offCpu = s.slots) (hf : Frame s s₁)
    (hprio : s₁.PrioInRange) (hp : p ≠ .user) (hneeds : p.needs = none) (hx : p.extra = 0) :
    Refines s t a s' := by
  refine ⟨?_, hprio.dispatched hd⟩
  have heq : s'.places = { s.places with run := s'.activeThr
                                         point := Function.update s.point t p } := by
    rw [hd.places, places, hoff, hf.point, hf.locks, hf.mons, hf.tidGen]
    rfl
  rw [heq]
  exact Effect.leave a p s'.activeThr hu hp hneeds hx

/-! ### Creation, nice, exit, yield, join, sleep -/

/-- `sthread_user_create_p` files a thread of one of the fifteen priorities in `active_rq`. -/
theorem userCreateP_eq (hp : s.PrioInRange) (t : Tid) (priority : Int) :
    ∃ s₁ : Sched, s₁.PrioInRange ∧
      s₁.places = { s.places with point := Function.update s.point s.tidGen .start
                                  tidGen := s.tidGen + 1 } ∧
      s.userCreateP t priority = ((s₁.inserirActive s.tidGen).splx .low).setResult t
        (.created s.tidGen) := by
  refine ⟨{ s.setThread s.tidGen (newThread _) with
              level := .high, tidGen := s.tidGen + 1
              point := Function.update s.point s.tidGen .start }, hp.setThread ?_, rfl, rfl⟩
  simp only [newThread, InRange]
  split_ifs <;> omega

theorem refines_userCreateP (hp : s.PrioInRange) (priority : Int) (a : Act) :
    Refines s t a (s.userCreateP t priority) := by
  obtain ⟨s₁, hprio, hpl, heq⟩ := userCreateP_eq hp t priority
  rw [heq]
  refine ⟨?_, hprio⟩
  have hslots := slots_inserirActive hprio s.tidGen
  rw [show s₁.slots = s.slots from congrArg Places.slots hpl] at hslots
  have hpl' : (((s₁.inserirActive s.tidGen).splx .low).setResult t (.created s.tidGen)).places
      = { s₁.places with slots := s.tidGen ::ₘ s.slots } := places_congr hslots
  rw [hpl', hpl]
  exact Effect.create a

theorem refines_userNice (hp : s.PrioInRange) (n : Int) (a : Act) :
    Refines s t a (s.userNice t n) :=
  Refines.stay (hp.setThread (hp t)) rfl ⟨rfl, rfl, rfl, rfl, rfl⟩

/-- The lists of `sthread_user_exit`: the joiners become ready and the caller is filed away. -/
theorem exitLists_spec (hp : s.PrioInRange) (t : Tid) (ret : Ptr) :
    (s.exitLists t ret).offCpu = t ::ₘ s.offCpu ∧ (s.exitLists t ret).PrioInRange ∧
      Frame s (s.exitLists t ret) ∧ (s.exitLists t ret).level = .high ∧
      (s.exitLists t ret).sleepThrList = s.sleepThrList := by
  have hjoin := refiles_wakeJoiners t ret (s.splx .high).joinThrList (s.splx .high) [] true hp
  have hp' := hjoin.prioInRange hp
  revert hjoin hp'
  unfold exitLists
  dsimp only
  generalize wakeJoiners t ret (s.splx .high).joinThrList (s.splx .high) [] true = w
  obtain ⟨s₁, tmp, z⟩ := w
  rintro ⟨th, a, rfl, hth, hperm⟩ hp'
  rw [List.append_nil] at hperm
  cases z
  all_goals
    refine ⟨?_, hp', ⟨rfl, rfl, rfl, rfl, rfl⟩, rfl, rfl⟩
    ext x
    have hc := hperm.count_eq x
    simp only [count_offCpu, count_slot, splx, List.count_append, if_true, if_false,
      Bool.false_eq_true] at hc ⊢
    omega

theorem refines_userExit (hp : s.PrioInRange) (ht : s.activeThr = some t)
    (hu : s.point t = .user) (ret : Ptr) (a : Act) {s' : Sched}
    (h : s.userExit t ret = some s') : Refines s t a s' := by
  obtain ⟨hoff, hp', hframe, -⟩ := exitLists_spec hp t ret
  unfold userExit at h
  dsimp only at h
  split at h
  · cases h
  · cases h
    exact Refines.leave (dispatches_bloquear _ t .exited) hu
      (hoff.trans (slots_of_running ht).symm) hframe hp' (by simp) rfl rfl

/-- After the caller was filed in `active_rq` it is not empty: a yield always switches. -/
theorem dispatches_userYield (hp : s.PrioInRange) (t : Tid) :
    Dispatches (((s.splx .high).recalcularThr t).inserirActive t) (s.userYield t) t .yield := by
  have hne := inserirActive_ne_nil (s := (s.splx .high).recalcularThr t) (hp.recalcularThr t) t
  have hv : ¬ (((s.splx .high).recalcularThr t).inserirActive t).activeRq.rqVazia = true :=
    fun hc => hne (rqVazia_iff.mp hc)
  unfold userYield
  rw [if_neg hv]
  exact dispatches_retirarActive hne t .yield

theorem refines_userYield (hp : s.PrioInRange) (ht : s.activeThr = some t)
    (hu : s.point t = .user) (a : Act) : Refines s t a (s.userYield t) := by
  have hp' : ((s.splx .high).recalcularThr t).PrioInRange := PrioInRange.recalcularThr hp t
  exact Refines.leave (dispatches_userYield hp t) hu
    ((offCpu_inserirActive hp' t).trans (slots_of_running ht).symm) ⟨rfl, rfl, rfl, rfl, rfl⟩ hp'
    (by simp) rfl rfl

theorem refines_userJoin (hp : s.PrioInRange) (ht : s.activeThr = some t)
    (hu : s.point t = .user) (u : Tid) (a : Act) : Refines s t a (s.userJoin t u) := by
  unfold userJoin
  dsimp only
  split
  · -- the zombie goes to the dead threads
    refine Refines.stay hp ?_ ⟨rfl, rfl, rfl, rfl, rfl⟩
    ext x
    have hz : (s.zombieThrList.filter (· == u)).count x + (s.zombieThrList.filter (· != u)).count x
        = s.zombieThrList.count x := by
      rw [← List.count_append]
      exact (List.filter_append_perm (· == u) s.zombieThrList).count_eq x
    simp only [count_offCpu, splx, setResult, List.count_append]
    omega
  · split
    · have hp' : ((s.splx .high).setThread t { s.thr t with joinTid := u }).PrioInRange :=
        hp.setThread (hp t)
      refine Refines.leave (dispatches_bloquear _ t (.join u)) hu ?_ ⟨rfl, rfl, rfl, rfl, rfl⟩ ?_
        (by simp) rfl rfl
      · rw [slots_of_running ht]
        ext x
        simp only [count_offCpu, count_slot, splx, setThread, List.count_append]
        omega
      · exact hp'
    · exact Refines.stay hp rfl ⟨rfl, rfl, rfl, rfl, rfl⟩

theorem refines_userSleep (hp : s.PrioInRange) (ht : s.activeThr = some t)
    (hu : s.point t = .user) (time : Int) (a : Act) : Refines s t a (s.userSleep t time) := by
  unfold userSleep
  dsimp only
  split
  · exact Refines.stay hp rfl ⟨rfl, rfl, rfl, rfl, rfl⟩
  · refine Refines.leave (dispatches_bloquear _ t .sleep) hu ?_ ⟨rfl, rfl, rfl, rfl, rfl⟩ ?_
      (by simp) rfl rfl
    · rw [slots_of_running ht]
      ext x
      simp only [count_offCpu, count_slot, splx, setThread, List.count_append]
      omega
    · exact PrioInRange.setThread hp (hp t)

/-! ### The dispatcher -/

/-- Waking the sleepers moves them between the lists. -/
theorem tickWake_spec (hp : s.PrioInRange) :
    s.tickWake.offCpu = s.offCpu ∧ s.tickWake.PrioInRange ∧ Frame s s.tickWake ∧
      s.tickWake.level = s.level := by
  have hwake := refiles_wakeSleepers s.sleepThrList { s with clock := s.clock + 1 } [] hp
  have hp' := hwake.prioInRange hp
  revert hwake hp'
  unfold tickWake
  dsimp only
  generalize wakeSleepers s.sleepThrList { s with clock := s.clock + 1 } [] = w
  obtain ⟨s₁, tmp⟩ := w
  rintro ⟨th, a, rfl, hth, hperm⟩ hp'
  refine ⟨?_, hp', ⟨rfl, rfl, rfl, rfl, rfl⟩, rfl⟩
  ext x
  have hc := hperm.count_eq x
  simp only [count_offCpu, List.count_append, List.count_nil] at hc ⊢
  omega

/-- A tick leaves the running thread where it is, or files it in one of the runqueues. -/
theorem userDispatcher_spec (hp : s.PrioInRange) (t : Tid) :
    ∃ s₁ : Sched, s₁.offCpu = s.offCpu ∧ s₁.PrioInRange ∧ Frame s s₁ ∧ s₁.level = s.level ∧
      (s.userDispatcher t = s₁ ∨
        Dispatches (s₁.inserirActive t) (s.userDispatcher t) t .tick ∨
        Dispatches (s₁.inserirExpired t) (s.userDispatcher t) t .tick) := by
  obtain ⟨hoff, hp', hf, hlevel⟩ := tickWake_spec hp
  have hcharged : (s.tickWake.setThread t
      { s.tickWake.thr t with quantum := (s.tickWake.thr t).quantum - 1 }).PrioInRange :=
    hp'.setThread (hp' t)
  unfold userDispatcher
  dsimp only
  split
  · refine ⟨s.tickWake.setThread t _, hoff, hcharged, hf.setThread, hlevel, ?_⟩
    split
    · exact Or.inr (Or.inl (dispatches_retirarActive (inserirActive_ne_nil hcharged t) t .tick))
    · exact Or.inl rfl
  · refine ⟨_, ?_, PrioInRange.recalcularThr ?_ t, ?_, ?_,
      Or.inr (Or.inr (dispatches_bloquear _ t .tick))⟩
    · exact hoff
    · exact hcharged.setThread (hcharged t)
    · exact hf.setThread.setThread.setThread
    · exact hlevel

theorem refines_userDispatcher (hp : s.PrioInRange) (ht : s.activeThr = some t)
    (hu : s.point t = .user) (a : Act) : Refines s t a (s.userDispatcher t) := by
  obtain ⟨s₁, hoff, hp', hf, -, heq | hd | hd⟩ := userDispatcher_spec hp t
  · rw [heq]
    exact Refines.stay hp' hoff hf
  · refine Refines.leave hd hu ?_ ⟨hf.activeThr, hf.point, hf.locks, hf.mons, hf.tidGen⟩ hp'
      (by simp) rfl rfl
    rw [offCpu_inserirActive hp', hoff, slots_of_running ht]
  · refine Refines.leave hd hu ?_ ⟨hf.activeThr, hf.point, hf.locks, hf.mons, hf.tidGen⟩ hp'
      (by simp) rfl rfl
    rw [offCpu_inserirExpired hp', hoff, slots_of_running ht]

/-! ### Mutexes -/

@[simp] theorem locks_setLock (s : Sched) (l : Lock) (v : Mutex) :
    (s.setLock l v).locks = Function.update s.locks l v := rfl

@[simp] theorem setLock_setLock (s : Sched) (l : Lock) (v w : Mutex) :
    (s.setLock l v).setLock l w = s.setLock l w := by
  simp [setLock]

theorem spin_clear {l : Lock} (hc : (s.locks l).l = false) :
    s.spin l = some (s.setLock l { s.locks l with l := true }) := by
  simp [spin, hc]

theorem userMutexLock_free {l : Lock} (hc : (s.locks l).l = false)
    (hfree : (s.locks l).thr = none) :
    s.userMutexLock t l = some (s.setLock l ⟨false, some t, (s.locks l).queue⟩) := by
  simp [userMutexLock, spin_clear hc, atomicClear, hfree]

/-- The state in which a thread that has to wait for a lock gives the processor up. -/
def queued (s : Sched) (t : Tid) (l : Lock) : Sched :=
  { (s.recalcularThr t).setLock l ⟨false, (s.locks l).thr, (s.locks l).queue ++ [t]⟩ with
    blockedList := s.blockedList ++ [t], level := .high }

theorem userMutexLock_taken {l : Lock} (hc : (s.locks l).l = false)
    (htaken : (s.locks l).thr ≠ none) :
    s.userMutexLock t l = some ((s.queued t l).bloquear t (.lock l)) := by
  obtain ⟨o, ho⟩ := Option.ne_none_iff_exists'.mp htaken
  simp [userMutexLock, spin_clear hc, atomicClear, ho, queued, splx, recalcularThr, setThread,
    setLock]

/-- The owner gave the lock up: the oldest thread of its queue owns it and is ready. -/
def granted (s : Sched) (l : Lock) : Sched :=
  match (s.locks l).queue with
  | [] => s.setLock l (s.locks l).handed
  | u :: _ => ({ s.setLock l (s.locks l).handed with
                 blockedList := s.blockedList.filter (· != u) } : Sched).inserirActive u

theorem granted_nil {l : Lock} (hq : (s.locks l).queue = []) :
    s.granted l = s.setLock l (s.locks l).handed := by
  simp [granted, hq]

theorem granted_cons {l : Lock} {u : Tid} {rest : List Tid} (hq : (s.locks l).queue = u :: rest) :
    s.granted l = ({ s.setLock l (s.locks l).handed with
      blockedList := s.blockedList.filter (· != u) } : Sched).inserirActive u := by
  simp [granted, hq]

/-- The thread that gets the lock has a better priority than `t`. -/
def preempts (s : Sched) (t : Tid) (l : Lock) : Bool :=
  (s.locks l).queue.head?.any fun u => (s.thr u).priority < (s.thr t).priority

theorem userMutexUnlock_owner {l : Lock} {p : Point} (hc : (s.locks l).l = false)
    (hown : (s.locks l).thr = some t) :
    s.userMutexUnlock t l p =
      if s.preempts t l then
        some (((s.granted l).inserirActive t).retirarActive.sthreadSwitch t p, false)
      else some (s.granted l, true) := by
  unfold userMutexUnlock
  rw [if_neg (by simp [hown]), spin_clear hc]
  cases hq : (s.locks l).queue with
  | nil => simp [hq, preempts, granted_nil hq, atomicClear, Mutex.handed]
  | cons u rest =>
      have hhead : s.preempts t l = decide ((s.thr u).priority < (s.thr t).priority) := by
        simp [preempts, hq]
      rw [hhead, granted_cons hq]
      simp [hq, Mutex.handed, atomicClear, setLock, inserirActive]

/-- What a release does to the places: the thread that gets the lock, if any, enters a slot. -/
theorem granted_spec (hp : s.PrioInRange) (l : Lock) :
    (s.granted l).places = { s.places with
      slots := ↑(s.locks l).queue.head?.toList + s.slots
      locks := Function.update s.locks l (s.locks l).handed } ∧
    (s.granted l).thr = s.thr ∧ (s.granted l).level = s.level ∧
    (s.granted l).sleepThrList = s.sleepThrList := by
  cases hq : (s.locks l).queue with
  | nil =>
      rw [granted_nil hq]
      refine ⟨?_, rfl, rfl, rfl⟩
      exact places_congr (by simp [places, slots, ready, lists, setLock])
  | cons u rest =>
      rw [granted_cons hq]
      refine ⟨?_, rfl, rfl, rfl⟩
      exact places_congr (slots_inserirActive (s := { s.setLock l (s.locks l).handed with
        blockedList := s.blockedList.filter (· != u) }) hp u)

theorem granted_prioInRange (hp : s.PrioInRange) (l : Lock) : (s.granted l).PrioInRange := by
  intro u
  rw [(granted_spec hp l).2.1]
  exact hp u

theorem refines_userMutexLock (hi : s.Inv) (ht : s.activeThr = some t) (hu : s.point t = .user)
    {l : Lock} {a : Act} (ha : a.takes = some l) {s' : Sched} (h : s.userMutexLock t l = some s') :
    Refines s t a s' := by
  have hc : (s.locks l).l = false := hi.ok.clear l
  by_cases hfree : (s.locks l).thr = none
  · rw [userMutexLock_free hc hfree] at h
    cases h
    exact ⟨Effect.acquire (P := s.places) a l ha hfree, hi.prio⟩
  · rw [userMutexLock_taken hc hfree] at h
    cases h
    have hd := dispatches_bloquear (s.queued t l) t (.lock l)
    have hp' : (s.queued t l).PrioInRange := PrioInRange.recalcularThr hi.prio t
    refine ⟨?_, hp'.dispatched hd⟩
    rw [hd.places]
    exact Effect.block (P := s.places) a l _ s.offCpu hu ha hfree (slots_of_running ht)

/-- The release that preempts its caller. -/
theorem dispatches_granted (hp : s.PrioInRange) (t : Tid) (l : Lock) (p : Point) :
    Dispatches ((s.granted l).inserirActive t)
      (((s.granted l).inserirActive t).retirarActive.sthreadSwitch t p) t p :=
  dispatches_retirarActive (inserirActive_ne_nil (granted_prioInRange hp l) t) t p

theorem offCpu_granted (hp : s.PrioInRange) (ht : s.activeThr = some t) (l : Lock) :
    t ::ₘ (s.granted l).offCpu = ↑(s.locks l).queue.head?.toList + s.slots := by
  have hpl := (granted_spec hp l).1
  have hrun : (s.granted l).activeThr = some t := (congrArg Places.run hpl).trans ht
  rw [← slots_of_running hrun]
  exact congrArg Places.slots hpl

theorem places_preempted (hp : s.PrioInRange) (ht : s.activeThr = some t) (l : Lock) (p : Point) :
    (((s.granted l).inserirActive t).retirarActive.sthreadSwitch t p).places = { s.places with
      run := (((s.granted l).inserirActive t).retirarActive.sthreadSwitch t p).activeThr
      slots := ↑(s.locks l).queue.head?.toList + s.slots
      point := Function.update s.point t p
      locks := Function.update s.locks l (s.locks l).handed } := by
  have hoff := offCpu_inserirActive (granted_prioInRange hp l) t
  rw [offCpu_granted hp ht] at hoff
  rw [(dispatches_granted hp t l p).places, hoff]
  change ({ (s.granted l).places with
    run := _, slots := _, point := Function.update (s.granted l).places.point t p } : Places) = _
  rw [(granted_spec hp l).1]
  rfl

theorem refines_userMutexUnlock (hi : s.Inv) (ht : s.activeThr = some t)
    (hu : s.point t = .user) {l : Lock} {a : Act} (ha : a.givesUp = some l) {r : Sched × Bool}
    (h : s.userMutexUnlock t l .unlock = some r) : Refines s t a r.1 := by
  have hc : (s.locks l).l = false := hi.ok.clear l
  by_cases hown : (s.locks l).thr = some t
  · rw [userMutexUnlock_owner hc hown] at h
    have hp' := granted_prioInRange hi.prio l
    split at h
    · cases h
      refine ⟨?_, PrioInRange.dispatched (s := (s.granted l).inserirActive t) hp'
        (dispatches_granted hi.prio t l .unlock)⟩
      rw [places_preempted hi.prio ht]
      exact Effect.unlockPreempted (P := s.places) a l _ hu ha hown
    · cases h
      refine ⟨?_, hp'⟩
      rw [(granted_spec hi.prio l).1]
      exact Effect.unlock (P := s.places) a l hu ha hown
  · rw [userMutexUnlock, if_pos hown] at h
    cases h
    exact Refines.stay hi.prio rfl ⟨rfl, rfl, rfl, rfl, rfl⟩

/-! ### Monitors -/

/-- The caller of `sthread_user_monitor_wait` when it calls `sthread_user_mutex_unlock`. -/
def registered (s : Sched) (t : Tid) (m : Nat) : Sched :=
  { (s.recalcularThr t).setMon m (s.mons m ++ [t]) with blockedList := s.blockedList ++ [t] }

theorem PrioInRange.registered (h : s.PrioInRange) (t : Tid) (m : Nat) :
    (s.registered t m).PrioInRange := PrioInRange.recalcularThr h t

theorem userMonitorWait_owner {m : Nat} (hc : (s.locks (.monitor m)).l = false)
    (hown : (s.locks (.monitor m)).thr = some t) :
    s.userMonitorWait t m =
      if (s.registered t m).preempts t (.monitor m) then
        some ((((s.registered t m).granted (.monitor m)).inserirActive t).retirarActive.sthreadSwitch
          t (.unlockInWait m))
      else some (((s.registered t m).granted (.monitor m)).waitBlock t m) := by
  have hunlock := userMutexUnlock_owner (s := s.registered t m) (t := t) (p := .unlockInWait m)
    (l := .monitor m) hc hown
  unfold userMonitorWait
  rw [if_neg (by simp [hown])]
  change ((s.registered t m).userMutexUnlock t (.monitor m) (.unlockInWait m)).bind _ = _
  rw [hunlock]
  split <;> rfl

theorem refines_userMonitorWait (hi : s.Inv) (ht : s.activeThr = some t)
    (hu : s.point t = .user) {m : Nat} {s' : Sched} (h : s.userMonitorWait t m = some s') :
    Refines s t (.call (.monitorWait m)) s' := by
  have hc : (s.locks (.monitor m)).l = false := hi.ok.clear _
  by_cases hown : (s.locks (.monitor m)).thr = some t
  · rw [userMonitorWait_owner hc hown] at h
    have hreg := hi.prio.registered t m
    have hp' := granted_prioInRange hreg (.monitor m)
    split at h
    · cases h
      refine ⟨?_, PrioInRange.dispatched (s := ((s.registered t m).granted _).inserirActive t) hp'
        (dispatches_granted hreg t _ _)⟩
      rw [places_preempted hreg ht]
      exact Effect.waitPreempted (P := s.places) m _ hu hown
    · cases h
      have hd := dispatches_bloquear (((s.registered t m).granted (.monitor m)).splx .high) t
        (.wait m)
      refine ⟨?_, PrioInRange.dispatched
        (s := ((s.registered t m).granted (.monitor m)).splx .high) hp' hd⟩
      have hsl := offCpu_granted (s := s.registered t m) hreg ht (.monitor m)
      have hpl := hd.places
      change _ = ({ ((s.registered t m).granted (.monitor m)).places with
        run := _, slots := _
        point := Function.update ((s.registered t m).granted (.monitor m)).places.point t _ }
          : Places) at hpl
      rw [(granted_spec hreg (.monitor m)).1] at hpl
      rw [waitBlock, hpl]
      exact Effect.wait (P := s.places) m _ _ hu hown hsl.symm
  · rw [userMonitorWait, if_pos hown] at h
    cases h
    exact Refines.stay hi.prio rfl ⟨rfl, rfl, rfl, rfl, rfl⟩

/-- A signal with a waiter: the oldest waiter goes to the end of the queue of the mutex. -/
theorem userMonitorSignal_cons {m : Nat} {u : Tid} {rest : List Tid}
    (hc : (s.locks (.monitor m)).l = false) (hown : (s.locks (.monitor m)).thr = some t)
    (hmon : s.mons m = u :: rest) :
    s.userMonitorSignal t m =
      some { (s.setMon m rest).setLock (.monitor m)
               ⟨false, (s.locks (.monitor m)).thr, (s.locks (.monitor m)).queue ++ [u]⟩ with
             blockedList := s.blockedList.filter (· != u) } := by
  unfold userMonitorSignal
  rw [if_neg (by simp [hown]), spin_clear hc]
  simp [setLock, hmon, setMon, atomicClear]

theorem userMonitorSignal_nil {m : Nat} (hc : (s.locks (.monitor m)).l = false)
    (hown : (s.locks (.monitor m)).thr = some t) (hmon : s.mons m = []) :
    s.userMonitorSignal t m = some s := by
  have hsame : ({ s.locks (.monitor m) with l := false } : Mutex) = s.locks (.monitor m) := by
    rw [← hc]
  unfold userMonitorSignal
  rw [if_neg (by simp [hown]), spin_clear hc]
  simp [setLock, hmon, atomicClear, hsame]

theorem refines_userMonitorSignal (hi : s.Inv) {m : Nat} {s' : Sched}
    (h : s.userMonitorSignal t m = some s') : Refines s t (.call (.monitorSignal m)) s' := by
  have hc : (s.locks (.monitor m)).l = false := hi.ok.clear _
  by_cases hown : (s.locks (.monitor m)).thr = some t
  · cases hmon : s.mons m with
    | nil =>
        rw [userMonitorSignal_nil hc hown hmon] at h
        cases h
        exact Refines.stay hi.prio rfl ⟨rfl, rfl, rfl, rfl, rfl⟩
    | cons u rest =>
        rw [userMonitorSignal_cons hc hown hmon] at h
        cases h
        exact ⟨Effect.signal (P := s.places) m u rest hown hmon, hi.prio⟩
  · rw [userMonitorSignal, if_pos hown] at h
    cases h
    exact Refines.stay hi.prio rfl ⟨rfl, rfl, rfl, rfl, rfl⟩

/-! ### Steps and runs -/

theorem refines_call (hi : s.Inv) (ht : s.activeThr = some t) (hu : s.point t = .user) (c : Call)
    {s' : Sched} (h : s.call t c = some s') : Refines s t (.call c) s' := by
  cases c with
  | create priority =>
      cases h
      exact refines_userCreateP hi.prio priority _
  | nice n =>
      cases h
      exact refines_userNice hi.prio n _
  | exit ret => exact refines_userExit hi.prio ht hu ret _ h
  | yield =>
      cases h
      exact refines_userYield hi.prio ht hu _
  | join u =>
      rw [call] at h
      split at h
      · cases h
        exact refines_userJoin hi.prio ht hu u _
      · cases h
  | sleep time =>
      cases h
      exact refines_userSleep hi.prio ht hu time _
  | mutexLock n => exact refines_userMutexLock hi ht hu rfl h
  | mutexUnlock n =>
      obtain ⟨r, hr, rfl⟩ := Option.map_eq_some_iff.mp h
      exact refines_userMutexUnlock hi ht hu rfl hr
  | monitorEnter m => exact refines_userMutexLock hi ht hu rfl h
  | monitorExit m =>
      obtain ⟨r, hr, rfl⟩ := Option.map_eq_some_iff.mp h
      exact refines_userMutexUnlock hi ht hu rfl hr
  | monitorWait m => exact refines_userMonitorWait hi ht hu h
  | monitorSignal m => exact refines_userMonitorSignal hi h

/-- A resumed thread goes on to user code, or to the second half of a wait. -/
theorem resume_cases {s' : Sched} (h : s.resume t = some s') :
    (∃ m, s.point t = .unlockInWait m ∧ s' = s.waitBlock t m) ∨
    (s.point t ≠ .user ∧ (∀ m, s.point t ≠ .unlockInWait m) ∧
      ∃ v r, s' = { s with level := v, result := r, point := Function.update s.point t .user } ∧
        (v = .low ∨ v = s.level ∧ (s.point t = .tick ∨ s.point t = .unlock))) := by
  unfold resume at h
  split at h
  case h_1 => cases h
  case h_11 m hp =>
    cases h
    exact Or.inl ⟨m, hp, rfl⟩
  all_goals
    rename_i hp
    cases h
    refine Or.inr ⟨by simp [hp], by simp [hp], _, _, rfl, ?_⟩
    simp [hp, splx, setResult]

theorem refines_resume (hi : s.Inv) (ht : s.activeThr = some t) {s' : Sched}
    (h : s.resume t = some s') : Refines s t .resume s' := by
  obtain ⟨m, hp, rfl⟩ | ⟨-, hne, v, r, rfl, -⟩ := resume_cases h
  · have hd := dispatches_bloquear (s.splx .high) t (.wait m)
    refine ⟨?_, PrioInRange.dispatched (s := s.splx .high) hi.prio hd⟩
    rw [waitBlock, hd.places]
    exact Effect.finishWait (P := s.places) m _ s.offCpu hp (slots_of_running ht)
  · refine ⟨Effect.enter (P := s.places) ?_, hi.prio⟩
    change (s.point t).extra = 0
    cases hp : s.point t with
    | unlockInWait m => exact absurd hp (hne m)
    | _ => rfl

/-- Every step is a step of the running thread, with one of the effects. -/
theorem step_refines (hi : s.Inv) {a : Act} {s' : Sched} (h : step s a = some s') :
    ∃ t, s.activeThr = some t ∧ Refines s t a s' := by
  unfold step at h
  cases ht : s.activeThr with
  | none => simp [ht] at h
  | some t =>
      refine ⟨t, rfl, ?_⟩
      simp only [ht] at h
      cases a with
      | call c =>
          simp only at h
          split at h
          · rename_i hu
            exact refines_call hi ht hu c h
          · cases h
      | tick =>
          simp only at h
          split at h
          · rename_i hu
            cases h
            exact refines_userDispatcher hi.prio ht hu.1 _
          · cases h
      | resume => exact refines_resume hi ht h

theorem running_mem_slots (ht : s.activeThr = some t) : t ∈ s.slots := by
  rw [slots_of_running ht]
  exact Multiset.mem_cons_self t _

theorem Inv.step (hi : s.Inv) {a : Act} {s' : Sched} (h : Sched.step s a = some s') : s'.Inv := by
  obtain ⟨t, ht, href⟩ := step_refines hi h
  exact ⟨href.effect.ok hi.ok ht (running_mem_slots ht), href.prio⟩

theorem slots_userInit : userInit.slots = {1} := by
  simp [slots, ready, lists, userInit]

theorem Inv.init : userInit.Inv := by
  have hnw : ∀ t, ¬ Waits userInit.locks userInit.mons t := by
    rintro t (⟨m, hm⟩ | ⟨l, hl⟩)
    · simp [userInit] at hm
    · simp [userInit, mutexInit] at hl
  have hneeds : ∀ t, (userInit.point t).needs = none := by
    intro t
    by_cases ht : t = 1 <;> simp [userInit, ht, Point.needs]
  refine ⟨⟨⟨?_, ?_, ?_, ?_, ?_, ?_, ?_, ?_, ?_, ?_, ?_⟩, fun l => rfl, ?_, by decide⟩, ?_⟩
  · rintro t (ht | hw)
    · have h1 : t = 1 := by simpa [places, slots_userInit] using ht
      subst h1
      decide
    · exact absurd hw (hnw t)
  · intro t ht
    have h1 : t ≠ 1 := by
      rintro rfl
      exact absurd ht (by decide)
    simp [places, userInit, h1]
  · intro t h1 hn _
    have ht : t = 1 := by
      have : t < 2 := hn
      omega
    subst ht
    change userInit.slots.count 1 = 1
    rw [slots_userInit]
    rfl
  · exact fun t hw => absurd hw (hnw t)
  · exact fun l => List.nodup_nil
  · exact fun m => List.nodup_nil
  · exact fun t m hm => absurd (Or.inl ⟨m, hm⟩) (hnw t)
  · exact fun t l hl => absurd (Or.inr ⟨l, hl⟩) (hnw t)
  · exact fun t m hm => absurd (Or.inl ⟨m, hm⟩) (hnw t)
  · intro t l _ _ hneed
    rw [show userInit.places.point = userInit.point from rfl, hneeds t] at hneed
    cases hneed
  · exact fun l _ => rfl
  · intro t hu
    by_cases ht : t = 1
    · subst ht
      rfl
    · simp [places, userInit, ht] at hu
  · intro t
    by_cases ht : t = 1
    · subst ht
      simp [userInit, newThread, InRange]
    · simp [userInit, newThread, InRange, ht]

/-- Every state the scheduler reaches has the invariant. -/
theorem inv_of_run {tr : List (Sched × Act)} {s : Sched} (h : Run Sched.step userInit tr s) :
    s.Inv := h.invariant Inv Inv.init fun _ _ _ hi hs => hi.step hs

end Sched

end Sthreads.User
