/-
Every lock of the scheduler is a Mesa monitor, and is served in the order in which it is asked
for.

`lockOf` reads a mutex or a monitor as a monitor of `Lib.Monitor`.  A step of the scheduler does
to it what the call of the running thread says, and nothing else does anything to it: no tick, no
yield, no preemption.  Each thread that asks for a lock comes back from its call when its turn
has come, and none of them is lost or comes back twice.
-/
import Sthreads.Lib.MonitorOps
import Sthreads.Proofs.User.ControlBlocks

namespace Sthreads.User

open Sched

/-- A lock: its owner and its queue, and the waiters of the monitor it belongs to. -/
def lockOf (s : Sched) (l : Lock) : Monitor Tid :=
  { owner := (s.locks l).thr
    entry := (s.locks l).queue
    waiting := match l with
      | .mutex _ => []
      | .monitor m => s.mons m }

/-- The lock that a call of `t` operates on, and the operation. -/
def Sched.Act.operates (t : Tid) : Act → Option (Lock × Monitor.Op Tid)
  | call (.mutexLock n) => some (.mutex n, .enter t)
  | call (.mutexUnlock n) => some (.mutex n, .exit)
  | call (.monitorEnter m) => some (.monitor m, .enter t)
  | call (.monitorExit m) => some (.monitor m, .exit)
  | call (.monitorWait m) => some (.monitor m, .wait t)
  | call (.monitorSignal m) => some (.monitor m, .signal)
  | _ => none

/-- The operation on `l` that a step is; what is the owner's has no effect by another thread. -/
def operation (s : Sched) (a : Act) (l : Lock) : Option (Monitor.Op Tid) :=
  s.activeThr.bind fun t => (a.operates t).bind fun p =>
    if p.1 = l ∧ (p.2 = .enter t ∨ (s.locks l).thr = some t) then some p.2 else none

/-- The owner of `l`, if it has not come back yet from the call that made it the owner. -/
def pending (s : Sched) (l : Lock) : List Tid :=
  (lockOf s l).owner.toList.filter fun t => (s.point t).needs = some l ∧
    t ∉ (lockOf s l).entry ∧ t ∉ (lockOf s l).waiting

/-- Who comes back by a step from a call that needed `l`. -/
def comesBack (l : Lock) (s : Sched) (a : Act) (s' : Sched) : List Tid :=
  s.activeThr.toList.filter fun t =>
    s'.point t = .user ∧ (a.takes = some l ∨ a = .resume ∧ (s.point t).needs = some l)

/-- Who has come back, in order. -/
def returned (l : Lock) (tr : List (Sched × Act)) (s : Sched) : List Tid :=
  (transitions tr s).flatMap fun p => comesBack l p.1.1 p.1.2 p.2

/-- Who has asked for `l`: by calling a function that takes it, or by being signalled. -/
def asked (l : Lock) (tr : List (Sched × Act)) : List Tid :=
  tr.flatMap fun p => (operation p.1 p.2 l).elim [] (lockOf p.1 l).asks

/-- Who has waited. -/
def waited (l : Lock) (tr : List (Sched × Act)) : List Tid :=
  tr.flatMap fun p => (operation p.1 p.2 l).elim [] Monitor.waits

/-- Who has been signalled. -/
def signalled (l : Lock) (tr : List (Sched × Act)) : List Tid :=
  tr.flatMap fun p => (operation p.1 p.2 l).elim [] (lockOf p.1 l).wakes

variable {s s' : Sched} {t : Tid} {a : Act} {l : Lock} {o : Monitor.Op Tid}

/-! ### Which operation a step is -/

theorem operation_eq_some (ht : s.activeThr = some t) : operation s a l = some o ↔
    a.operates t = some (l, o) ∧ (o = .enter t ∨ (s.locks l).thr = some t) := by
  cases ho : a.operates t with
  | none => simp [operation, ht, ho]
  | some p =>
      obtain ⟨l', o'⟩ := p
      simp only [operation, ht, ho, Option.bind_some, Option.some.injEq, Prod.mk.injEq,
        Option.ite_none_right_eq_some]
      constructor
      · intro h
        obtain ⟨⟨rfl, how⟩, rfl⟩ := h
        exact ⟨⟨rfl, rfl⟩, how⟩
      · intro h
        obtain ⟨⟨rfl, rfl⟩, how⟩ := h
        exact ⟨⟨rfl, how⟩, rfl⟩

theorem not_operates (ht : s.activeThr = some t) (h : operation s a l = none)
    (hop : a.operates t = some (l, o)) : o ≠ .enter t ∧ (s.locks l).thr ≠ some t := by
  constructor
  · intro he
    simp [(operation_eq_some ht).mpr ⟨hop, Or.inl he⟩] at h
  · intro hown
    simp [(operation_eq_some ht).mpr ⟨hop, Or.inr hown⟩] at h

/-- No step but a call operates on a lock. -/
theorem operates_call (h : a.operates t = some (l, o)) : ∃ c, a = .call c := by
  cases a with
  | call c => exact ⟨c, rfl⟩
  | tick => cases h
  | resume => cases h

theorem takes_iff : a.takes = some l ↔ a.operates t = some (l, .enter t) := by
  cases a with
  | call c => cases c <;> simp [Act.takes, Act.operates]
  | tick => simp [Act.takes, Act.operates]
  | resume => simp [Act.takes, Act.operates]

theorem operates_of_givesUp (h : a.givesUp = some l) : ∃ o, a.operates t = some (l, o) := by
  cases a with
  | call c => cases c <;> simp_all [Act.givesUp, Act.operates]
  | tick => simp [Act.givesUp] at h
  | resume => simp [Act.givesUp] at h

/-! ### What a step does to a lock -/

/-- A lock that a step does not operate on is as before. -/
theorem Effect.lock_kept {P P' : Places} (he : Effect P t a P')
    (h : ∀ o, a.operates t = some (l, o) → o ≠ .enter t ∧ (P.locks l).thr ≠ some t) :
    P'.locks l = P.locks l ∧ ∀ m, l = .monitor m → P'.mons m = P.mons m := by
  have htakes : ∀ l', a.takes = some l' → l ≠ l' := by
    intro l' ha hl
    subst hl
    exact (h _ (takes_iff.mp ha)).1 rfl
  have howner : ∀ l' o, a.operates t = some (l', o) → (P.locks l').thr = some t → l ≠ l' := by
    intro l' o ho hown hl
    subst hl
    exact (h o ho).2 hown
  cases he with
  | stay => exact ⟨rfl, fun m _ => rfl⟩
  | create => exact ⟨rfl, fun m _ => rfl⟩
  | enter => exact ⟨rfl, fun m _ => rfl⟩
  | leave => exact ⟨rfl, fun m _ => rfl⟩
  | finishWait => exact ⟨rfl, fun m _ => rfl⟩
  | acquire _ l' ha => exact ⟨Function.update_of_ne (htakes l' ha) .., fun m _ => rfl⟩
  | block _ l' _ _ _ ha => exact ⟨Function.update_of_ne (htakes l' ha) .., fun m _ => rfl⟩
  | unlock _ l' _ ha hown =>
      obtain ⟨o, ho⟩ := operates_of_givesUp (t := t) ha
      exact ⟨Function.update_of_ne (howner l' o ho hown) .., fun m _ => rfl⟩
  | unlockPreempted _ l' _ _ ha hown =>
      obtain ⟨o, ho⟩ := operates_of_givesUp (t := t) ha
      exact ⟨Function.update_of_ne (howner l' o ho hown) .., fun m _ => rfl⟩
  | wait m _ _ _ hown =>
      have hl := howner (.monitor m) _ rfl hown
      exact ⟨Function.update_of_ne hl .., fun m' hm =>
        Function.update_of_ne (fun he => hl (by rw [hm, he])) ..⟩
  | waitPreempted m _ _ hown =>
      have hl := howner (.monitor m) _ rfl hown
      exact ⟨Function.update_of_ne hl .., fun m' hm =>
        Function.update_of_ne (fun he => hl (by rw [hm, he])) ..⟩
  | signal m _ _ hown =>
      have hl := howner (.monitor m) _ rfl hown
      exact ⟨Function.update_of_ne hl .., fun m' hm =>
        Function.update_of_ne (fun he => hl (by rw [hm, he])) ..⟩

/-- A lock after a step that leaves the waiters of the monitors alone. -/
theorem lockOf_of_mons (hmn : s'.mons = s.mons) : lockOf s' l =
    ⟨(s'.locks l).thr, (s'.locks l).queue, (lockOf s l).waiting⟩ := by
  unfold lockOf
  rw [hmn]

theorem lockOf_enter (hi : s.Inv) (h : s.userMutexLock t l = some s') :
    lockOf s' l = (lockOf s l).enter t := by
  by_cases hfree : (s.locks l).thr = none
  · rw [userMutexLock_free (hi.ok.clear l) hfree] at h
    obtain rfl := Option.some.inj h
    rw [lockOf_of_mons (s := s) rfl]
    simp [lockOf, Monitor.enter, hfree, setLock]
  · obtain ⟨o, ho⟩ := Option.ne_none_iff_exists'.mp hfree
    rw [userMutexLock_taken (hi.ok.clear l) hfree] at h
    obtain rfl := Option.some.inj h
    have hd := dispatches_bloquear (s.queued t l) t (.lock l)
    rw [lockOf_of_mons (s := s) hd.mons, hd.locks]
    simp [lockOf, Monitor.enter, ho, queued, setLock]

theorem mons_granted (hi : s.Inv) (l : Lock) : (s.granted l).mons = s.mons :=
  congrArg Places.mons (granted_spec hi.prio l).1

theorem lockOf_exit (hi : s.Inv) (ht : s.activeThr = some t) (hown : (s.locks l).thr = some t)
    (ho : a.operates t = some (l, .exit)) (h : step s a = some s') :
    lockOf s' l = (lockOf s l).exit := by
  have hcall : a.givesUp = some l ∧
      ((s.userMutexUnlock t l .unlock).map Prod.fst = some s') := by
    obtain ⟨c, rfl⟩ := operates_call ho
    have hc := (step_call ht h).2
    cases c with
    | mutexUnlock n =>
        obtain ⟨rfl, -⟩ := Prod.mk.inj (Option.some.inj ho)
        exact ⟨rfl, hc⟩
    | monitorExit m =>
        obtain ⟨rfl, -⟩ := Prod.mk.inj (Option.some.inj ho)
        exact ⟨rfl, hc⟩
    | _ => cases ho
  obtain ⟨r, hr, rfl⟩ := Option.map_eq_some_iff.mp hcall.2
  have hmn : r.1.mons = s.mons := by
    rw [userMutexUnlock_owner (hi.ok.clear l) hown] at hr
    split at hr
    · obtain rfl := Option.some.inj hr
      exact (dispatches_granted hi.prio t l .unlock).mons.trans (mons_granted hi l)
    · obtain rfl := Option.some.inj hr
      exact mons_granted hi l
  rw [lockOf_of_mons hmn, handed_of_givesUp hi h ⟨ht, hcall.1⟩ hown, Monitor.exit_eq]
  rfl

/-- What the calls are, from the operations. -/
theorem operates_enter {u : Tid} (h : a.operates t = some (l, .enter u)) : u = t := by
  obtain ⟨c, rfl⟩ := operates_call h
  cases c <;> simp_all [Act.operates]

theorem operates_wait {u : Tid} (h : a.operates t = some (l, .wait u)) :
    u = t ∧ ∃ m, a = .call (.monitorWait m) ∧ l = .monitor m := by
  obtain ⟨c, rfl⟩ := operates_call h
  cases c <;> simp_all [Act.operates]

theorem operates_signal (h : a.operates t = some (l, .signal)) :
    ∃ m, a = .call (.monitorSignal m) ∧ l = .monitor m := by
  obtain ⟨c, rfl⟩ := operates_call h
  cases c <;> simp_all [Act.operates]

/-- What a step does to a lock is what the call says, if it is one. -/
theorem lockOf_step (hi : s.Inv) (h : step s a = some s') (l : Lock) :
    lockOf s' l = (operation s a l).elim (lockOf s l) (lockOf s l).apply := by
  obtain ⟨t, ht, href⟩ := step_refines hi h
  cases ho : operation s a l with
  | none =>
      have hkept := href.effect.lock_kept (l := l) fun o hop => not_operates ht ho hop
      have hlk : s'.locks l = s.locks l := hkept.1
      cases l with
      | mutex n => simp [lockOf, hlk]
      | monitor m => simp [lockOf, hlk, show s'.mons m = s.mons m from hkept.2 m rfl]
  | some o =>
      obtain ⟨hop, how⟩ := (operation_eq_some ht).mp ho
      show lockOf s' l = (lockOf s l).apply o
      cases o with
      | enter u =>
          obtain rfl := operates_enter hop
          exact lockOf_enter hi (step_takes ht (takes_iff.mpr hop) h)
      | exit => exact lockOf_exit hi ht (how.resolve_left (by simp)) hop h
      | wait u =>
          obtain ⟨rfl, m, rfl, rfl⟩ := operates_wait hop
          exact monitorOf_wait hi ht (how.resolve_left (by simp)) h
      | signal =>
          obtain ⟨m, rfl, rfl⟩ := operates_signal hop
          exact monitorOf_signal hi ht (how.resolve_left (by simp)) h

/-! ### Coming back -/

@[simp] theorem Point.needs_user : Point.user.needs = none := rfl

theorem wf_lockOf (hi : s.Inv) (l : Lock) : (lockOf s l).WF := hi.ok.placed.empty l

/-- A thread that runs in user code is not on its way back. -/
theorem pending_of_user (hu : s.point t = .user) (hown : (s.locks l).thr = some t) :
    pending s l = [] := by
  have howner : (lockOf s l).owner = some t := hown
  simp [pending, howner, hu, Point.needs]

theorem pending_congr (hl : lockOf s' l = lockOf s l)
    (hneeds : ∀ u, (s'.point u).needs = some l ↔ (s.point u).needs = some l) :
    pending s' l = pending s l := by
  unfold pending
  simp only [hl, hneeds]

/-- No thread but the running one is at another point after a step. -/
theorem Effect.point_other {P P' : Places} (he : Effect P t a P')
    (hfresh : P.point P.tidGen = .start) {u : Tid} (hu : u ≠ t) : P'.point u = P.point u := by
  cases he with
  | create =>
      show Function.update P.point P.tidGen .start u = _
      rw [← hfresh, Function.update_eq_self]
  | enter => exact Function.update_of_ne hu ..
  | leave => exact Function.update_of_ne hu ..
  | block => exact Function.update_of_ne hu ..
  | unlockPreempted => exact Function.update_of_ne hu ..
  | wait => exact Function.update_of_ne hu ..
  | waitPreempted => exact Function.update_of_ne hu ..
  | finishWait => exact Function.update_of_ne hu ..
  | _ => rfl

/-- A thread that leaves user code without an operation on `l` does not need `l`. -/
theorem Effect.not_needs {P P' : Places} (he : Effect P t a P') (hu : P.point t = .user)
    (hfresh : P.point P.tidGen = .start)
    (h : ∀ o, a.operates t = some (l, o) → o ≠ .enter t ∧ (P.locks l).thr ≠ some t) :
    (P'.point t).needs ≠ some l := by
  have hsame : ∀ p, (Function.update P.point t p t).needs ≠ some l ↔ p.needs ≠ some l := by
    intro p
    rw [Function.update_self]
  cases he with
  | create =>
      show (Function.update P.point P.tidGen .start t).needs ≠ _
      rw [← hfresh, Function.update_eq_self, hu]
      simp [Point.needs]
  | enter => simp [Point.needs]
  | leave _ p _ _ _ hneeds => simp [hneeds]
  | block _ l' _ _ _ ha =>
      rw [hsame]
      intro hl
      obtain rfl : l' = l := by simpa [Point.needs] using hl
      exact (h _ (takes_iff.mp ha)).1 rfl
  | unlockPreempted => simp [Point.needs]
  | wait m _ _ _ hown =>
      rw [hsame]
      intro hl
      obtain rfl : Lock.monitor m = l := by simpa [Point.needs] using hl
      exact (h _ rfl).2 hown
  | waitPreempted m _ _ hown =>
      rw [hsame]
      intro hl
      obtain rfl : Lock.monitor m = l := by simpa [Point.needs] using hl
      exact (h _ rfl).2 hown
  | finishWait m _ _ hw =>
      rw [hw] at hu
      cases hu
  | _ => simp [hu, Point.needs]

/-- The owner of a lock gave it up: whoever got it is on its way back. -/
theorem pending_of_handed (hi : s.Inv) (hu : s.point t = .user)
    (hpoint : ∀ u, u ≠ t → s'.point u = s.point u)
    (hlock : lockOf s' l = (lockOf s l).exit ∨ lockOf s' l = (lockOf s l).wait t) :
    pending s' l = (lockOf s l).entry.take 1 := by
  have hpl := hi.ok.placed
  have howner : (lockOf s' l).owner = (lockOf s l).entry.head? := by
    rcases hlock with hlock | hlock <;> simp [hlock, Monitor.wait, Monitor.exit_eq]
  have hentry : (lockOf s' l).entry = (lockOf s l).entry.tail := by
    rcases hlock with hlock | hlock <;> simp [hlock, Monitor.wait, Monitor.exit_eq]
  have hwaiting : ∀ u ∈ (lockOf s' l).waiting, u ∈ (lockOf s l).waiting ∨ u = t := by
    intro u hmem
    rcases hlock with hlock | hlock
    · rw [hlock, Monitor.exit_waiting] at hmem
      exact Or.inl hmem
    · rw [hlock, Monitor.wait_waiting, List.mem_append, List.mem_singleton] at hmem
      exact hmem
  cases hq : (lockOf s l).entry with
  | nil => simp [pending, howner, hq]
  | cons u rest =>
      have hmem : u ∈ (s.locks l).queue := by
        rw [show (s.locks l).queue = u :: rest from hq]
        exact List.mem_cons_self
      have hut : u ≠ t := by
        intro he
        exact hi.ok.user_not_waits hu (Or.inr ⟨l, he ▸ hmem⟩)
      have hneeds : (s'.point u).needs = some l := by
        rw [hpoint u hut]
        exact hpl.atLock u l hmem
      have hrest : u ∉ rest := by
        have hnd := hpl.nodupLock l
        rw [show (s.places.locks l).queue = u :: rest from hq] at hnd
        exact (List.nodup_cons.mp hnd).1
      have hnotWaiting : u ∉ (lockOf s' l).waiting := by
        intro hw
        rcases hwaiting u hw with hw | hw
        · cases l with
          | mutex n => cases hw
          | monitor m => exact hpl.disjoint u m hw hmem
        · exact hut hw
      simp [pending, howner, hentry, hq, hneeds, hrest, hnotWaiting]

/-- The running thread queued for a lock that was taken: its owner is where it was. -/
theorem pending_of_queued (hu : s.point t = .user) (hpoint : ∀ u, u ≠ t → s'.point u = s.point u)
    (htaken : (s.locks l).thr ≠ none) (hlock : lockOf s' l = (lockOf s l).enter t) :
    pending s' l = pending s l := by
  obtain ⟨w, hw⟩ := Option.ne_none_iff_exists'.mp htaken
  have howner : (lockOf s l).owner = some w := hw
  have henter : (lockOf s l).enter t = { lockOf s l with entry := (lockOf s l).entry ++ [t] } := by
    simp [Monitor.enter, howner]
  by_cases hwt : w = t
  · subst hwt
    rw [pending_of_user hu hw]
    simp [pending, hlock, henter, howner]
  · have hneeds := hpoint w hwt
    simp [pending, hlock, henter, howner, List.filter_cons, hneeds, hwt]

/-- Only a thread that goes on from a switch point, or takes a lock, comes back. -/
theorem comesBack_eq_nil (ht : s.activeThr = some t) (hres : a ≠ .resume)
    (h : s'.point t = .user → a.takes ≠ some l) : comesBack l s a s' = [] := by
  rw [comesBack, ht, Option.toList_some, List.filter_eq_nil_iff]
  intro u hu
  rw [List.mem_singleton.mp hu]
  simp only [decide_eq_true_eq, not_and, not_or]
  exact fun hpoint => ⟨h hpoint, fun hr => absurd hr hres⟩

/-- A dispatched thread comes back if the point it goes on from needs the lock. -/
theorem comesBack_resume (hi : s.Inv) (ht : s.activeThr = some t)
    (h : step s .resume = some s') (hlock : lockOf s' l = lockOf s l) :
    comesBack l s .resume s' ++ pending s' l = pending s l := by
  have hres : s.resume t = some s' := by simpa [step, ht] using h
  obtain ⟨m, hp, rfl⟩ | ⟨-, hne, v, r, rfl, -⟩ := resume_cases hres
  · -- the second half of a wait: the thread is still away
    have hpoint : (s.waitBlock t m).point = Function.update s.point t (.wait m) := by
      rw [waitBlock, (dispatches_bloquear _ t _).point]
      rfl
    have hback : comesBack l s .resume (s.waitBlock t m) = [] := by
      simp [comesBack, ht, hpoint]
    rw [hback, List.nil_append]
    apply pending_congr hlock
    intro u
    rw [hpoint]
    by_cases hut : u = t
    · rw [hut, Function.update_self, hp]
      rfl
    · rw [Function.update_of_ne hut]
  · by_cases hneed : (s.point t).needs = some l
    · have hown := owner_of_resume hi hneed ht h (Function.update_self ..)
      have hx : (s.point t).extra = 0 := by
        cases hp : s.point t with
        | unlockInWait m => exact absurd hp (hne m)
        | _ => rfl
      have hnw := hi.ok.slot_not_waits (running_mem_slots ht) hx
      have hentry : t ∉ (lockOf s l).entry := fun hq => hnw (Or.inr ⟨l, hq⟩)
      have hwaiting : t ∉ (lockOf s l).waiting := by
        intro hw
        cases l with
        | mutex n => cases hw
        | monitor m => exact hnw (Or.inl ⟨m, hw⟩)
      have howner : (lockOf s l).owner = some t := hown
      rw [pending_of_user (Function.update_self ..) hown]
      simp [comesBack, pending, ht, howner, hneed, hentry, hwaiting]
    · have hback : comesBack l s .resume
          { s with level := v, result := r, point := Function.update s.point t .user } = [] := by
        simp [comesBack, ht, hneed, Act.takes]
      rw [hback, List.nil_append]
      apply pending_congr hlock
      intro u
      by_cases hut : u = t
      · subst hut
        simp [hneed]
      · simp [hut]

/-- Who has been given the lock comes back, or is on its way. -/
theorem comesBack_pending (hi : s.Inv) (h : step s a = some s') (l : Lock) :
    comesBack l s a s' ++ pending s' l =
      pending s l ++ (operation s a l).elim [] (lockOf s l).grants := by
  obtain ⟨t, ht, href⟩ := step_refines hi h
  have hlock := lockOf_step hi h l
  have hfresh : s.point s.tidGen = .start := hi.ok.placed.fresh _ (Nat.le_refl _)
  by_cases hres : a = .resume
  · subst hres
    have hnone : operation s .resume l = none := by simp [operation, ht, Act.operates]
    rw [hnone] at hlock ⊢
    simpa using comesBack_resume hi ht h hlock
  have hu : s.point t = .user := by
    cases a with
    | call c => exact (step_call ht h).1
    | tick => exact (step_tick ht h).1
    | resume => exact absurd rfl hres
  have hother : ∀ u, u ≠ t → s'.point u = s.point u := fun u hut =>
    href.effect.point_other hfresh hut
  cases ho : operation s a l with
  | none =>
      have hno : ∀ o, a.operates t = some (l, o) → o ≠ .enter t ∧ (s.locks l).thr ≠ some t :=
        fun o hop => not_operates ht ho hop
      rw [ho] at hlock
      have hback : comesBack l s a s' = [] :=
        comesBack_eq_nil ht hres fun _ ha => (hno _ (takes_iff.mp ha)).1 rfl
      have hkept : pending s' l = pending s l := by
        apply pending_congr hlock
        intro u
        by_cases hut : u = t
        · subst hut
          have hnot : (s'.point u).needs ≠ some l := href.effect.not_needs hu hfresh hno
          simp [hnot, hu]
        · rw [hother u hut]
      simp [hback, hkept]
  | some o =>
      obtain ⟨hop, how⟩ := (operation_eq_some ht).mp ho
      rw [ho] at hlock
      cases o with
      | enter u =>
          obtain rfl := operates_enter hop
          have hlk := step_takes ht (takes_iff.mpr hop) h
          have htakes : a.takes = some l := takes_iff.mpr hop
          by_cases hfree : (s.locks l).thr = none
          · rw [userMutexLock_free (hi.ok.clear l) hfree] at hlk
            obtain rfl := Option.some.inj hlk
            have hback : comesBack l s a (s.setLock l ⟨false, some u, (s.locks l).queue⟩) = [u] := by
              simp [comesBack, ht, htakes, setLock, hu]
            have hown : ((s.setLock l ⟨false, some u, (s.locks l).queue⟩).locks l).thr = some u := by
              simp
            rw [hback, pending_of_user (s := s.setLock ..) hu hown]
            simp [pending, lockOf, hfree, Monitor.grants]
          · rw [userMutexLock_taken (hi.ok.clear l) hfree] at hlk
            obtain rfl := Option.some.inj hlk
            have hback : comesBack l s a ((s.queued u l).bloquear u (.lock l)) = [] :=
              comesBack_eq_nil ht hres fun hback => by
                rw [(dispatches_bloquear _ u _).point, Function.update_self] at hback
                cases hback
            have howner : (lockOf s l).owner.isSome := Option.isSome_iff_ne_none.mpr hfree
            rw [hback, pending_of_queued hu hother hfree hlock]
            simp [Monitor.grants, howner]
      | exit =>
          have hown := how.resolve_left (by simp)
          have hback : comesBack l s a s' = [] := comesBack_eq_nil ht hres fun _ ha => by
            rw [takes_iff, hop] at ha
            simp at ha
          rw [hback, pending_of_user hu hown, pending_of_handed hi hu hother (Or.inl hlock)]
          rfl
      | wait u =>
          obtain ⟨rfl, -⟩ := operates_wait hop
          have hown := how.resolve_left (by simp)
          have hback : comesBack l s a s' = [] := comesBack_eq_nil ht hres fun _ ha => by
            rw [takes_iff, hop] at ha
            simp at ha
          rw [hback, pending_of_user hu hown, pending_of_handed hi hu hother (Or.inr hlock)]
          rfl
      | signal =>
          have hown := how.resolve_left (by simp)
          have hback : comesBack l s a s' = [] := comesBack_eq_nil ht hres fun _ ha => by
            rw [takes_iff, hop] at ha
            simp at ha
          have howner : (s'.locks l).thr = some t := by
            show (lockOf s' l).owner = some t
            rw [hlock]
            exact (Monitor.signal_owner _).trans hown
          have hpoint : s'.point t = .user := by
            obtain ⟨m, rfl, rfl⟩ := operates_signal hop
            have hs : s.userMonitorSignal t m = some s' := (step_call ht h).2
            cases hmon : s.mons m with
            | nil =>
                rw [userMonitorSignal_nil (hi.ok.clear _) hown hmon] at hs
                rw [← Option.some.inj hs]
                exact hu
            | cons u rest =>
                rw [userMonitorSignal_cons (hi.ok.clear _) hown hmon] at hs
                rw [← Option.some.inj hs]
                exact hu
          rw [hback, pending_of_user hu hown, pending_of_user hpoint howner]
          rfl

/-! ### Runs -/

/-- **A lock is a Mesa monitor.**  At the end of every run it is what the operations of the
threads on it, in their order, make of a free one. -/
theorem lock_is_monitor {tr : List (Sched × Act)} {s : Sched} (h : Run step userInit tr s)
    (l : Lock) :
    lockOf s l = (tr.filterMap fun p => operation p.1 p.2 l).foldl Monitor.apply .empty := by
  have hrun := h.history_of (fun tr s => s.Inv ∧
      lockOf s l = (tr.filterMap fun p => operation p.1 p.2 l).foldl Monitor.apply .empty)
    (fun _ _ => True) ⟨Inv.init, by cases l <;> rfl⟩ (by
      intro tr s a s' hs _ hstep
      refine ⟨hs.1.step hstep, ?_⟩
      rw [lockOf_step hs.1 hstep, hs.2, List.filterMap_append, List.foldl_append]
      cases ho : operation s a l <;> simp [ho]) fun _ _ => trivial
  exact hrun.2

/-- The main thread has a mutex that thread 2 waits for. -/
theorem lock_is_monitor_contended : ∃ tr s, Run step userInit tr s ∧
    lockOf s (.mutex 0) = ⟨some 1, [2], []⟩ ∧ lockOf s (.mutex 0) =
      (tr.filterMap fun p => operation p.1 p.2 (.mutex 0)).foldl Monitor.apply .empty := by
  have hrun : (runTrace step userInit [.call (.create 0), .call (.mutexLock 0), .tick, .resume,
      .call (.mutexLock 0)]).map (fun r => ((r.2.locks (.mutex 0)).thr,
        (r.2.locks (.mutex 0)).queue)) = some (some 1, [2]) := by
    decide
  obtain ⟨⟨tr, s⟩, hr, hlock⟩ := Option.map_eq_some_iff.mp hrun
  obtain ⟨howner, hqueue⟩ := Prod.mk.inj hlock
  have h : Run step userInit tr s := run_of_runTrace _ .nil hr
  exact ⟨tr, s, h, congrArg₂ (fun o q => Monitor.mk o q []) howner hqueue, lock_is_monitor h _⟩

theorem returned_step (hi : s.Inv) (hstep : step s a = some s') {tr : List (Sched × Act)}
    (h : returned l tr s ++ (pending s l ++ (lockOf s l).entry) = asked l tr) :
    returned l (tr ++ [(s, a)]) s' ++ (pending s' l ++ (lockOf s' l).entry) =
      asked l (tr ++ [(s, a)]) := by
  have hback := comesBack_pending hi hstep l
  have hentry : (operation s a l).elim [] (lockOf s l).grants ++ (lockOf s' l).entry =
      (lockOf s l).entry ++ (operation s a l).elim [] (lockOf s l).asks := by
    rw [lockOf_step hi hstep l]
    cases operation s a l with
    | none => simp
    | some o => exact Monitor.grants_append (wf_lockOf hi l) o
  rw [returned, transitions_snoc, List.flatMap_append, List.flatMap_singleton, asked,
    List.flatMap_append, List.flatMap_singleton, ← asked, ← h]
  calc returned l tr s ++ comesBack l s a s' ++ (pending s' l ++ (lockOf s' l).entry)
      = returned l tr s ++ ((comesBack l s a s' ++ pending s' l) ++ (lockOf s' l).entry) := by
        simp only [List.append_assoc]
    _ = returned l tr s ++ (pending s l ++ ((operation s a l).elim [] (lockOf s l).grants ++
          (lockOf s' l).entry)) := by rw [hback, List.append_assoc]
    _ = returned l tr s ++ (pending s l ++ (lockOf s l).entry) ++
          (operation s a l).elim [] (lockOf s l).asks := by
        rw [hentry]
        simp only [List.append_assoc]

theorem signalled_step (hi : s.Inv) (hstep : step s a = some s') {tr : List (Sched × Act)}
    (h : signalled l tr ++ (lockOf s l).waiting = waited l tr) :
    signalled l (tr ++ [(s, a)]) ++ (lockOf s' l).waiting = waited l (tr ++ [(s, a)]) := by
  have hwaiting : (operation s a l).elim [] (lockOf s l).wakes ++ (lockOf s' l).waiting =
      (lockOf s l).waiting ++ (operation s a l).elim [] Monitor.waits := by
    rw [lockOf_step hi hstep l]
    cases operation s a l with
    | none => simp
    | some o => exact Monitor.wakes_append (lockOf s l) o
  rw [signalled, List.flatMap_append, List.flatMap_singleton, waited, List.flatMap_append,
    List.flatMap_singleton, ← signalled, ← waited, ← h, List.append_assoc, hwaiting,
    List.append_assoc]

/-- **A lock is served in order.**  In every run the threads that have come back from the calls
that needed the lock, then its owner if it is on its way back, then those in its queue, are the
threads that asked for it, in the order in which they asked; and those that were signalled, then
those that wait, are those that called wait, in that order. -/
theorem lock_order {tr : List (Sched × Act)} {s : Sched} (h : Run step userInit tr s) (l : Lock) :
    returned l tr s ++ (pending s l ++ (lockOf s l).entry) = asked l tr ∧
      signalled l tr ++ (lockOf s l).waiting = waited l tr := by
  have hrun := h.history_of (fun tr s => s.Inv ∧
      returned l tr s ++ (pending s l ++ (lockOf s l).entry) = asked l tr ∧
        signalled l tr ++ (lockOf s l).waiting = waited l tr)
    (fun _ _ => True) ⟨Inv.init, by cases l <;> exact ⟨rfl, rfl⟩⟩ (by
      intro tr s a s' hs _ hstep
      obtain ⟨hi, hasked, hwaited⟩ := hs
      refine ⟨hi.step hstep, ?_, ?_⟩
      · exact returned_step hi hstep hasked
      · exact signalled_step hi hstep hwaited) fun _ _ => trivial
  exact hrun.2

/-- The main thread has unlocked the mutex, and thread 2 is back with it. -/
theorem lock_order_two : ∃ tr s, Run step userInit tr s ∧ returned (.mutex 0) tr s = [1, 2] ∧
    returned (.mutex 0) tr s ++ (pending s (.mutex 0) ++ (lockOf s (.mutex 0)).entry) =
      asked (.mutex 0) tr ∧
    signalled (.mutex 0) tr ++ (lockOf s (.mutex 0)).waiting = waited (.mutex 0) tr := by
  have hrun : (runTrace step userInit [.call (.create 0), .call (.mutexLock 0), .tick, .resume,
      .call (.mutexLock 0), .resume, .call (.mutexUnlock 0), .resume]).map
        (fun r => returned (.mutex 0) r.1 r.2) = some [1, 2] := by
    decide
  obtain ⟨⟨tr, s⟩, hr, hback⟩ := Option.map_eq_some_iff.mp hrun
  have h : Run step userInit tr s := run_of_runTrace _ .nil hr
  exact ⟨tr, s, h, hback, lock_order h _⟩

end Sthreads.User
