/-
The readers-writers lock of the process and the lock with atomic monitor bodies.

A body of `Server.RwLock` is one step; here it is the statements between `monitor_enter` and
`monitor_exit`.  The body of a lock function is taken when the test of its loop lets the thread
pass or wait, and the body of an unlock function when it signals, or leaves without a signal.
`done` is what a thread has done to the counters before the body is taken, `todo` what it still
does to them after that.
-/
import Sthreads.Proofs.Server.ProcessThreads

namespace Sthreads.Server

open User

variable {C : Type}

/-! ### Lines of the lock -/

def LockAt.pc (e : Service) : LockAt → Pc
  | entering => .lock e
  | counted => .lock e
  | waiting => .waiting e
  | past => .running e
  | uncounted => .running e
  | leaving => .running e

def UnlockAt.pc (e : Service) : UnlockAt → Pc
  | entering => .unlock e
  | released => .unlock e
  | leaving => .fetch

def WorkLine.pc : WorkLine → Pc
  | fetched => .fetch
  | locking e _ pt => pt.pc e
  | handling e _ => .running e
  | unlocking e _ _ pt => pt.pc e
  | answered .. => .fetch

namespace Line

def pc : Line C → Pc
  | consumer _ (.serving _ w) => w.pc
  | _ => .fetch

/-- What the thread has done to the counters when its body is not taken yet. -/
def done (c : Counters) : Line C → Counters
  | consumer _ (.serving _ (.locking _ _ .counted)) =>
      { c with writersWaiting := c.writersWaiting + 1 }
  | consumer _ (.serving _ (.unlocking e _ _ .released)) =>
      if e.isWrite then { c with writerActive := 0 }
      else { c with readersActive := c.readersActive - 1 }
  | _ => c

/-- What the thread does to the counters when its body is taken. -/
def todo (c : Counters) : Line C → Counters
  | consumer _ (.serving _ (.locking e _ .past)) =>
      if e.isWrite then { c with writersWaiting := c.writersWaiting - 1, writerActive := 1 }
      else { c with readersActive := c.readersActive + 1 }
  | consumer _ (.serving _ (.locking _ _ .uncounted)) => { c with writerActive := 1 }
  | _ => c

/-- Outside the monitor the counters are as they are. -/
theorem done_todo_of_not_owned (c : Counters) {l : Line C} (h : l.place.owned ≠ some rwMon) :
    l.done c = c ∧ l.todo c = c := by
  unfold done todo
  split
  · exact absurd rfl h
  · exact absurd rfl h
  · split
    · exact absurd rfl h
    · exact absurd rfl h
    · exact ⟨rfl, rfl⟩

end Line

/-- The counters of the model. -/
def RwLock.counters (w : RwLock (Fin numTc)) : Counters :=
  ⟨w.readersActive, w.writerActive, w.writersWaiting⟩

/-! ### The monitors -/

namespace Process

variable (s : Process C)

def seen (m : Nat) : Monitor Tid := User.seen s.sched (fun t => (s.line t).place) m

/-- The owner of a monitor. -/
def owner (m : Nat) : Option Tid := (s.sched.locks (.monitor m)).thr

/-- The line of the owner of a monitor. -/
def ownerLine (m : Nat) : Line C := (s.owner m).elim .unborn s.line

end Process

variable {s s' : Process C} {t : Tid} {l : Line C} {m : Nat}

theorem ownerLine_of_owner (h : s.owner m = some t) : s.ownerLine m = s.line t := by
  rw [Process.ownerLine, h]
  rfl

theorem Threads.owner (h : Threads s) (hr : Runs s t) (hm : (s.line t).place.monitor = some m) :
    s.owner m = some t := h.sections.owner_of_user hr.user hm

/-- Of the threads that do not execute the statement, only the owner is past the first statement
of a section. -/
theorem Threads.not_owned (h : Threads s) (hown : s.owner m = some t) {u : Tid} (hu : u ≠ t) :
    (s.line u).place.owned ≠ some m := by
  intro ho
  have := h.sections.owns u m ho
  exact hu (Option.some.inj (this.symm.trans hown))

/-- A statement leaves the owner of a monitor. -/
theorem Goes.owner (hg : Goes s t l s') (m : Nat) : s'.owner m = s.owner m := by
  rw [Process.owner, hg.sched, ← Process.owner]

theorem Calls.owner {c : Sched.Call} (h : Threads s) (hg : Calls s t c l s') :
    s'.owner m = ((operation s.sched (.call c) (.monitor m)).elim (lockOf s.sched (.monitor m))
      (lockOf s.sched (.monitor m)).apply).owner :=
  congrArg Monitor.owner (lockOf_step h.inv hg.sched (.monitor m))

/-- After a statement of another section, or of none, a monitor's owner is at a line of the same
kind. -/
theorem ownerLine_congr {X : Type} (f : Line C → X) (howner : s'.owner m = s.owner m)
    (hline : s'.line = Function.update s.line t l) (hf : f l = f (s.line t)) :
    f (s'.ownerLine m) = f (s.ownerLine m) := by
  rw [Process.ownerLine, Process.ownerLine, howner]
  cases s.owner m with
  | none => rfl
  | some u =>
      show f (s'.line u) = f (s.line u)
      rw [hline]
      by_cases hut : u = t
      · rw [hut, Function.update_self, hf]
      · rw [Function.update_of_ne hut]

/-! ### What the model sees of a monitor -/

theorem place_of_ne (hline : s'.line = Function.update s.line t l) {u : Tid} (hu : u ≠ t) :
    (s'.line u).place = (s.line u).place := by
  rw [hline, Function.update_of_ne hu]

theorem place_self (hline : s'.line = Function.update s.line t l) :
    (s'.line t).place = l.place := by
  rw [hline, Function.update_self]

/-- Before the owner's section is taken, the model sees the owner. -/
theorem seen_owner (hown : s.owner m = some t) (hpast : (s.line t).place ≠ .past m) :
    (s.seen m).owner = some t := by
  rw [Process.seen, Sections.seen_of_here hown hpast]
  exact hown

namespace Goes

/-- A statement in a section that is taken already, or not yet. -/
theorem seen_same (h : Threads s) (hr : Runs s t) (hg : Goes s t l s')
    (hplace : ∀ m, l.place.monitor = some m → (s.line t).place.monitor = some m)
    (hpast : l.place = .past m ↔ (s.line t).place = .past m) : s'.seen m = s.seen m := by
  rw [Process.seen, hg.sched]
  rw [h.sections.seen_statement hr.user (fun _ hu => place_of_ne hg.line hu)
    (fun hm => hplace m (place_self hg.line ▸ hm))
    (fun hp => (place_self hg.line).trans (hpast.mpr hp))]
  rw [place_self hg.line, if_neg fun hp => hp.2 (hpast.mp hp.1)]
  rfl

/-- The statement with which a section is taken. -/
theorem seen_taken (h : Threads s) (hr : Runs s t) (hg : Goes s t l s')
    (hm : (s.line t).place.monitor = some m) (hbefore : (s.line t).place ≠ .past m)
    (hafter : l.place = .past m) : s'.seen m = (s.seen m).exit := by
  rw [Process.seen, hg.sched]
  rw [h.sections.seen_statement hr.user (fun _ hu => place_of_ne hg.line hu) (fun _ => hm)
    (fun hp => absurd hp hbefore)]
  rw [place_self hg.line, if_pos ⟨hafter, hbefore⟩]
  rfl

end Goes

namespace Calls

variable {c : Sched.Call}

/-- A call that is no operation on the monitor. -/
theorem seen_quiet (h : Threads s) (hr : Runs s t) (hg : Calls s t c l s')
    (hop : ∀ o, (Sched.Act.call c).operates t ≠ some (.monitor m, o))
    (hpast : l.place = .past m ↔ (s.line t).place = .past m) : s'.seen m = s.seen m := by
  apply Sections.seen_quiet h.inv hg.sched (fun _ hu => place_of_ne hg.line hu)
  · cases ho : operation s.sched (.call c) (.monitor m) with
    | none => rfl
    | some o => exact absurd ((operation_eq_some hr.active).mp ho).1 (hop o)
  · rw [place_self hg.line]
    exact hpast

theorem seen_enter (h : Threads s) (hr : Runs s t) (hg : Calls s t (.monitorEnter m) l s')
    (hout : (s.line t).place = .outside) (hl : l.place = .comes m) :
    s'.seen m = (s.seen m).enter t :=
  Sections.seen_enter h.inv hr.active hg.sched (fun _ hu => place_of_ne hg.line hu) hout
    ((place_self hg.line).trans hl) rfl

theorem seen_exit (h : Threads s) (hr : Runs s t) (hg : Calls s t (.monitorExit m) l s')
    (hm : (s.line t).place.monitor = some m) (hl : l.place = .outside) :
    s'.seen m = if (s.line t).place = .past m then s.seen m else (s.seen m).exit :=
  h.sections.seen_exit h.inv hr.active hg.sched (fun _ hu => place_of_ne hg.line hu) hm
    ((place_self hg.line).trans hl) rfl

theorem seen_wait (h : Threads s) (hr : Runs s t) (hg : Calls s t (.monitorWait m) l s')
    (hm : (s.line t).place.monitor = some m) (hpast : (s.line t).place ≠ .past m)
    (hl : l.place = .comes m) : s'.seen m = (s.seen m).wait t :=
  h.sections.seen_wait h.inv hr.active hg.sched (fun _ hu => place_of_ne hg.line hu) hm hpast
    ((place_self hg.line).trans hl) rfl

theorem seen_signal (h : Threads s) (hr : Runs s t) (hg : Calls s t (.monitorSignal m) l s')
    (hm : (s.line t).place.monitor = some m) (hpast : (s.line t).place ≠ .past m)
    (hl : l.place = .past m) : s'.seen m = (s.seen m).signal.exit :=
  h.sections.seen_signal h.inv hr.active hg.sched hm hpast ((place_self hg.line).trans hl) rfl

end Calls

/-! ### Who owns a monitor after a statement -/

/-- Entering makes nobody else the owner: the owner's line is of the same kind as before. -/
theorem Calls.ownerLine_enter {X : Type} (f : Line C → X) (h : Threads s) (hr : Runs s t)
    (hg : Calls s t (.monitorEnter m) l s') (hl : f l = f .unborn)
    (hline : f (s.line t) = f .unborn) : f (s'.ownerLine m) = f (s.ownerLine m) := by
  have howner := hg.owner (m := m) h
  rw [(operation_eq_some hr.active).mpr ⟨rfl, Or.inl rfl⟩] at howner
  cases ho : s.owner m with
  | none =>
      have hthr : (lockOf s.sched (.monitor m)).owner = none := ho
      have hnew : s'.owner m = some t := by
        simpa [Monitor.apply, Monitor.enter, hthr] using howner
      rw [ownerLine_of_owner hnew, hg.line, Function.update_self, hl, Process.ownerLine, ho]
      rfl
  | some u =>
      have hthr : (lockOf s.sched (.monitor m)).owner = some u := ho
      have hnew : s'.owner m = some u := by
        simpa [Monitor.apply, Monitor.enter, hthr] using howner
      exact ownerLine_congr f (hnew.trans ho.symm) hg.line (hl.trans hline.symm)

/-- When the owner gives the monitor up, nobody is amid its statements. -/
theorem ownerLine_given (hth : Threads s) (hown : s.owner m = some t)
    (hline : s'.line = Function.update s.line t l) (hl : l.place.owned ≠ some m) :
    (s'.ownerLine m).place.owned ≠ some m := by
  rw [Process.ownerLine]
  cases s'.owner m with
  | none => simp [Line.place, Section.owned]
  | some u =>
      show (s'.line u).place.owned ≠ _
      by_cases hut : u = t
      · rw [hut, place_self hline]
        exact hl
      · rw [place_of_ne hline hut]
        exact hth.not_owned hown hut

/-- A signal leaves the owner. -/
theorem Calls.owner_signal (h : Threads s) (hr : Runs s t)
    (hg : Calls s t (.monitorSignal m) l s') (hown : s.owner m = some t) :
    s'.owner m = some t := by
  have howner := hg.owner (m := m) h
  rw [(operation_eq_some hr.active).mpr ⟨rfl, Or.inr hown⟩] at howner
  exact howner.trans ((Monitor.signal_owner _).trans hown)

/-- A call that is no operation on the monitor leaves its owner. -/
theorem Calls.owner_quiet {c : Sched.Call} (h : Threads s) (hr : Runs s t)
    (hg : Calls s t c l s') (hop : ∀ o, (Sched.Act.call c).operates t ≠ some (.monitor m, o)) :
    s'.owner m = s.owner m := by
  have hquiet : operation s.sched (.call c) (.monitor m) = none := by
    cases ho : operation s.sched (.call c) (.monitor m) with
    | none => rfl
    | some o => exact absurd ((operation_eq_some hr.active).mp ho).1 (hop o)
  have howner := hg.owner (m := m) h
  rw [hquiet] at howner
  exact howner

/-! ### Statements that leave a monitor alone -/

/-- What a statement does that is none of the monitor's sections. -/
structure Beside (s : Process C) (t : Tid) (l : Line C) (m : Nat) (s' : Process C) : Prop where
  threads : Threads s'
  line : s'.line = Function.update s.line t l
  seen : s'.seen m = s.seen m
  owner : s'.owner m = s.owner m

theorem Beside.of_goes (h : Threads s) (hr : Runs s t) (hg : Goes s t l s')
    (hsame : (s.line t).SameThread l)
    (hplace : ∀ m, l.place.monitor = some m → (s.line t).place.monitor = some m)
    (hl : l.place ≠ .past m) (hline : (s.line t).place ≠ .past m) : Beside s t l m s' where
  threads := h.goes hr hg hsame hplace
  line := hg.line
  seen := hg.seen_same h hr hplace (iff_of_false hl hline)
  owner := hg.owner m

theorem Beside.of_calls {c : Sched.Call} (h : Threads s) (hr : Runs s t) (hg : Calls s t c l s')
    (hc : ∀ q, c ≠ .create q) (hsame : (s.line t).SameThread l)
    (hmoves : Moves t (.call c) (s.line t).place l.place)
    (hop : ∀ o, (Sched.Act.call c).operates t ≠ some (.monitor m, o))
    (hl : l.place ≠ .past m) (hline : (s.line t).place ≠ .past m) : Beside s t l m s' where
  threads := h.calls hr hg hc hsame hmoves
  line := hg.line
  seen := hg.seen_quiet h hr hop (iff_of_false hl hline)
  owner := hg.owner_quiet h hr hop

/-! ### The lock and its model -/

/-- The lock of the process is as the model's lock. -/
structure LockView (s : Process C) (w : RwLock (Fin numTc)) : Prop where
  mon : w.rwMon = (s.seen rwMon).map index
  pc : ∀ k, w.pc k = (s.line (tidOf k)).pc
  counters : (s.ownerLine rwMon).todo s.counters = (s.ownerLine rwMon).done w.counters

namespace LockView

variable {w w' : RwLock (Fin numTc)} {k : Fin numTc}

/-- A step that is none of the lock's. -/
theorem frame (h : LockView s w) (hline : s'.line = Function.update s.line t l)
    (hseen : s'.seen rwMon = s.seen rwMon) (howner : s'.owner rwMon = s.owner rwMon)
    (hcounters : s'.counters = s.counters) (hpc : l.pc = (s.line t).pc)
    (hdone : ∀ c, l.done c = (s.line t).done c) (htodo : ∀ c, l.todo c = (s.line t).todo c) :
    LockView s' w where
  mon := by rw [hseen, h.mon]
  pc k := by
    rw [h.pc, hline]
    by_cases hk : tidOf k = t
    · rw [hk, Function.update_self, hpc]
    · rw [Function.update_of_ne hk]
  counters := by
    rw [hcounters, ownerLine_congr (fun l : Line C => l.todo s.counters) howner hline (htodo _),
      ownerLine_congr (fun l : Line C => l.done w.counters) howner hline (hdone _)]
    exact h.counters

/-- The program points after a statement of consumer `k`. -/
theorem pc_update (h : LockView s w) (hline : s'.line = Function.update s.line (tidOf k) l)
    (k' : Fin numTc) : Function.update w.pc k l.pc k' = (s'.line (tidOf k')).pc := by
  rw [hline]
  by_cases hk : k' = k
  · rw [hk, Function.update_self, Function.update_self]
  · rw [Function.update_of_ne hk, Function.update_of_ne (fun he => hk (tidOf_inj.mp he)), h.pc]

/-- The counters of the model while the running thread is the owner. -/
theorem counters_of_owner (h : LockView s w) (hown : s.owner rwMon = some t) :
    (s.line t).todo s.counters = (s.line t).done w.counters := by
  rw [← ownerLine_of_owner hown]
  exact h.counters

end LockView

/-- The model's lock with other counters. -/
def RwLock.withCounters (w : RwLock (Fin numTc)) (c : Counters) : RwLock (Fin numTc) :=
  { w with
    readersActive := c.readersActive
    writerActive := c.writerActive
    writersWaiting := c.writersWaiting }

namespace LockView

variable {w : RwLock (Fin numTc)} {k : Fin numTc} {c : Counters} {mo : Monitor (Fin numTc)}

/-- What a statement of consumer `k` that the model takes a step for leads to. -/
theorem next (h : LockView s w) (hline : s'.line = Function.update s.line (tidOf k) l)
    (hmon : mo = (s'.seen rwMon).map index)
    (hcounters : (s'.ownerLine rwMon).todo s'.counters = (s'.ownerLine rwMon).done c) {pc : Pc}
    (hpc : pc = l.pc) :
    LockView s' { w.withCounters c with rwMon := mo, pc := Function.update w.pc k pc } where
  mon := hmon
  pc k' := by
    rw [hpc]
    exact h.pc_update hline k'
  counters := hcounters

/-- In a section that is not taken, the model runs the body of the thread. -/
theorem body (h : LockView s w) (hth : Threads s) (hr : Runs s (tidOf k))
    (hm : (s.line (tidOf k)).place.monitor = some rwMon)
    (hpast : (s.line (tidOf k)).place ≠ .past rwMon) : rwStep w .body = monitorBody w k := by
  have howner : w.rwMon.owner = some k := by
    rw [h.mon]
    show (s.seen rwMon).owner.map index = some k
    rw [seen_owner (hth.owner hr hm) hpast, Option.map_some, index_tidOf]
  rw [rwStep, howner]

/-- When the owner gives the monitor up, the counters are as they are. -/
theorem counters_given (hth : Threads s) (hown : s.owner rwMon = some t)
    (hline : s'.line = Function.update s.line t l) (hl : l.place.owned ≠ some rwMon)
    (c : Counters) : (s'.ownerLine rwMon).todo c = (s'.ownerLine rwMon).done c := by
  obtain ⟨hdone, htodo⟩ := Line.done_todo_of_not_owned c (ownerLine_given hth hown hline hl)
  rw [hdone, htodo]

/-! ### One lemma for each kind of statement -/

/-- `monitor_enter` -/
theorem enters (h : LockView s w) (hth : Threads s) (hr : Runs s (tidOf k))
    (hg : Calls s (tidOf k) (.monitorEnter rwMon) l s') (hcounters : s'.counters = s.counters)
    (hout : (s.line (tidOf k)).place = .outside) (hl : l.place = .comes rwMon) :
    LockView s' (enterRw w k l.pc) := by
  obtain ⟨hdone, htodo⟩ : (∀ c, l.done c = c) ∧ ∀ c, l.todo c = c := by
    have hnot : l.place.owned ≠ some rwMon := by simp [hl, Section.owned]
    exact ⟨fun c => (Line.done_todo_of_not_owned c hnot).1,
      fun c => (Line.done_todo_of_not_owned c hnot).2⟩
  obtain ⟨hdone', htodo'⟩ : (∀ c, (s.line (tidOf k)).done c = c) ∧
      ∀ c, (s.line (tidOf k)).todo c = c := by
    have hnot : (s.line (tidOf k)).place.owned ≠ some rwMon := by simp [hout, Section.owned]
    exact ⟨fun c => (Line.done_todo_of_not_owned c hnot).1,
      fun c => (Line.done_todo_of_not_owned c hnot).2⟩
  apply h.next (c := w.counters) hg.line _ _ rfl
  · rw [hg.seen_enter hth hr hout hl, Monitor.map_enter, index_tidOf, h.mon]
  · rw [hcounters,
      hg.ownerLine_enter (fun l : Line C => l.todo s.counters) hth hr (htodo _) (htodo' _),
      hg.ownerLine_enter (fun l : Line C => l.done w.counters) hth hr (hdone _) (hdone' _)]
    exact h.counters

/-- A statement inside a section, when the model takes no step. -/
theorem executes (h : LockView s w) (hth : Threads s) (hr : Runs s (tidOf k))
    (hg : Goes s (tidOf k) l s')
    (hplace : ∀ m, l.place.monitor = some m → (s.line (tidOf k)).place.monitor = some m)
    (hpast : l.place = .past rwMon ↔ (s.line (tidOf k)).place = .past rwMon)
    (hpc : l.pc = (s.line (tidOf k)).pc) (hown : s.owner rwMon = some (tidOf k))
    (hcounters : l.todo s'.counters = l.done w.counters) : LockView s' w where
  mon := by rw [hg.seen_same hth hr hplace hpast, h.mon]
  pc k' := by
    rw [← h.pc_update hg.line k']
    by_cases hk : k' = k
    · rw [hk, Function.update_self, h.pc, hpc]
    · rw [Function.update_of_ne hk]
  counters := by
    rw [ownerLine_of_owner ((hg.owner rwMon).trans hown), hg.line, Function.update_self]
    exact hcounters

/-- `monitor_wait` -/
theorem waits (h : LockView s w) (hth : Threads s) (hr : Runs s (tidOf k))
    (hg : Calls s (tidOf k) (.monitorWait rwMon) l s') (hcounters : s'.counters = s.counters)
    (hm : (s.line (tidOf k)).place.monitor = some rwMon)
    (hpast : (s.line (tidOf k)).place ≠ .past rwMon) (hl : l.place = .comes rwMon)
    (hbody : monitorBody w k = some { w.withCounters s.counters with
      rwMon := w.rwMon.wait k, pc := Function.update w.pc k l.pc }) :
    ∃ w', rwStep w .body = some w' ∧ LockView s' w' := by
  refine ⟨_, (h.body hth hr hm hpast).trans hbody, h.next hg.line ?_ ?_ rfl⟩
  · rw [hg.seen_wait hth hr hm hpast hl, Monitor.map_wait, index_tidOf, h.mon]
  · rw [hcounters]
    exact counters_given hth (hth.owner hr hm) hg.line (by simp [hl, Section.owned]) _

/-- The test that lets the thread pass. -/
theorem passes (h : LockView s w) (hth : Threads s) (hr : Runs s (tidOf k))
    (hg : Goes s (tidOf k) l s') (hcounters : s'.counters = s.counters)
    (hm : (s.line (tidOf k)).place.monitor = some rwMon)
    (hpast : (s.line (tidOf k)).place ≠ .past rwMon) (hl : l.place = .past rwMon)
    (hdone : ∀ c, l.done c = c)
    (hbody : monitorBody w k = some { w.withCounters (l.todo s.counters) with
      rwMon := w.rwMon.exit, pc := Function.update w.pc k l.pc }) :
    ∃ w', rwStep w .body = some w' ∧ LockView s' w' := by
  refine ⟨_, (h.body hth hr hm hpast).trans hbody, h.next hg.line ?_ ?_ rfl⟩
  · rw [hg.seen_taken hth hr hm hpast hl, Monitor.map_exit, h.mon]
  · rw [ownerLine_of_owner ((hg.owner rwMon).trans (hth.owner hr hm)), hg.line,
      Function.update_self, hcounters, hdone]

/-- `monitor_signal` -/
theorem signals (h : LockView s w) (hth : Threads s) (hr : Runs s (tidOf k))
    (hg : Calls s (tidOf k) (.monitorSignal rwMon) l s') (hcounters : s'.counters = s.counters)
    (hm : (s.line (tidOf k)).place.monitor = some rwMon)
    (hpast : (s.line (tidOf k)).place ≠ .past rwMon) (hl : l.place = .past rwMon)
    (hdone : ∀ c, l.done c = c) (htodo : ∀ c, l.todo c = c)
    (hbody : monitorBody w k = some { w.withCounters s.counters with
      rwMon := w.rwMon.signal.exit, pc := Function.update w.pc k l.pc }) :
    ∃ w', rwStep w .body = some w' ∧ LockView s' w' := by
  have hown := hg.owner_signal hth hr (hth.owner hr hm)
  refine ⟨_, (h.body hth hr hm hpast).trans hbody, h.next hg.line ?_ ?_ rfl⟩
  · rw [hg.seen_signal hth hr hm hpast hl, Monitor.map_exit, Monitor.map_signal, h.mon]
  · rw [ownerLine_of_owner hown, hg.line, Function.update_self, hcounters, hdone, htodo]

/-- `monitor_exit` from a section without a signal -/
theorem leaves (h : LockView s w) (hth : Threads s) (hr : Runs s (tidOf k))
    (hg : Calls s (tidOf k) (.monitorExit rwMon) l s') (hcounters : s'.counters = s.counters)
    (hm : (s.line (tidOf k)).place.monitor = some rwMon)
    (hpast : (s.line (tidOf k)).place ≠ .past rwMon) (hl : l.place = .outside)
    (hbody : monitorBody w k = some { w.withCounters s.counters with
      rwMon := w.rwMon.exit, pc := Function.update w.pc k l.pc }) :
    ∃ w', rwStep w .body = some w' ∧ LockView s' w' := by
  refine ⟨_, (h.body hth hr hm hpast).trans hbody, h.next hg.line ?_ ?_ rfl⟩
  · rw [hg.seen_exit hth hr hm hl, if_neg hpast, Monitor.map_exit, h.mon]
  · rw [hcounters]
    exact counters_given hth (hth.owner hr hm) hg.line (by simp [hl, Section.owned]) _

/-- `monitor_exit` from a section that is taken -/
theorem leaves_past (h : LockView s w) (hth : Threads s) (hr : Runs s (tidOf k))
    (hg : Calls s (tidOf k) (.monitorExit rwMon) l s') (hcounters : s'.counters = s.counters)
    (hpast : (s.line (tidOf k)).place = .past rwMon) (hl : l.place = .outside)
    (hpc : l.pc = (s.line (tidOf k)).pc) (hsame : s.counters = w.counters) : LockView s' w where
  mon := by
    have hm : (s.line (tidOf k)).place.monitor = some rwMon := by rw [hpast]; rfl
    rw [hg.seen_exit hth hr hm hl, if_pos hpast, h.mon]
  pc k' := by
    rw [← h.pc_update hg.line k']
    by_cases hk : k' = k
    · rw [hk, Function.update_self, h.pc, hpc]
    · rw [Function.update_of_ne hk]
  counters := by
    have hm : (s.line (tidOf k)).place.monitor = some rwMon := by rw [hpast]; rfl
    rw [hcounters, hsame]
    exact counters_given hth (hth.owner hr hm) hg.line (by simp [hl, Section.owned]) _

end LockView

end Sthreads.Server
