/-
The four functions of the readers-writers lock, statement by statement.

A statement of one of them is a body of the model, or nothing; and it leaves the ring alone.
-/
import Sthreads.Proofs.Server.ProcessLock

namespace Sthreads.Server

open User

variable {C : Type}

/-- What a consumer works at, for the model. -/
def WorkLine.work : WorkLine → Work
  | fetched => .none
  | locking _ th _ => .handling th
  | handling _ th => .handling th
  | unlocking _ res ressz _ => .answered res ressz
  | answered res ressz => .answered res ressz

/-- What a consumer's statement in the lock's functions leaves alone. -/
structure Apart (s : Process C) (k : Fin numTc) (p : Nat) (wl : WorkLine) (s' : Process C) :
    Prop extends Beside s (tidOf k) (serving k p wl) mon s' where
  buffer : s'.buffer = s.buffer
  events : s'.events = s.events

variable {s s' : Process C} {k : Fin numTc} {p : Nat} {wl wl' : WorkLine} {e : Service}
  {th : Snfs.ReadThread} {w : RwLock (Fin numTc)}

/-- The sections of a request are those of the lock. -/
theorem WorkLine.place_ne_mon (wl : WorkLine) : wl.place.monitor ≠ some mon := by
  cases wl with
  | locking e th pt => cases pt <;> simp [place, LockAt.place, Section.monitor, mon, rwMon]
  | unlocking e res n pt => cases pt <;> simp [place, UnlockAt.place, Section.monitor, mon, rwMon]
  | _ => simp [place, Section.monitor]

theorem WorkLine.not_past_mon (wl : WorkLine) : wl.place ≠ .past mon := by
  intro h
  exact wl.place_ne_mon (by rw [h]; rfl)

namespace Apart

theorem of_goes (hth : Threads s) (hr : Runs s (tidOf k))
    (hline : s.line (tidOf k) = serving k p wl) (hg : Goes s (tidOf k) (serving k p wl') s')
    (hplace : ∀ m, wl'.place.monitor = some m → wl.place.monitor = some m)
    (hbuffer : s'.buffer = s.buffer) (hevents : s'.events = s.events) : Apart s k p wl' s' := by
  refine ⟨.of_goes hth hr hg ?_ ?_ wl'.not_past_mon ?_, hbuffer, hevents⟩
  · rw [hline]
    exact rfl
  · rw [hline]
    exact hplace
  · rw [hline]
    exact wl.not_past_mon

theorem of_calls {c : Sched.Call} (hth : Threads s) (hr : Runs s (tidOf k))
    (hline : s.line (tidOf k) = serving k p wl)
    (hg : Calls s (tidOf k) c (serving k p wl') s') (hc : ∀ q, c ≠ .create q)
    (hmoves : Moves (tidOf k) (.call c) wl.place wl'.place)
    (hop : ∀ o, (Sched.Act.call c).operates (tidOf k) ≠ some (.monitor mon, o))
    (hbuffer : s'.buffer = s.buffer) (hevents : s'.events = s.events) : Apart s k p wl' s' := by
  refine ⟨.of_calls hth hr hg hc ?_ ?_ hop wl'.not_past_mon ?_, hbuffer, hevents⟩
  · rw [hline]
    exact rfl
  · rw [hline]
    exact hmoves
  · rw [hline]
    exact wl.not_past_mon

end Apart

/-- The file system is as it was, and so is how the process has ended. -/
structure SameFiles (s s' : Process C) : Prop where
  fs : s'.fs = s.fs
  strtokBy : s'.strtokBy = s.strtokBy
  ended : s'.ended = s.ended

/-- A statement of the lock's functions, and what it is for the model. -/
structure LockStep (s : Process C) (k : Fin numTc) (p : Nat) (wl : WorkLine)
    (w : RwLock (Fin numTc)) (s' : Process C) : Prop where
  apart : Apart s k p wl s'
  files : SameFiles s s'
  view : LockView s' w ∨ ∃ w', rwStep w .body = some w' ∧ LockView s' w'

/-! ### `rw_read_lock` -/

/-- Where the line of a section is, and who owns its monitor. -/
theorem owner_of_line (hth : Threads s) (hr : Runs s (tidOf k))
    (hline : s.line (tidOf k) = serving k p wl) (hm : wl.place.monitor = some rwMon) :
    (s.line (tidOf k)).place.monitor = some rwMon ∧ s.owner rwMon = some (tidOf k) := by
  have hplace : (s.line (tidOf k)).place.monitor = some rwMon := by
    rw [hline]
    exact hm
  exact ⟨hplace, hth.owner hr hplace⟩

section

variable (h : LockView s w) (hth : Threads s) (hr : Runs s (tidOf k))

include h hth hr

/-- A test of a wait loop: the model runs the body, which waits or takes the lock. -/
theorem loop_step {pt : LockAt} {busy : Prop} [Decidable busy]
    (hpt : pt.place.monitor = some rwMon) (hpast : pt.place ≠ .past rwMon)
    (hline : s.line (tidOf k) = serving k p (.locking e th pt))
    (hwait : busy → monitorBody w k = some { w.withCounters s.counters with
      rwMon := w.rwMon.wait k, pc := Function.update w.pc k (.waiting e) })
    (hpass : ¬ busy → monitorBody w k = some
      { w.withCounters ((serving (C := C) k p (.locking e th .past)).todo s.counters) with
        rwMon := w.rwMon.exit, pc := Function.update w.pc k (.running e) })
    (hs : (if busy then s.call (tidOf k) (.monitorWait rwMon) (serving k p (.locking e th .waiting))
      else some (s.goto (tidOf k) (serving k p (.locking e th .past)))) = some s') :
    ∃ wl, LockStep s k p wl w s' ∧ wl.work = .handling th := by
  obtain ⟨hm, -⟩ := owner_of_line hth hr hline hpt
  have hbefore : (s.line (tidOf k)).place ≠ .past rwMon := by
    rw [hline]
    exact hpast
  split at hs
  · rename_i hbusy
    obtain ⟨sched, hstep, rfl⟩ := Process.call_eq_some hs
    have hg : Calls s (tidOf k) (.monitorWait rwMon) (serving k p (.locking e th .waiting))
        { s.goto (tidOf k) (serving k p (.locking e th .waiting)) with sched := sched } :=
      ⟨hstep, rfl⟩
    refine ⟨.locking e th .waiting, ⟨?_, ⟨rfl, rfl, rfl⟩, Or.inr ?_⟩, rfl⟩
    · exact .of_calls hth hr hline hg (by simp) (.wait hpt)
        (by simp [Sched.Act.operates, mon, rwMon]) rfl rfl
    · exact h.waits hth hr hg rfl hm hbefore rfl (hwait hbusy)
  · rename_i hbusy
    obtain rfl := Option.some.inj hs
    have hg : Goes s (tidOf k) (serving k p (.locking e th .past))
        (s.goto (tidOf k) (serving k p (.locking e th .past))) := ⟨rfl, rfl⟩
    refine ⟨.locking e th .past, ⟨?_, ⟨rfl, rfl, rfl⟩, Or.inr ?_⟩, rfl⟩
    · refine .of_goes hth hr hline hg (fun m hmon => ?_) rfl rfl
      rw [← hmon]
      exact hpt
    · exact h.passes hth hr hg rfl hm hbefore rfl (fun _ => rfl) (hpass hbusy)

/-- A statement that writes a counter, when the model takes no step. -/
theorem count_step {c : Counters} (hline : s.line (tidOf k) = serving k p wl)
    (hpt : wl.place.monitor = some rwMon) (hpt' : wl'.place.monitor = some rwMon)
    (hpast : wl'.place = .past rwMon ↔ wl.place = .past rwMon) (hpc : wl'.pc = wl.pc)
    (hcounters : (serving (C := C) k p wl').todo c = (serving (C := C) k p wl').done w.counters) :
    LockStep s k p wl' w ({ s with counters := c }.goto (tidOf k) (serving k p wl')) := by
  obtain ⟨-, hown⟩ := owner_of_line hth hr hline hpt
  have hg : Goes s (tidOf k) (serving k p wl')
      ({ s with counters := c }.goto (tidOf k) (serving k p wl')) := ⟨rfl, rfl⟩
  have hwithin : ∀ m, wl'.place.monitor = some m → wl.place.monitor = some m := by
    intro m hm
    rw [← hm, hpt', hpt]
  refine ⟨.of_goes hth hr hline hg hwithin rfl rfl, ⟨rfl, rfl, rfl⟩, Or.inl ?_⟩
  apply h.executes hth hr hg
  · rw [hline]
    exact hwithin
  · rw [hline]
    exact hpast
  · rw [hline]
    exact hpc
  · exact hown
  · exact hcounters

/-- The end of a section that the model has taken. -/
theorem leave_step (hline : s.line (tidOf k) = serving k p wl) (hpast : wl.place = .past rwMon)
    (hout : wl'.place = .outside) (hpc : wl'.pc = wl.pc)
    (hdone : ∀ c, (serving (C := C) k p wl).done c = c)
    (htodo : ∀ c, (serving (C := C) k p wl).todo c = c)
    (hs : s.call (tidOf k) (.monitorExit rwMon) (serving k p wl') = some s') :
    LockStep s k p wl' w s' := by
  obtain ⟨-, hown⟩ := owner_of_line hth hr hline (by rw [hpast]; rfl)
  have hcounters := h.counters_of_owner hown
  rw [hline, hdone, htodo] at hcounters
  obtain ⟨sched, hstep, rfl⟩ := Process.call_eq_some hs
  have hg : Calls s (tidOf k) (.monitorExit rwMon) (serving k p wl')
      { s.goto (tidOf k) (serving k p wl') with sched := sched } := ⟨hstep, rfl⟩
  have hmoves : Moves (tidOf k) (.call (.monitorExit rwMon)) wl.place wl'.place := by
    rw [hout]
    exact .exit (by rw [hpast]; rfl)
  refine ⟨.of_calls hth hr hline hg (by simp) hmoves
    (by simp [Sched.Act.operates, mon, rwMon]) rfl rfl, ⟨rfl, rfl, rfl⟩, Or.inl ?_⟩
  apply h.leaves_past hth hr hg rfl
  · rw [hline]
    exact hpast
  · exact hout
  · rw [hline]
    exact hpc
  · exact hcounters

/-! ### `rw_read_lock` and `rw_write_lock` -/

theorem rwReadLoop_step (he : e.isWrite = false) {pt : LockAt}
    (hpt : pt = .entering ∨ pt = .waiting)
    (hline : s.line (tidOf k) = serving k p (.locking e th pt))
    (hs : s.rwReadLoop (tidOf k) (fun pt => serving k p (.locking e th pt)) = some s') :
    ∃ wl, LockStep s k p wl w s' ∧ wl.work = .handling th := by
  have hcomes : pt.place = .comes rwMon := by
    rcases hpt with rfl | rfl <;> rfl
  obtain ⟨-, hown⟩ := owner_of_line hth hr hline (show pt.place.monitor = _ by rw [hcomes]; rfl)
  have hcounters : s.counters = w.counters := by
    have hc := h.counters_of_owner hown
    rw [hline] at hc
    rcases hpt with rfl | rfl <;> exact hc
  -- the model's body is its wait loop, whether the thread comes for the first time or not
  have hbody : monitorBody w k = some (Server.rwReadLock w k e) := by
    rw [monitorBody, h.pc, hline]
    rcases hpt with rfl | rfl <;> simp [Line.pc, serving, WorkLine.pc, LockAt.pc, he]
  apply loop_step h hth hr (by rw [hcomes]; rfl) (by simp [hcomes]) hline _ _ hs
  · intro hbusy
    rw [hcounters] at hbusy ⊢
    have hwaits : w.writerActive ≠ 0 ∨ w.writersWaiting > 0 := hbusy
    rw [hbody, Server.rwReadLock, if_pos hwaits]
    rfl
  · intro hbusy
    rw [hcounters] at hbusy ⊢
    have hgoes : ¬ (w.writerActive ≠ 0 ∨ w.writersWaiting > 0) := hbusy
    rw [hbody, Server.rwReadLock, if_neg hgoes]
    simp [Line.todo, serving, he, RwLock.withCounters, RwLock.counters]

theorem rwReadLock_step (he : e.isWrite = false) {pt : LockAt}
    (hline : s.line (tidOf k) = serving k p (.locking e th pt))
    (hs : s.rwReadLock (tidOf k) (fun pt => serving k p (.locking e th pt))
      (serving k p (.handling e th)) pt = some s') :
    ∃ wl, LockStep s k p wl w s' ∧ wl.work = .handling th := by
  cases pt with
  | entering => exact rwReadLoop_step h hth hr he (Or.inl rfl) hline hs
  | waiting => exact rwReadLoop_step h hth hr he (Or.inr rfl) hline hs
  | past =>
      obtain rfl := Option.some.inj hs
      refine ⟨.locking e th .leaving, count_step h hth hr hline rfl rfl Iff.rfl rfl ?_, rfl⟩
      obtain ⟨-, hown⟩ := owner_of_line hth hr hline rfl
      have hcounters := h.counters_of_owner hown
      rw [hline] at hcounters
      simpa [Line.todo, Line.done, serving, he] using hcounters
  | leaving =>
      exact ⟨.handling e th, leave_step h hth hr hline rfl rfl rfl (fun _ => rfl)
        (fun _ => rfl) hs, rfl⟩
  | counted => cases hs
  | uncounted => cases hs

theorem rwWriteLoop_step (he : e.isWrite = true) {pt : LockAt}
    (hpt : pt = .counted ∨ pt = .waiting)
    (hline : s.line (tidOf k) = serving k p (.locking e th pt))
    (hs : s.rwWriteLoop (tidOf k) (fun pt => serving k p (.locking e th pt)) = some s') :
    ∃ wl, LockStep s k p wl w s' ∧ wl.work = .handling th := by
  have hm : pt.place.monitor = some rwMon := by
    rcases hpt with rfl | rfl <;> rfl
  have hpast : pt.place ≠ .past rwMon := by
    rcases hpt with rfl | rfl <;> simp [LockAt.place]
  obtain ⟨-, hown⟩ := owner_of_line hth hr hline hm
  have hcounters := h.counters_of_owner hown
  have hpc := h.pc k
  rw [hline] at hcounters hpc
  -- a writer that comes for the first time has counted itself, and the model's body counts it
  have hbody : monitorBody w k = some (Server.rwWriteLockLoop (w.withCounters s.counters) k e) := by
    rw [monitorBody, hpc]
    rcases hpt with rfl | rfl
    · have hc : s.counters = { w.counters with writersWaiting := w.counters.writersWaiting + 1 } :=
        hcounters
      simp [Line.pc, serving, WorkLine.pc, LockAt.pc, he, Server.rwWriteLock, hc]
      rfl
    · have hc : s.counters = w.counters := hcounters
      simp [Line.pc, serving, WorkLine.pc, LockAt.pc, he, hc]
      rfl
  apply loop_step h hth hr hm hpast hline _ _ hs
  · intro hbusy
    have hwaits : (w.withCounters s.counters).writerActive ≠ 0 ∨
        (w.withCounters s.counters).readersActive > 0 := hbusy
    rw [hbody, Server.rwWriteLockLoop, if_pos hwaits]
    rfl
  · intro hbusy
    have hgoes : ¬ ((w.withCounters s.counters).writerActive ≠ 0 ∨
        (w.withCounters s.counters).readersActive > 0) := hbusy
    rw [hbody, Server.rwWriteLockLoop, if_neg hgoes]
    simp [Line.todo, serving, he, RwLock.withCounters]

theorem rwWriteLock_step (he : e.isWrite = true) {pt : LockAt}
    (hline : s.line (tidOf k) = serving k p (.locking e th pt))
    (hs : s.rwWriteLock (tidOf k) (fun pt => serving k p (.locking e th pt))
      (serving k p (.handling e th)) pt = some s') :
    ∃ wl, LockStep s k p wl w s' ∧ wl.work = .handling th := by
  have hcounters : pt.place.monitor = some rwMon →
      (s.line (tidOf k)).todo s.counters = (s.line (tidOf k)).done w.counters := by
    intro hm
    exact h.counters_of_owner (owner_of_line hth hr hline hm).2
  rw [hline] at hcounters
  cases pt with
  | entering =>
      obtain rfl := Option.some.inj hs
      refine ⟨.locking e th .counted, count_step h hth hr hline rfl rfl ?_ rfl ?_, rfl⟩
      · exact iff_of_false (by simp [WorkLine.place, LockAt.place])
          (by simp [WorkLine.place, LockAt.place])
      · have hc : s.counters = w.counters := hcounters rfl
        rw [hc]
        rfl
  | counted => exact rwWriteLoop_step h hth hr he (Or.inl rfl) hline hs
  | waiting => exact rwWriteLoop_step h hth hr he (Or.inr rfl) hline hs
  | past =>
      obtain rfl := Option.some.inj hs
      refine ⟨.locking e th .uncounted, count_step h hth hr hline rfl rfl Iff.rfl rfl ?_, rfl⟩
      simpa [Line.todo, Line.done, serving, he] using hcounters rfl
  | uncounted =>
      obtain rfl := Option.some.inj hs
      exact ⟨.locking e th .leaving, count_step h hth hr hline rfl rfl Iff.rfl rfl (hcounters rfl),
        rfl⟩
  | leaving =>
      exact ⟨.handling e th, leave_step h hth hr hline rfl rfl rfl (fun _ => rfl)
        (fun _ => rfl) hs, rfl⟩

/-! ### `rw_read_unlock` and `rw_write_unlock` -/

/-- The signal of an unlock function: the model runs the body. -/
theorem signal_step {res : Snfs.Res} {n : Nat}
    (hline : s.line (tidOf k) = serving k p (.unlocking e res n .released))
    (hbody : monitorBody w k = some { w.withCounters s.counters with
      rwMon := w.rwMon.signal.exit, pc := Function.update w.pc k .fetch })
    (hs : s.call (tidOf k) (.monitorSignal rwMon) (serving k p (.unlocking e res n .leaving)) =
      some s') : LockStep s k p (.unlocking e res n .leaving) w s' := by
  obtain ⟨hm, -⟩ := owner_of_line hth hr hline rfl
  have hbefore : (s.line (tidOf k)).place ≠ .past rwMon := by
    rw [hline]
    simp [serving, Line.place, ConsumerLine.place, WorkLine.place, UnlockAt.place]
  obtain ⟨sched, hstep, rfl⟩ := Process.call_eq_some hs
  have hg : Calls s (tidOf k) (.monitorSignal rwMon) (serving k p (.unlocking e res n .leaving))
      { s.goto (tidOf k) (serving k p (.unlocking e res n .leaving)) with sched := sched } :=
    ⟨hstep, rfl⟩
  refine ⟨.of_calls hth hr hline hg (by simp) (.signal rfl)
    (by simp [Sched.Act.operates, mon, rwMon]) rfl rfl, ⟨rfl, rfl, rfl⟩, Or.inr ?_⟩
  exact h.signals hth hr hg rfl hm hbefore rfl (fun _ => rfl) (fun _ => rfl) hbody

/-- An unlock function that leaves without a signal. -/
theorem exit_step {res : Snfs.Res} {n : Nat}
    (hline : s.line (tidOf k) = serving k p (.unlocking e res n .released))
    (hbody : monitorBody w k = some { w.withCounters s.counters with
      rwMon := w.rwMon.exit, pc := Function.update w.pc k .fetch })
    (hs : s.call (tidOf k) (.monitorExit rwMon) (serving k p (.answered res n)) = some s') :
    LockStep s k p (.answered res n) w s' := by
  obtain ⟨hm, -⟩ := owner_of_line hth hr hline rfl
  have hbefore : (s.line (tidOf k)).place ≠ .past rwMon := by
    rw [hline]
    simp [serving, Line.place, ConsumerLine.place, WorkLine.place, UnlockAt.place]
  obtain ⟨sched, hstep, rfl⟩ := Process.call_eq_some hs
  have hg : Calls s (tidOf k) (.monitorExit rwMon) (serving k p (.answered res n))
      { s.goto (tidOf k) (serving k p (.answered res n)) with sched := sched } := ⟨hstep, rfl⟩
  refine ⟨.of_calls hth hr hline hg (by simp) (.exit rfl)
    (by simp [Sched.Act.operates, mon, rwMon]) rfl rfl, ⟨rfl, rfl, rfl⟩, Or.inr ?_⟩
  exact h.leaves hth hr hg rfl hm hbefore rfl hbody

/-- The counters of the model while the thread is in an unlock function. -/
theorem unlock_counters {res : Snfs.Res} {n : Nat} {pt : UnlockAt}
    (hline : s.line (tidOf k) = serving k p (.unlocking e res n pt)) :
    (serving (C := C) k p (.unlocking e res n pt)).todo s.counters =
      (serving (C := C) k p (.unlocking e res n pt)).done w.counters ∧ w.pc k = pt.pc e := by
  obtain ⟨-, hown⟩ := owner_of_line hth hr hline (by cases pt <;> rfl)
  have hcounters := h.counters_of_owner hown
  have hpc := h.pc k
  rw [hline] at hcounters hpc
  exact ⟨hcounters, hpc⟩

theorem rwReadUnlock_step (he : e.isWrite = false) {res : Snfs.Res} {n : Nat} {pt : UnlockAt}
    (hline : s.line (tidOf k) = serving k p (.unlocking e res n pt))
    (hs : s.rwReadUnlock (tidOf k) (fun pt => serving k p (.unlocking e res n pt))
      (serving k p (.answered res n)) pt = some s') :
    ∃ wl, LockStep s k p wl w s' ∧ wl.work = .answered res n := by
  obtain ⟨hcounters, hpc⟩ := unlock_counters h hth hr hline
  cases pt with
  | entering =>
      obtain rfl := Option.some.inj hs
      refine ⟨.unlocking e res n .released, count_step h hth hr hline rfl rfl ?_ rfl ?_, rfl⟩
      · exact iff_of_false (by simp [WorkLine.place, UnlockAt.place])
          (by simp [WorkLine.place, UnlockAt.place])
      · have hc : s.counters = w.counters := hcounters
        simp [Line.todo, Line.done, serving, he, hc]
  | released =>
      have hc : s.counters = { w.counters with readersActive := w.counters.readersActive - 1 } := by
        simpa [Line.todo, Line.done, serving, he] using hcounters
      have hbody : monitorBody w k = some (Server.rwReadUnlock w k) := by
        rw [monitorBody, hpc]
        simp [UnlockAt.pc, he]
      have hs : (if s.counters.readersActive = 0 then
          s.call (tidOf k) (.monitorSignal rwMon) (serving k p (.unlocking e res n .leaving))
        else s.call (tidOf k) (.monitorExit rwMon) (serving k p (.answered res n))) = some s' := hs
      split at hs
      · rename_i hlast
        rw [hc] at hlast
        have hlast : w.readersActive - 1 = 0 := hlast
        refine ⟨_, signal_step h hth hr hline ?_ hs, rfl⟩
        rw [hbody, hc, Server.rwReadUnlock]
        simp [hlast, RwLock.withCounters, RwLock.counters]
      · rename_i hleft
        rw [hc] at hleft
        have hleft : ¬ w.readersActive - 1 = 0 := hleft
        refine ⟨_, exit_step h hth hr hline ?_ hs, rfl⟩
        rw [hbody, hc, Server.rwReadUnlock]
        simp [hleft, RwLock.withCounters, RwLock.counters]
  | leaving =>
      exact ⟨.answered res n, leave_step h hth hr hline rfl rfl rfl (fun _ => rfl)
        (fun _ => rfl) hs, rfl⟩

theorem rwWriteUnlock_step (he : e.isWrite = true) {res : Snfs.Res} {n : Nat} {pt : UnlockAt}
    (hline : s.line (tidOf k) = serving k p (.unlocking e res n pt))
    (hs : s.rwWriteUnlock (tidOf k) (fun pt => serving k p (.unlocking e res n pt))
      (serving k p (.answered res n)) pt = some s') :
    ∃ wl, LockStep s k p wl w s' ∧ wl.work = .answered res n := by
  obtain ⟨hcounters, hpc⟩ := unlock_counters h hth hr hline
  cases pt with
  | entering =>
      obtain rfl := Option.some.inj hs
      refine ⟨.unlocking e res n .released, count_step h hth hr hline rfl rfl ?_ rfl ?_, rfl⟩
      · exact iff_of_false (by simp [WorkLine.place, UnlockAt.place])
          (by simp [WorkLine.place, UnlockAt.place])
      · have hc : s.counters = w.counters := hcounters
        simp [Line.todo, Line.done, serving, he, hc]
  | released =>
      have hc : s.counters = { w.counters with writerActive := 0 } := by
        simpa [Line.todo, Line.done, serving, he] using hcounters
      refine ⟨_, signal_step h hth hr hline ?_ hs, rfl⟩
      rw [monitorBody, hpc, hc]
      simp [UnlockAt.pc, he, Server.rwWriteUnlock, RwLock.withCounters, RwLock.counters]
  | leaving =>
      exact ⟨.answered res n, leave_step h hth hr hline rfl rfl rfl (fun _ => rfl)
        (fun _ => rfl) hs, rfl⟩

end

end Sthreads.Server
