/-
When the readers-writers lock strands a waiter.

Readers and writers wait in one queue and every release signals its oldest thread
only.  If that thread is a reader while a writer waits behind it, the reader goes
back to sleep because of the writer, nobody is signalled again, and the lock stays
free with threads waiting for it.

`ReleaseServed` is the condition under which this does not happen, read off the
state in which a thread runs the body of an unlock function.  Under it the
invariant `Taken` holds: whenever the lock is free and somebody waits, a thread
that will take the lock owns the monitor or stands in its entry queue.  A release
that does not meet the condition leaves only readers there while a writer waits.
-/
import Sthreads.Proofs.Server.RwAccounting

namespace Sthreads.Server

variable {T : Type}

/-! ### Who is where -/

namespace Pc

/-- Inside one of the four functions, with the monitor or queued for it. -/
def inMonitorB : Pc → Bool
  | .lock _ => true
  | .waiting _ => true
  | .unlock _ => true
  | _ => false

/-- In one of the two lock functions. -/
def lockB : Pc → Bool
  | .lock _ => true
  | .waiting _ => true
  | _ => false

/-- Inside a wait loop. -/
def loopB : Pc → Bool
  | .waiting _ => true
  | _ => false

end Pc

/-- The monitor's lists and the threads' program points agree. -/
structure Placed (m : Monitor T) (pc : T → Pc) : Prop where
  wf : m.WF
  present : ∀ t ∈ m.present, (pc t).inMonitorB = true
  waiting : ∀ t ∈ m.waiting, (pc t).loopB = true
  loop : ∀ t, (pc t).loopB = true → t ∈ m.present ∨ t ∈ m.waiting
  nodup : (m.present ++ m.waiting).Nodup

theorem Placed.init : Placed (RwLock.init : RwLock T).rwMon (RwLock.init : RwLock T).pc := by
  constructor
  · exact Monitor.WF.empty
  · intro t ht; simp [RwLock.init, Monitor.empty, Monitor.present] at ht
  · intro t ht; simp [RwLock.init, Monitor.empty] at ht
  · intro t ht; simp [RwLock.init, Pc.loopB] at ht
  · simp [RwLock.init, Monitor.empty, Monitor.present]

variable [DecidableEq T]

/-- A thread outside the four functions enters one. -/
theorem Placed.enter {m : Monitor T} {pc : T → Pc} (h : Placed m pc) {t : T} {c : Pc}
    (ht : (pc t).inMonitorB = false) (hc : c.inMonitorB = true) (hl : c.loopB = false) :
    Placed (m.enter t) (Function.update pc t c) := by
  have hnp : t ∉ m.present := fun hm => by simp [h.present t hm] at ht
  have hnl : (pc t).loopB = false := by
    cases hp : pc t <;> simp [hp, Pc.inMonitorB, Pc.loopB] at ht ⊢
  have hnw : t ∉ m.waiting := fun hm => by simp [h.waiting t hm] at hnl
  have hpe := Monitor.enter_present h.wf t
  constructor
  · exact h.wf.enter t
  · intro u hu
    rw [hpe] at hu
    by_cases hut : u = t
    · subst hut; rw [Function.update_self]; exact hc
    · rw [Function.update_of_ne hut]
      exact h.present u (by simpa [hut] using hu)
  · intro u hu
    rw [Monitor.enter_waiting] at hu
    have hut : u ≠ t := fun he => hnw (he ▸ hu)
    rw [Function.update_of_ne hut]
    exact h.waiting u hu
  · intro u hu
    rw [hpe, Monitor.enter_waiting]
    by_cases hut : u = t
    · subst hut; rw [Function.update_self, hl] at hu; exact Bool.noConfusion hu
    · rw [Function.update_of_ne hut] at hu
      rcases h.loop u hu with hp | hw
      · exact Or.inl (by simp [hp])
      · exact Or.inr hw
  · rw [hpe, Monitor.enter_waiting]
    have hperm : (m.present ++ [t] ++ m.waiting).Perm (t :: (m.present ++ m.waiting)) := by
      simp [List.perm_middle]
    refine hperm.nodup_iff.mpr (List.nodup_cons.mpr ⟨?_, h.nodup⟩)
    simp [hnp, hnw]

/-- The owner goes back to the wait queue. -/
theorem Placed.wait {m : Monitor T} {pc : T → Pc} (h : Placed m pc) {t : T} {c : Pc}
    (ho : m.owner = some t) (hc : c.loopB = true) :
    Placed (m.wait t) (Function.update pc t c) := by
  have hpe := Monitor.wait_present ho
  have hnd := h.nodup
  rw [hpe, List.cons_append, List.nodup_cons] at hnd
  have hne : ∀ u ∈ (m.wait t).present ++ m.waiting, u ≠ t := fun u hu he => hnd.1 (he ▸ hu)
  constructor
  · exact Monitor.WF.wait m t
  · intro u hu
    rw [Function.update_of_ne (hne u (by simp [hu]))]
    exact h.present u (by rw [hpe]; simp [hu])
  · intro u hu
    rw [Monitor.wait_waiting] at hu
    by_cases hut : u = t
    · subst hut; rw [Function.update_self]; exact hc
    · rw [Function.update_of_ne hut]
      exact h.waiting u (by simpa [hut] using hu)
  · intro u hu
    rw [Monitor.wait_waiting]
    by_cases hut : u = t
    · exact Or.inr (by simp [hut])
    · rw [Function.update_of_ne hut] at hu
      rcases h.loop u hu with hp | hw
      · rw [hpe] at hp
        exact Or.inl (by simpa [hut] using hp)
      · exact Or.inr (by simp [hw])
  · rw [Monitor.wait_waiting, ← List.append_assoc]
    have hperm : ((m.wait t).present ++ m.waiting ++ [t]).Perm
        (t :: ((m.wait t).present ++ m.waiting)) := List.perm_append_singleton _ _
    exact hperm.nodup_iff.mpr (List.nodup_cons.mpr hnd)

/-- The owner leaves, moving the `k` oldest waiters to the entry queue first. -/
theorem Placed.leave {m m' : Monitor T} {pc : T → Pc} (h : Placed m pc) {t : T} {c : Pc} (k : Nat)
    (hwf : m'.WF) (hpe : m.present ++ m.waiting.take k = t :: m'.present)
    (hwe : m'.waiting = m.waiting.drop k) (hc : c.loopB = false) :
    Placed m' (Function.update pc t c) := by
  have hnd := h.nodup
  rw [← List.take_append_drop k m.waiting, ← List.append_assoc, hpe, List.cons_append,
    List.nodup_cons] at hnd
  rw [hwe.symm] at hnd
  have hne : ∀ u ∈ m'.present ++ m'.waiting, u ≠ t := fun u hu he => hnd.1 (he ▸ hu)
  constructor
  · exact hwf
  · intro u hu
    rw [Function.update_of_ne (hne u (by simp [hu]))]
    have hmem : u ∈ m.present ++ m.waiting.take k := by rw [hpe]; simp [hu]
    rcases List.mem_append.mp hmem with hp | hw
    · exact h.present u hp
    · have hl := h.waiting u (List.mem_of_mem_take hw)
      cases hp : pc u <;> simp [hp, Pc.loopB, Pc.inMonitorB] at hl ⊢
  · intro u hu
    rw [Function.update_of_ne (hne u (by simp [hu]))]
    rw [hwe] at hu
    exact h.waiting u (List.mem_of_mem_drop hu)
  · intro u hu
    by_cases hut : u = t
    · subst hut; rw [Function.update_self, hc] at hu; exact Bool.noConfusion hu
    · rw [Function.update_of_ne hut] at hu
      have hmem : u ∈ m.present ++ m.waiting.take k ∨ u ∈ m.waiting.drop k := by
        rcases h.loop u hu with hp | hw
        · exact Or.inl (by simp [hp])
        · rw [← List.take_append_drop k m.waiting] at hw
          rcases List.mem_append.mp hw with hw | hw
          · exact Or.inl (by simp [hw])
          · exact Or.inr hw
      rw [hpe, ← hwe] at hmem
      rcases hmem with hp | hw
      · exact Or.inl (by simpa [hut] using hp)
      · exact Or.inr hw
  · exact hnd.2

/-! ### What a monitor body can do

Everything below case-splits on a body once, here: a thread in a lock function
waits or passes, a thread in an unlock function releases.
-/

/-- The monitor as an unlock body leaves it: with or without a signal before the exit. -/
def released (m : Monitor T) (signals : Bool) : Monitor T :=
  if signals then m.signal.exit else m.exit

/-- The six ways a monitor body ends. -/
inductive BodyCase (s s' : RwLock T) (t : T) : Prop
  | readerWaits (e : Service) (he : e.isWrite = false)
      (hpc : s.pc t = .lock e ∨ s.pc t = .waiting e)
      (hbusy : s.writerActive ≠ 0 ∨ s.writersWaiting > 0)
      (hs : s' = { s with
        rwMon := s.rwMon.wait t, pc := Function.update s.pc t (.waiting e) })
  | readerPasses (e : Service) (he : e.isWrite = false)
      (hs : s' = { s with
        readersActive := s.readersActive + 1, rwMon := s.rwMon.exit,
        pc := Function.update s.pc t (.running e) })
  | writerWaits (e : Service) (ww : Int) (he : e.isWrite = true)
      (hbusy : s.writerActive ≠ 0 ∨ s.readersActive > 0)
      (hs : s' = { s with
        writersWaiting := ww, rwMon := s.rwMon.wait t,
        pc := Function.update s.pc t (.waiting e) })
  | writerPasses (e : Service) (ww : Int) (he : e.isWrite = true)
      (hs : s' = { s with
        writersWaiting := ww, writerActive := 1, rwMon := s.rwMon.exit,
        pc := Function.update s.pc t (.running e) })
  | readerLeaves (e : Service) (he : e.isWrite = false) (hpc : s.pc t = .unlock e)
      (hs : s' = { s with
        readersActive := s.readersActive - 1,
        rwMon := released s.rwMon (decide (s.readersActive - 1 = 0)),
        pc := Function.update s.pc t .fetch })
  | writerLeaves (e : Service) (he : e.isWrite = true) (hpc : s.pc t = .unlock e)
      (hs : s' = { s with
        writerActive := 0, rwMon := released s.rwMon true,
        pc := Function.update s.pc t .fetch })

theorem rwReadLock_cases (s : RwLock T) (t : T) {e : Service} (he : e.isWrite = false)
    (hpc : s.pc t = .lock e ∨ s.pc t = .waiting e) : BodyCase s (rwReadLock s t e) t := by
  unfold rwReadLock
  split
  · rename_i hb
    exact .readerWaits e he hpc hb rfl
  · exact .readerPasses e he rfl

theorem rwWriteLockLoop_cases (s : RwLock T) (t : T) (ww : Int) {e : Service}
    (he : e.isWrite = true) :
    BodyCase s (rwWriteLockLoop { s with writersWaiting := ww } t e) t := by
  unfold rwWriteLockLoop
  split
  · rename_i hb
    exact .writerWaits e ww he hb rfl
  · exact .writerPasses e (ww - 1) he rfl

theorem monitorBody_cases {s s' : RwLock T} {t : T} (hs : monitorBody s t = some s') :
    BodyCase s s' t := by
  unfold monitorBody at hs
  cases hpc : s.pc t with
  | fetch => simp [hpc] at hs
  | running e => simp [hpc] at hs
  | lock e =>
      simp only [hpc, Option.some.injEq] at hs
      subst hs
      split
      · rename_i he; exact rwWriteLockLoop_cases s t _ he
      · rename_i he; exact rwReadLock_cases s t (by simpa using he) (Or.inl hpc)
  | waiting e =>
      simp only [hpc, Option.some.injEq] at hs
      subst hs
      split
      · rename_i he; exact rwWriteLockLoop_cases s t s.writersWaiting he
      · rename_i he; exact rwReadLock_cases s t (by simpa using he) (Or.inr hpc)
  | unlock e =>
      simp only [hpc, Option.some.injEq] at hs
      subst hs
      split
      · rename_i he; exact .writerLeaves e he hpc (by simp [rwWriteUnlock, released])
      · rename_i he
        exact .readerLeaves e (by simpa using he) hpc (by simp [rwReadUnlock, released])

/-- A step is a call of a lock function, a monitor body, a call of an unlock function or nothing. -/
inductive StepCase (s s' : RwLock T) : RwAct T → Prop
  | enters (a : RwAct T) (t : T) (c : Pc) (ha : a ≠ .body) (ht : (s.pc t).inMonitorB = false)
      (hc : c.inMonitorB = true) (hl : c.loopB = false) (hs : s' = enterRw s t c) : StepCase s s' a
  | answers (a : RwAct T) (ha : a ≠ .body) (hs : s' = s) : StepCase s s' a
  | body (t : T) (ho : s.rwMon.owner = some t) (hb : BodyCase s s' t) : StepCase s s' .body

theorem rwStep_cases {s s' : RwLock T} {a : RwAct T} (hs : rwStep s a = some s') :
    StepCase s s' a := by
  cases a with
  | request t type =>
      simp only [rwStep] at hs
      split at hs
      · rename_i e hpc _
        simp only [Option.some.injEq] at hs
        exact .enters _ t (.lock e) (by simp) (by rw [hpc]; rfl) rfl rfl hs.symm
      · simp only [Option.some.injEq] at hs
        exact .answers _ (by simp) hs.symm
      · simp at hs
  | finish t =>
      simp only [rwStep] at hs
      split at hs
      · rename_i e hpc
        simp only [Option.some.injEq] at hs
        exact .enters _ t (.unlock e) (by simp) (by rw [hpc]; rfl) rfl rfl hs.symm
      · simp at hs
  | body =>
      simp only [rwStep] at hs
      split at hs
      · rename_i t ho
        exact .body t ho (monitorBody_cases hs)
      · simp at hs

/-! ### The lists stay in step with the program points -/

omit [DecidableEq T] in
/-- An exit, with a signal before it or not, keeps those present and appends the signalled. -/
theorem released_present {m : Monitor T} {t : T} (ho : m.owner = some t) (signals : Bool) :
    m.present ++ m.waiting.take signals.toNat = t :: (released m signals).present := by
  cases signals with
  | false => simpa [released] using Monitor.exit_present ho
  | true =>
      have hso : m.signal.owner = some t := by rw [Monitor.signal_owner, ho]
      rw [Bool.toNat_true, ← Monitor.signal_present]
      exact Monitor.exit_present hso

omit [DecidableEq T] in
theorem released_waiting (m : Monitor T) (signals : Bool) :
    (released m signals).waiting = m.waiting.drop signals.toNat := by
  cases signals with
  | false => simp [released]
  | true => simp [released, Monitor.signal_waiting]

omit [DecidableEq T] in
theorem released_wf (m : Monitor T) (signals : Bool) : (released m signals).WF := by
  unfold released
  split <;> exact Monitor.WF.exit _

theorem BodyCase.placed {s s' : RwLock T} {t : T} (h : Placed s.rwMon s.pc)
    (ho : s.rwMon.owner = some t) (hb : BodyCase s s' t) : Placed s'.rwMon s'.pc := by
  have hpass : ∀ c : Pc, c.loopB = false →
      Placed s.rwMon.exit (Function.update s.pc t c) := fun c hc =>
    h.leave 0 (Monitor.WF.exit _) (by simpa using Monitor.exit_present ho) (by simp) hc
  have hleave : ∀ signals : Bool,
      Placed (released s.rwMon signals) (Function.update s.pc t .fetch) := fun signals =>
    h.leave signals.toNat (released_wf _ _) (released_present ho signals)
      (released_waiting _ _) rfl
  cases hb with
  | readerWaits e he hpc hbusy hs => subst hs; exact h.wait ho rfl
  | readerPasses e he hs => subst hs; exact hpass _ rfl
  | writerWaits e ww he hbusy hs => subst hs; exact h.wait ho rfl
  | writerPasses e ww he hs => subst hs; exact hpass _ rfl
  | readerLeaves e he hpc hs => subst hs; exact hleave _
  | writerLeaves e he hpc hs => subst hs; exact hleave true

theorem rwStep_placed {s s' : RwLock T} {a : RwAct T} (h : Placed s.rwMon s.pc)
    (hs : rwStep s a = some s') : Placed s'.rwMon s'.pc := by
  cases rwStep_cases hs with
  | enters _ t c ha ht hc hl hs => subst hs; exact h.enter ht hc hl
  | answers _ ha hs => subst hs; exact h
  | body t ho hb => exact hb.placed h ho

/-! ### The condition and the invariant it keeps -/

/-- The lock is free, somebody waits for it, and nobody is on the way to the monitor. -/
def Stranded (s : RwLock T) : Prop :=
  s.readersActive = 0 ∧ s.writerActive = 0 ∧ s.rwMon.waiting ≠ [] ∧
    s.rwMon.owner = none ∧ s.rwMon.entry = []

/-- The owner is about to release the lock: a writer, or the last reader. -/
def Releases (s : RwLock T) (t : T) : Prop :=
  match s.pc t with
  | .unlock e => e.isWrite = true ∨ s.readersActive = 1
  | _ => False

instance (s : RwLock T) (t : T) : Decidable (Releases s t) :=
  match h : s.pc t with
  | .unlock e => decidable_of_iff (e.isWrite = true ∨ s.readersActive = 1) (by rw [Releases, h])
  | .fetch => isFalse (by rw [Releases, h]; exact id)
  | .lock _ => isFalse (by rw [Releases, h]; exact id)
  | .waiting _ => isFalse (by rw [Releases, h]; exact id)
  | .running _ => isFalse (by rw [Releases, h]; exact id)

/--
The condition on a step.  If it releases the lock and the oldest waiter is a
reader, then no writer waits in its loop, or some writer stands in the entry queue
and will take the lock from there.
-/
def ReleaseServed (s : RwLock T) : RwAct T → Prop
  | .body => ∀ t ∈ s.rwMon.owner, Releases s t → ∀ u ∈ s.rwMon.waiting.head?,
      (s.pc u).writeLoopB = true ∨ s.writersWaiting ≤ 0 ∨
        ∃ w ∈ s.rwMon.entry, (s.pc w).writeLockB = true
  | _ => True

instance (s : RwLock T) : ∀ a, Decidable (ReleaseServed s a)
  | .body => inferInstanceAs (Decidable (∀ t ∈ s.rwMon.owner, Releases s t →
      ∀ u ∈ s.rwMon.waiting.head?, (s.pc u).writeLoopB = true ∨ s.writersWaiting ≤ 0 ∨
        ∃ w ∈ s.rwMon.entry, (s.pc w).writeLockB = true))
  | .request _ _ => isTrue trivial
  | .finish _ => isTrue trivial

/-- `t` takes the lock if it is still free when its turn comes. -/
def Takes (s : RwLock T) (t : T) : Prop :=
  (s.pc t).writeLockB = true ∨ ((s.pc t).lockB = true ∧ s.writersWaiting ≤ 0)

/-- Whenever the lock is free and somebody waits, somebody present will take it. -/
def Taken (s : RwLock T) : Prop :=
  s.readersActive = 0 → s.writerActive = 0 → s.rwMon.waiting ≠ [] →
    ∃ t ∈ s.rwMon.present, Takes s t

omit [DecidableEq T] in
theorem Taken.not_stranded {s : RwLock T} (h : Taken s) : ¬ Stranded s := by
  rintro ⟨hr, hw, hq, ho, he⟩
  obtain ⟨t, ht, -⟩ := h hr hw hq
  rw [Monitor.present_eq_nil.mpr ⟨ho, he⟩] at ht
  simp at ht

omit [DecidableEq T] in
theorem Taken.init : Taken (RwLock.init : RwLock T) := by
  intro _ _ hq
  exact absurd rfl hq

/-- A thread in the loop of `rw_write_lock` is on the way to the write lock. -/
theorem Pc.writeLockB_of_loop {c : Pc} (h : c.writeLoopB = true) : c.writeLockB = true := by
  cases c <;> simp_all [Pc.writeLoopB, Pc.writeLockB]

theorem Taken.enter {s : RwLock T} (hp : Placed s.rwMon s.pc) (h : Taken s) {t : T} {c : Pc}
    (ht : (s.pc t).inMonitorB = false) : Taken (enterRw s t c) := by
  intro hr hw hq
  simp only [enterRw, Monitor.enter_waiting] at hr hw hq
  obtain ⟨u, hu, htk⟩ := h hr hw hq
  have hut : u ≠ t := by
    rintro rfl
    rw [hp.present u hu] at ht
    exact Bool.noConfusion ht
  refine ⟨u, ?_, ?_⟩
  · simp only [enterRw]
    rw [Monitor.enter_present hp.wf]
    simp [hu]
  · simpa [Takes, enterRw, Function.update_of_ne hut] using htk

/-- A reader goes to sleep with the lock free only because a writer is present. -/
theorem Taken.readerWaits [Fintype T] {s : RwLock T} (hacc : Accounting s)
    (hp : Placed s.rwMon s.pc) (h : Taken s) {t : T} {e : Service} (he : e.isWrite = false)
    (ho : s.rwMon.owner = some t) (hpc : s.pc t = .lock e ∨ s.pc t = .waiting e)
    (hbusy : s.writerActive ≠ 0 ∨ s.writersWaiting > 0) :
    Taken { s with rwMon := s.rwMon.wait t, pc := Function.update s.pc t (.waiting e) } := by
  intro hr hw _
  simp only at hr hw
  have hww : 0 < s.writersWaiting := by
    rcases hbusy with hb | hb
    · exact absurd hw hb
    · exact hb
  have hnt : (s.pc t).writeLockB = false := by
    rcases hpc with hpc | hpc <;> rw [hpc] <;> exact he
  have hpe := Monitor.wait_present ho
  -- Some writer on its way is present: the taker there was, or a writer in the loop.
  have hwriter : ∃ u ∈ s.rwMon.present, (s.pc u).writeLockB = true := by
    by_cases hq : s.rwMon.waiting = []
    · obtain ⟨u, hu⟩ := exists_of_countAt_pos (p := Pc.writeLoopB) (f := s.pc)
        (by have := hacc.waiting; omega)
      have hul : (s.pc u).loopB = true := by
        cases hc : s.pc u <;> simp [hc, Pc.writeLoopB, Pc.loopB] at hu ⊢
      rcases hp.loop u hul with hup | huw
      · exact ⟨u, hup, Pc.writeLockB_of_loop hu⟩
      · rw [hq] at huw
        simp at huw
    · obtain ⟨u, hup, htk⟩ := h hr hw hq
      rcases htk with htk | ⟨-, hle⟩
      · exact ⟨u, hup, htk⟩
      · omega
  obtain ⟨u, hup, huw⟩ := hwriter
  have hut : u ≠ t := by
    rintro rfl
    rw [hnt] at huw
    exact Bool.noConfusion huw
  rw [hpe, List.mem_cons] at hup
  refine ⟨u, by simpa [hut] using hup, Or.inl ?_⟩
  simpa [Function.update_of_ne hut] using huw

/-- A release that meets the condition leaves somebody present who takes the lock. -/
theorem Taken.release {s s' : RwLock T} (hp : Placed s.rwMon s.pc) {t : T}
    (ho : s.rwMon.owner = some t) (hrel : Releases s t) (hok : ReleaseServed s .body)
    (hmon : s'.rwMon = released s.rwMon true) (hww : s'.writersWaiting = s.writersWaiting)
    (hpc : s'.pc = Function.update s.pc t .fetch) : Taken s' := by
  intro _ _ hq
  have hpe := released_present ho true
  rw [Bool.toNat_true] at hpe
  rw [hmon, released_waiting, Bool.toNat_true] at hq
  obtain ⟨u, rest, hwait⟩ : ∃ u rest, s.rwMon.waiting = u :: rest := by
    cases hw : s.rwMon.waiting with
    | nil => rw [hw] at hq; simp at hq
    | cons u rest => exact ⟨u, rest, rfl⟩
  have hnd := hp.nodup
  have htp : t ∈ s.rwMon.present := by rw [Monitor.exit_present ho]; simp
  have hut : u ≠ t := by
    rintro rfl
    rw [hwait] at hnd
    exact (List.nodup_append.mp hnd).2.2 u htp u (by simp) rfl
  have hup : u ∈ (released s.rwMon true).present := by
    have hmem : u ∈ s.rwMon.present ++ s.rwMon.waiting.take 1 := by simp [hwait]
    rw [hpe] at hmem
    simpa [hut] using hmem
  have hul : (s.pc u).loopB = true := hp.waiting u (by simp [hwait])
  rcases hok t ho hrel u (by simp [hwait]) with hw | hle | ⟨w, hwe, hww'⟩
  · refine ⟨u, by rw [hmon]; exact hup, Or.inl ?_⟩
    rw [hpc, Function.update_of_ne hut]
    exact Pc.writeLockB_of_loop hw
  · refine ⟨u, by rw [hmon]; exact hup, Or.inr ⟨?_, by rw [hww]; exact hle⟩⟩
    rw [hpc, Function.update_of_ne hut]
    cases hc : s.pc u <;> simp [hc, Pc.loopB, Pc.lockB] at hul ⊢
  · have hwt : w ≠ t := by
      rintro rfl
      have hpn : s.rwMon.present.Nodup := (List.nodup_append.mp hnd).1
      simp only [Monitor.present, ho, Option.toList_some, List.singleton_append,
        List.nodup_cons] at hpn
      exact hpn.1 hwe
    have hwp : w ∈ (released s.rwMon true).present := by
      have hmem : w ∈ s.rwMon.present ++ s.rwMon.waiting.take 1 := by
        simp [Monitor.present, hwe]
      rw [hpe] at hmem
      simpa [hwt] using hmem
    refine ⟨w, by rw [hmon]; exact hwp, Or.inl ?_⟩
    rw [hpc, Function.update_of_ne hwt]
    exact hww'

/-- Every step that meets the condition keeps `Taken`. -/
theorem rwStep_taken [Fintype T] {s s' : RwLock T} {a : RwAct T} (hacc : Accounting s)
    (hp : Placed s.rwMon s.pc) (h : Taken s) (hok : ReleaseServed s a)
    (hs : rwStep s a = some s') : Taken s' := by
  have hra := hacc.readers_nonneg
  cases rwStep_cases hs with
  | enters _ t c ha ht hc hl hs => subst hs; exact h.enter hp ht
  | answers _ ha hs => subst hs; exact h
  | body t ho hb =>
      cases hb with
      | readerWaits e he hpc hbusy hs =>
          subst hs
          exact Taken.readerWaits hacc hp h he ho hpc hbusy
      | readerPasses e he hs => subst hs; intro hr; simp only at hr; omega
      | writerWaits e ww he hbusy hs =>
          subst hs
          intro hr hw
          simp only at hr hw
          omega
      | writerPasses e ww he hs => subst hs; intro _ hw; simp at hw
      | readerLeaves e he hpc hs =>
          subst hs
          intro hr hw hq
          simp only at hr
          have hone : s.readersActive = 1 := by omega
          have hrel : Releases s t := by rw [Releases, hpc]; exact Or.inr hone
          refine Taken.release (s := s) hp ho hrel hok ?_ rfl rfl hr hw hq
          simp [hr]
      | writerLeaves e he hpc hs =>
          subst hs
          have hrel : Releases s t := by rw [Releases, hpc]; exact Or.inl he
          exact Taken.release (s := s) hp ho hrel hok rfl rfl rfl

/-! ### A release that does not meet the condition

It leaves the lock free, a writer asleep and only readers on their way.  Each of
them goes back to sleep in turn, and then nobody is left to wake anybody.
-/

/-- The lock is free, a writer is in its loop, and everybody present is a reader about to sleep. -/
structure Doomed (s : RwLock T) : Prop where
  readers : s.readersActive = 0
  writers : s.writerActive = 0
  waiting : 0 < s.writersWaiting
  present : ∀ t ∈ s.rwMon.present, ∃ e, e.isWrite = false ∧
    (s.pc t = .lock e ∨ s.pc t = .waiting e)

omit [DecidableEq T] in
/-- With nobody present, the writer that is counted as waiting is asleep. -/
theorem Doomed.stranded [Fintype T] {s : RwLock T} (h : Doomed s) (hacc : Accounting s)
    (hp : Placed s.rwMon s.pc) (hn : s.rwMon.present = []) : Stranded s := by
  obtain ⟨ho, he⟩ := Monitor.present_eq_nil.mp hn
  refine ⟨h.readers, h.writers, ?_, ho, he⟩
  obtain ⟨u, hu⟩ := exists_of_countAt_pos (p := Pc.writeLoopB) (f := s.pc)
    (by have := hacc.waiting; have := h.waiting; omega)
  have hul : (s.pc u).loopB = true := by
    cases hc : s.pc u <;> simp [hc, Pc.writeLoopB, Pc.loopB] at hu ⊢
  rcases hp.loop u hul with hup | huw
  · rw [hn] at hup
    simp at hup
  · exact List.ne_nil_of_mem huw

/-- From a doomed state the bodies of those present end with everybody asleep. -/
theorem Doomed.strands [Fintype T] :
    ∀ (n : Nat) (s : RwLock T), s.rwMon.present.length = n → Accounting s →
      Placed s.rwMon s.pc → Doomed s →
      ∃ s', runActs rwStep s (List.replicate n .body) = some s' ∧ Stranded s' := by
  intro n
  induction n with
  | zero =>
      intro s hn hacc hp h
      exact ⟨s, rfl, h.stranded hacc hp (List.length_eq_zero_iff.mp hn)⟩
  | succ n ih =>
      intro s hn hacc hp h
      obtain ⟨t, ho⟩ : ∃ t, s.rwMon.owner = some t := by
        cases ho : s.rwMon.owner with
        | some t => exact ⟨t, rfl⟩
        | none => simp [Monitor.present, ho, hp.wf ho] at hn
      have hpe := Monitor.wait_present ho
      obtain ⟨e, he, hpc⟩ := h.present t (by rw [hpe]; simp)
      have hbusy : s.writerActive ≠ 0 ∨ s.writersWaiting > 0 := Or.inr h.waiting
      set s₁ : RwLock T := { s with
        rwMon := s.rwMon.wait t, pc := Function.update s.pc t (.waiting e) } with hs₁
      have hstep : rwStep s .body = some s₁ := by
        have hbody : monitorBody s t = some s₁ := by
          rcases hpc with hpc | hpc <;>
            simp only [monitorBody, hpc, he, rwReadLock, if_pos hbusy] <;> rfl
        simp only [rwStep, ho, hbody]
      have hd₁ : Doomed s₁ := by
        refine ⟨h.readers, h.writers, h.waiting, ?_⟩
        intro u hu
        by_cases hut : u = t
        · exact ⟨e, he, Or.inr (by rw [hs₁, hut]; exact Function.update_self ..)⟩
        · obtain ⟨f, hf, hfpc⟩ := h.present u (by rw [hpe]; simpa [hut] using hu)
          refine ⟨f, hf, ?_⟩
          simpa only [hs₁, Function.update_of_ne hut] using hfpc
      obtain ⟨s', hrun, hstr⟩ := ih s₁ (by rw [hpe] at hn; simpa using hn)
        (rwStep_accounting hacc hstep) (rwStep_placed hp hstep) hd₁
      exact ⟨s', by rw [List.replicate_succ, runActs, hstep]; exact hrun, hstr⟩

/-- A release that does not meet the condition dooms those it leaves behind. -/
theorem doomed_of_unserved [Fintype T] {s s' : RwLock T} (hacc : Accounting s)
    (hp : Placed s.rwMon s.pc) (hok : ¬ ReleaseServed s .body)
    (hs : rwStep s .body = some s') : Doomed s' := by
  simp only [ReleaseServed, not_forall, not_or, not_exists] at hok
  obtain ⟨t, ho, hrel, u, hu, hur, hww, hnw⟩ := hok
  obtain ⟨e, hpc, hlast⟩ : ∃ e, s.pc t = .unlock e ∧
      (e.isWrite = true ∨ s.readersActive = 1) := by
    cases hc : s.pc t with
    | unlock e => exact ⟨e, rfl, by rw [Releases, hc] at hrel; exact hrel⟩
    | fetch => rw [Releases, hc] at hrel; exact hrel.elim
    | lock e => rw [Releases, hc] at hrel; exact hrel.elim
    | waiting e => rw [Releases, hc] at hrel; exact hrel.elim
    | running e => rw [Releases, hc] at hrel; exact hrel.elim
  have ho' : s.rwMon.owner = some t := ho
  -- The lock is free after the release, so nobody present holds it or is about to release it.
  have hfree : s'.readersActive = 0 ∧ s'.writerActive = 0 ∧
      s'.writersWaiting = s.writersWaiting ∧ s'.rwMon = released s.rwMon true ∧
      s'.pc = Function.update s.pc t .fetch := by
    have hw0 := hacc.writers_nonneg
    have hr0 := hacc.readers_nonneg
    simp only [rwStep, ho', monitorBody, hpc, Option.some.injEq] at hs
    subst hs
    cases he : e.isWrite with
    | true =>
        have hpos := countAt_pos (p := Pc.writingB) (f := s.pc) (t := t) (by rw [hpc]; exact he)
        have h2 := hacc.writers
        have h4 := hacc.one
        have h5 := hacc.alone (by omega)
        simp [rwWriteUnlock, released, h5]
    | false =>
        have hone : s.readersActive = 1 := by simpa [he] using hlast
        have h5 := hacc.alone
        have h4 := hacc.one
        have hw : s.writerActive = 0 := by omega
        simp [rwReadUnlock, released, hone, hw]
  obtain ⟨hr, hw, hwe, hmon, hpc'⟩ := hfree
  have hacc' := rwStep_accounting hacc hs
  refine ⟨hr, hw, by omega, ?_⟩
  intro v hv
  have hvm : (s'.pc v).inMonitorB = true := (rwStep_placed hp hs).present v hv
  have hvt : v ≠ t := by
    rintro rfl
    rw [hpc', Function.update_self] at hvm
    exact Bool.noConfusion hvm
  have hvpc : s'.pc v = s.pc v := by rw [hpc', Function.update_of_ne hvt]
  -- `v` stood in the entry queue or is the signalled waiter; neither is a writer.
  have hvw : (s'.pc v).writeLockB = false := by
    rw [hvpc]
    have hmem : v ∈ s.rwMon.present ++ s.rwMon.waiting.take 1 := by
      have hpe := released_present ho' true
      rw [Bool.toNat_true] at hpe
      rw [hpe, ← hmon]
      simp [hv]
    rcases List.mem_append.mp hmem with hvp | hvq
    · have hve : v ∈ s.rwMon.entry := by
        simpa [Monitor.present, ho', hvt] using hvp
      have hnot := hnw v
      simp only [not_and, Bool.not_eq_true] at hnot
      exact hnot hve
    · have hvu : v = u := by
        cases hq : s.rwMon.waiting with
        | nil => rw [hq] at hvq; simp at hvq
        | cons x rest =>
            rw [hq] at hvq hu
            simp only [List.take_succ_cons, List.take_zero, List.mem_singleton] at hvq
            simp only [List.head?_cons, Option.mem_def, Option.some.injEq] at hu
            rw [hvq, hu]
      have hul : (s.pc u).loopB = true := hp.waiting u (List.mem_of_mem_head? hu)
      rw [hvu]
      cases hc : s.pc u with
      | waiting f => simpa [hc, Pc.writeLoopB, Pc.writeLockB] using hur
      | fetch => rw [hc] at hul; exact Bool.noConfusion hul
      | lock f => rw [hc] at hul; exact Bool.noConfusion hul
      | running f => rw [hc] at hul; exact Bool.noConfusion hul
      | unlock f => rw [hc] at hul; exact Bool.noConfusion hul
  cases hc : s'.pc v with
  | lock f => exact ⟨f, by rw [hc] at hvw; exact hvw, Or.inl rfl⟩
  | waiting f => exact ⟨f, by rw [hc] at hvw; exact hvw, Or.inr rfl⟩
  | fetch => rw [hc] at hvm; exact Bool.noConfusion hvm
  | running f => rw [hc] at hvm; exact Bool.noConfusion hvm
  | unlock f =>
      -- a pending unlock would mean that the lock is still held
      exfalso
      cases hf : f.isWrite with
      | true =>
          have hpos := countAt_pos (p := Pc.writingB) (f := s'.pc) (t := v)
            (by rw [hc]; exact hf)
          have := hacc'.writers
          omega
      | false =>
          have hpos := countAt_pos (p := Pc.readingB) (f := s'.pc) (t := v)
            (by rw [hc]; simp [Pc.readingB, hf])
          have := hacc'.readers
          omega

/-- **The condition is exact.**  After a release that does not meet it, the threads that are on
their way to the monitor run, and the lock is stranded. -/
theorem unserved_release_strands [Fintype T] {s s' : RwLock T}
    (h : Reaches rwStep RwLock.init s) (hok : ¬ ReleaseServed s .body)
    (hs : rwStep s .body = some s') :
    ∃ n s'', runActs rwStep s' (List.replicate n .body) = some s'' ∧ Stranded s'' := by
  obtain ⟨tr, htr⟩ := h
  have hinv := htr.invariant
    (fun s : RwLock T => Accounting s ∧ Placed s.rwMon s.pc)
    ⟨Accounting.init, Placed.init⟩ fun _ _ _ hi hs =>
      ⟨rwStep_accounting hi.1 hs, rwStep_placed hi.2 hs⟩
  exact ⟨_, Doomed.strands _ s' rfl (rwStep_accounting hinv.1 hs) (rwStep_placed hinv.2 hs)
    (doomed_of_unserved hinv.1 hinv.2 hok hs)⟩

/-! ### Runs -/

/--
**No stranded waiter as long as releases are served.**  In every run in which no
release signals a reader past a writer that waits, whenever the lock is free and
somebody waits for it, somebody is inside the monitor or queued for it.
-/
theorem rwlock_not_stranded [Fintype T] {tr : List (RwLock T × RwAct T)} {s : RwLock T}
    (h : Run rwStep RwLock.init tr s) (hok : ∀ p ∈ tr, ReleaseServed p.1 p.2) :
    ∀ x ∈ visited tr s, ¬ Stranded x := by
  have hinv := Run.visited_of
    (fun s : RwLock T => Accounting s ∧ Placed s.rwMon s.pc ∧ Taken s) ReleaseServed
    ⟨Accounting.init, Placed.init, Taken.init⟩ ?_ h hok
  · intro x hx
    exact (hinv x hx).2.2.not_stranded
  · rintro s a s' ⟨hacc, hp, ht⟩ hok hs
    exact ⟨rwStep_accounting hacc hs, rwStep_placed hp hs, rwStep_taken hacc hp ht hok hs⟩

/-- A reader waits for a writer to finish; the writer's release meets the condition. -/
theorem rwlock_not_stranded_reader :
    ∃ (tr : List (RwLock (Fin 2) × RwAct (Fin 2))) (s : RwLock (Fin 2)),
      Run rwStep RwLock.init tr s ∧ tr.length = 6 ∧ ∀ x ∈ visited tr s, ¬ Stranded x := by
  have hrun := ((((((Run.nil : Run rwStep (RwLock.init : RwLock (Fin 2)) [] RwLock.init).snoc
    (a := .request 0 4) rfl).snoc (a := .body) rfl).snoc (a := .request 1 3) rfl).snoc
    (a := .body) rfl).snoc (a := .finish 0) rfl).snoc (a := .body) rfl
  refine ⟨_, _, hrun, rfl, rwlock_not_stranded hrun ?_⟩
  simp only [List.nil_append, List.cons_append, List.forall_mem_cons]
  decide

/--
A writer runs, a reader waits, a second writer waits behind the reader.  The first
writer's release signals the reader, the reader goes back to sleep because a
writer waits, and the lock is free with both of them asleep.
-/
theorem rwlock_strands :
    ∃ s : RwLock (Fin 3),
      runActs rwStep RwLock.init
        [.request 0 4, .body, .request 1 3, .body, .request 2 4, .body,
         .finish 0, .body, .body] = some s ∧ Stranded s := by
  refine ⟨_, rfl, rfl, rfl, ?_, rfl, rfl⟩
  decide

end Sthreads.Server
