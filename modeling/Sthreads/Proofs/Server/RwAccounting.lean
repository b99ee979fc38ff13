/-
What the three counters of the readers-writers lock count.

`readers_active` and `writer_active` are the numbers of threads between the wait
loop of a lock function and the body of the matching unlock function, and
`writers_waiting` is the number of threads inside the wait loop of
`rw_write_lock`, woken or not.  The wait loops are left only when the other kind
of handler is not running, so the counters also say that a writer excludes
everybody.

Nothing is needed of the monitor beyond the fact that a body is one step: the
counters and the program points change together in it.
-/
import Sthreads.Lib.Count
import Sthreads.Server.RwLock
import Mathlib.Tactic.Common

namespace Sthreads.Server

variable {T : Type} [Fintype T]

/-- The counters are the numbers of threads at their program points, and a writer is alone. -/
structure Accounting (s : RwLock T) : Prop where
  readers : s.readersActive = countAt Pc.readingB s.pc
  writers : s.writerActive = countAt Pc.writingB s.pc
  waiting : s.writersWaiting = countAt Pc.writeLoopB s.pc
  one : s.writerActive ≤ 1
  alone : s.writerActive = 1 → s.readersActive = 0

theorem Accounting.init : Accounting (RwLock.init : RwLock T) := by
  constructor <;> simp [RwLock.init, countAt, Pc.readingB, Pc.writingB, Pc.writeLoopB]

theorem Accounting.readers_nonneg {s : RwLock T} (h : Accounting s) : 0 ≤ s.readersActive := by
  rw [h.readers]
  exact Int.natCast_nonneg _

theorem Accounting.writers_nonneg {s : RwLock T} (h : Accounting s) : 0 ≤ s.writerActive := by
  rw [h.writers]
  exact Int.natCast_nonneg _

/-! ### One step -/

variable [DecidableEq T]

theorem enterRw_accounting {s : RwLock T} (h : Accounting s) {t : T} {c : Pc}
    (hr : c.readingB = (s.pc t).readingB) (hw : c.writingB = (s.pc t).writingB)
    (hl : c.writeLoopB = (s.pc t).writeLoopB) : Accounting (enterRw s t c) := by
  have hcr := countAt_update Pc.readingB s.pc t c
  have hcw := countAt_update Pc.writingB s.pc t c
  have hcl := countAt_update Pc.writeLoopB s.pc t c
  rw [hr] at hcr
  rw [hw] at hcw
  rw [hl] at hcl
  obtain ⟨h1, h2, h3, h4, h5⟩ := h
  constructor <;> simp only [enterRw] <;> omega

theorem rwReadLock_accounting {s : RwLock T} (h : Accounting s) {t : T} {e : Service}
    (hpc : s.pc t = .lock e ∨ s.pc t = .waiting e) (he : e.isWrite = false) :
    Accounting (rwReadLock s t e) := by
  have hr : (s.pc t).readingB = false := by rcases hpc with hpc | hpc <;> rw [hpc] <;> rfl
  have hw : (s.pc t).writingB = false := by rcases hpc with hpc | hpc <;> rw [hpc] <;> rfl
  have hl : (s.pc t).writeLoopB = false := by
    rcases hpc with hpc | hpc <;> rw [hpc] <;> simp [Pc.writeLoopB, he]
  obtain ⟨h1, h2, h3, h4, h5⟩ := h
  unfold rwReadLock
  split
  · -- the reader joins the waiters: no counter counts it
    have hcr := countAt_update Pc.readingB s.pc t (.waiting e)
    have hcw := countAt_update Pc.writingB s.pc t (.waiting e)
    have hcl := countAt_update Pc.writeLoopB s.pc t (.waiting e)
    rw [hr] at hcr
    rw [hw] at hcw
    rw [hl] at hcl
    simp only [Pc.readingB, Pc.writingB, Pc.writeLoopB, he, Bool.toNat_false] at hcr hcw hcl
    constructor <;> simp only <;> omega
  · rename_i hfree
    have hcr := countAt_update Pc.readingB s.pc t (.running e)
    have hcw := countAt_update Pc.writingB s.pc t (.running e)
    have hcl := countAt_update Pc.writeLoopB s.pc t (.running e)
    rw [hr] at hcr
    rw [hw] at hcw
    rw [hl] at hcl
    simp only [Pc.readingB, Pc.writingB, Pc.writeLoopB, he, Bool.not_false, Bool.toNat_false,
      Bool.toNat_true] at hcr hcw hcl
    constructor <;> simp only <;> omega

theorem rwReadUnlock_accounting {s : RwLock T} (h : Accounting s) {t : T} {e : Service}
    (hpc : s.pc t = .unlock e) (he : e.isWrite = false) : Accounting (rwReadUnlock s t) := by
  have hcr := countAt_update Pc.readingB s.pc t .fetch
  have hcw := countAt_update Pc.writingB s.pc t .fetch
  have hcl := countAt_update Pc.writeLoopB s.pc t .fetch
  simp only [hpc, Pc.readingB, Pc.writingB, Pc.writeLoopB, he, Bool.not_false,
    Bool.toNat_false, Bool.toNat_true] at hcr hcw hcl
  obtain ⟨h1, h2, h3, h4, h5⟩ := h
  constructor <;> simp only [rwReadUnlock] <;> omega

/-- The loop of `rw_write_lock`, entered with the writer counted as waiting. -/
theorem rwWriteLockLoop_accounting {s : RwLock T} {t : T} {e : Service}
    (he : e.isWrite = true) (hr : (s.pc t).readingB = false) (hw : (s.pc t).writingB = false)
    (h1 : s.readersActive = countAt Pc.readingB s.pc)
    (h2 : s.writerActive = countAt Pc.writingB s.pc)
    (h3 : s.writersWaiting = countAt Pc.writeLoopB s.pc + 1 - (s.pc t).writeLoopB.toNat)
    (h4 : s.writerActive ≤ 1) (h5 : s.writerActive = 1 → s.readersActive = 0) :
    Accounting (rwWriteLockLoop s t e) := by
  unfold rwWriteLockLoop
  split
  · have hcr := countAt_update Pc.readingB s.pc t (.waiting e)
    have hcw := countAt_update Pc.writingB s.pc t (.waiting e)
    have hcl := countAt_update Pc.writeLoopB s.pc t (.waiting e)
    rw [hr] at hcr
    rw [hw] at hcw
    simp only [Pc.readingB, Pc.writingB, Bool.toNat_false] at hcr hcw
    rw [show (Pc.waiting e).writeLoopB = true from he, Bool.toNat_true] at hcl
    constructor <;> simp only <;> omega
  · rename_i hfree
    have hcr := countAt_update Pc.readingB s.pc t (.running e)
    have hcw := countAt_update Pc.writingB s.pc t (.running e)
    have hcl := countAt_update Pc.writeLoopB s.pc t (.running e)
    rw [hr, show (Pc.running e).readingB = false by simp [Pc.readingB, he]] at hcr
    rw [hw, show (Pc.running e).writingB = true from he] at hcw
    rw [show (Pc.running e).writeLoopB = false from rfl] at hcl
    simp only [Bool.toNat_false, Bool.toNat_true] at hcr hcw hcl
    constructor <;> simp only <;> omega

theorem rwWriteUnlock_accounting {s : RwLock T} (h : Accounting s) {t : T} {e : Service}
    (hpc : s.pc t = .unlock e) (he : e.isWrite = true) : Accounting (rwWriteUnlock s t) := by
  have hcr := countAt_update Pc.readingB s.pc t .fetch
  have hcw := countAt_update Pc.writingB s.pc t .fetch
  have hcl := countAt_update Pc.writeLoopB s.pc t .fetch
  simp only [hpc, Pc.readingB, Pc.writingB, Pc.writeLoopB, he, Bool.not_true,
    Bool.toNat_false, Bool.toNat_true] at hcr hcw hcl
  obtain ⟨h1, h2, h3, h4, h5⟩ := h
  constructor <;> simp only [rwWriteUnlock] <;> omega

theorem monitorBody_accounting {s s' : RwLock T} (h : Accounting s) {t : T}
    (hs : monitorBody s t = some s') : Accounting s' := by
  unfold monitorBody at hs
  cases hpc : s.pc t with
  | fetch => simp [hpc] at hs
  | running e => simp [hpc] at hs
  | lock e =>
      simp only [hpc, Option.some.injEq] at hs
      subst hs
      split
      · rename_i he
        -- the writer has just counted itself, and stands outside the loop
        refine rwWriteLockLoop_accounting he ?_ ?_ h.readers h.writers ?_ h.one h.alone
        · simp [hpc, Pc.readingB]
        · simp [hpc, Pc.writingB]
        · simp [hpc, Pc.writeLoopB, h.waiting]
      · rename_i he
        exact rwReadLock_accounting h (Or.inl hpc) (by simpa using he)
  | waiting e =>
      simp only [hpc, Option.some.injEq] at hs
      subst hs
      split
      · rename_i he
        refine rwWriteLockLoop_accounting he ?_ ?_ h.readers h.writers ?_ h.one h.alone
        · simp [hpc, Pc.readingB]
        · simp [hpc, Pc.writingB]
        · simp [hpc, Pc.writeLoopB, h.waiting, he]
      · rename_i he
        exact rwReadLock_accounting h (Or.inr hpc) (by simpa using he)
  | unlock e =>
      simp only [hpc, Option.some.injEq] at hs
      subst hs
      split
      · rename_i he
        exact rwWriteUnlock_accounting h hpc he
      · rename_i he
        exact rwReadUnlock_accounting h hpc (by simpa using he)

/-- Every step of the consumer threads keeps the accounting. -/
theorem rwStep_accounting {s s' : RwLock T} {a : RwAct T} (h : Accounting s)
    (hs : rwStep s a = some s') : Accounting s' := by
  cases a with
  | request t type =>
      simp only [rwStep] at hs
      split at hs
      · rename_i e hpc _
        simp only [Option.some.injEq] at hs
        subst hs
        exact enterRw_accounting h (by simp [hpc, Pc.readingB]) (by simp [hpc, Pc.writingB])
          (by simp [hpc, Pc.writeLoopB])
      · simp only [Option.some.injEq] at hs
        subst hs
        exact h
      · simp at hs
  | body =>
      simp only [rwStep] at hs
      split at hs
      · exact monitorBody_accounting h hs
      · simp at hs
  | finish t =>
      simp only [rwStep] at hs
      split at hs
      · rename_i e hpc
        simp only [Option.some.injEq] at hs
        subst hs
        exact enterRw_accounting h (by simp [hpc, Pc.readingB]) (by simp [hpc, Pc.writingB])
          (by simp [hpc, Pc.writeLoopB])
      · simp at hs

theorem accounting_of_reaches {s : RwLock T} (h : Reaches rwStep RwLock.init s) :
    Accounting s := by
  obtain ⟨tr, htr⟩ := h
  exact htr.invariant Accounting Accounting.init fun _ _ _ => rwStep_accounting

/-! ### Exclusion -/

/-- A thread that runs a write handler is the only one that runs a handler. -/
theorem Accounting.write_alone {s : RwLock T} (h : Accounting s) {t u : T} {e f : Service}
    (ht : s.pc t = .running e) (he : e.isWrite = true) (hu : s.pc u = .running f) : u = t := by
  by_contra hne
  have hw : Pc.writingB (s.pc t) = true := by rw [ht]; exact he
  have hpos := countAt_pos (f := s.pc) hw
  have h1 := h.one
  have h2 := h.writers
  cases hf : f.isWrite with
  | true =>
      have hwu : Pc.writingB (s.pc u) = true := by rw [hu]; exact hf
      have htwo := two_le_countAt (f := s.pc) hne hwu hw
      omega
  | false =>
      have hru : Pc.readingB (s.pc u) = true := by rw [hu]; simp [Pc.readingB, hf]
      have hrpos := countAt_pos (f := s.pc) hru
      have h3 := h.readers
      have h5 := h.alone (by omega)
      omega

/--
**Readers-writers exclusion and accounting.**  In every reachable state the three
counters are the numbers of threads at the program points they stand for, the
writer is alone, and a write handler overlaps no other handler of the table.
-/
theorem rwlock_accounting {s : RwLock T} (h : Reaches rwStep RwLock.init s) :
    (s.writerActive = 0 ∨ s.writerActive = 1) ∧
    s.writerActive = countAt Pc.writingB s.pc ∧
    0 ≤ s.readersActive ∧
    s.readersActive = countAt Pc.readingB s.pc ∧
    s.writersWaiting = countAt Pc.writeLoopB s.pc ∧
    (s.writerActive = 1 → s.readersActive = 0) ∧
    (∀ (t u : T) (e f : Service), s.pc t = .running e → e.isWrite = true →
      s.pc u = .running f → u = t) := by
  have hacc := accounting_of_reaches h
  refine ⟨?_, hacc.writers, hacc.readers_nonneg, hacc.readers, hacc.waiting, hacc.alone, ?_⟩
  · have h0 := hacc.writers_nonneg
    have h1 := hacc.one
    omega
  · intro t u e f ht he hu
    exact hacc.write_alone ht he hu

/-- One of two threads is in its write handler. -/
theorem rwlock_accounting_writer_runs :
    ∃ s : RwLock (Fin 2), runActs rwStep RwLock.init [.request 0 4, .body] = some s ∧
      s.writerActive = 1 ∧ countAt Pc.writingB s.pc = 1 := by
  refine ⟨_, rfl, rfl, ?_⟩
  have h := (rwlock_accounting (T := Fin 2)
    (reaches_runActs [.request 0 4, .body] rfl)).2.1
  exact (Int.ofNat.inj h).symm

end Sthreads.Server
