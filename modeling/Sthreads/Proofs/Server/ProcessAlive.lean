/-
The threads of the server never get stuck one by one, and stop only together.

A server thread that runs user code has a next statement, which follows no null pointer and no
freed descriptor.  When the library finds no thread to switch to, every server thread waits for a
monitor.  It can come to this: the one signal at the end of a writer may go to a reader that waits
again.
-/
import Sthreads.Proofs.Server.ProcessRuns
import Sthreads.Proofs.Server.ProcessStatements

namespace Sthreads.Server

open User
open Snfs (Fs)

variable {C : Type} {s s' : Process C} {t : Tid} {l : Line C} {i : Input C}

/-! ### The invariant -/

/-- The server threads are at lines of their functions and at switch points of these, and no thread
that is ready is left without the processor. -/
structure Process.Alive (s : Process C) : Prop where
  fits : ∀ t, (s.line t).Fits
  within : ∀ t, (s.line t).isServer = true → (s.sched.point t).Within (s.line t).place
  parked : Parked s.sched
  ready : ReadyRuns s.sched

namespace Process.Alive

theorem init (fs : Fs) : (Process.init fs : Process C).Alive where
  fits t := by
    by_cases ht : t = 1
    · simp [Process.init, ht, Line.Fits]
    · simp [Process.init, ht, Line.Fits]
  within t hserver := by
    by_cases ht : t = 1
    · simp [Process.init, ht, Line.isServer] at hserver
    · simp [Process.init, ht, Line.isServer] at hserver
  parked := Parked.init
  ready hnone := by cases hnone

/-- The running thread executes a statement of a server thread. -/
theorem executes (h : s.Alive) (hinv : s.sched.Inv) (hr : Runs s t) (hex : Executes s t l s') :
    s'.Alive := by
  have hself : s'.line t = l := by rw [hex.line, Function.update_self]
  have hold : ∀ u, u ≠ t → s'.line u = s.line u := by
    intro u hu
    rw [hex.line, Function.update_of_ne hu]
  refine ⟨?_, ?_, ?_, ?_⟩
  · intro u
    by_cases hu : u = t
    · rw [hu, hself]
      exact hex.fits
    · rw [hold u hu]
      exact h.fits u
  · intro u hserver
    by_cases hu : u = t
    · rw [hu, hself]
      rcases hex.sched with hsched | ⟨c, hc, hstep⟩
      · rw [hsched, hr.user]
        exact .user _
      · exact within_call hinv hr.user hc (step_call hr.active hstep).2
    · rw [hold u hu] at hserver ⊢
      rcases hex.sched with hsched | ⟨c, hc, hstep⟩
      · rw [hsched]
        exact h.within u hserver
      · rw [point_other hinv hstep hr.active hu]
        exact h.within u hserver
  · rcases hex.sched with hsched | ⟨c, -, hstep⟩
    · rw [hsched]
      exact h.parked
    · exact h.parked.step hinv hstep
  · rcases hex.sched with hsched | ⟨c, -, hstep⟩
    · rw [hsched]
      exact h.ready
    · exact readyRuns_step hinv hstep

/-- `main` executes a call, and may create a thread with it. -/
theorem main {c : Sched.Call} (h : s.Alive) (hinv : s.sched.Inv) (hr : Runs s t)
    (hstep : s.sched.step (.call c) = some s'.sched)
    (hself : (s'.line t).isServer = false) (hfits : ∀ u, (s'.line u).Fits)
    (hold : ∀ u, u ≠ t → s'.line u = s.line u ∨ s.sched.point u = .start) : s'.Alive := by
  refine ⟨hfits, ?_, h.parked.step hinv hstep, readyRuns_step hinv hstep⟩
  intro u hserver
  have hu : u ≠ t := by
    intro hu
    subst hu
    rw [hself] at hserver
    cases hserver
  rw [point_other hinv hstep hr.active hu]
  rcases hold u hu with hline | hstart
  · rw [hline] at hserver ⊢
    exact h.within u hserver
  · rw [hstart]
    exact .start _

/-- `main` creates the next thread. -/
theorem create {l' : Line C} (h : s.Alive) (hth : Threads s) (hr : Runs s t)
    (ht : s.line t ≠ .unborn)
    (hs : ((s.call t (.create 7) l).map fun s₁ => s₁.goto s.sched.tidGen l') = some s')
    (hl : l.isServer = false) (hfits : l.Fits) (hfits' : l'.Fits) : s'.Alive := by
  obtain ⟨s₁, hcall, rfl⟩ := Option.map_eq_some_iff.mp hs
  obtain ⟨sched, hstep, rfl⟩ := Process.call_eq_some hcall
  have hne : t ≠ s.sched.tidGen := by
    intro he
    exact ht (hth.unborn t (Nat.le_of_eq he.symm))
  apply h.main hth.inv hr hstep
  · show (Function.update (Function.update s.line t l) s.sched.tidGen l' t).isServer = false
    rw [Function.update_of_ne hne, Function.update_self]
    exact hl
  · intro u
    show (Function.update (Function.update s.line t l) s.sched.tidGen l' u).Fits
    by_cases hu : u = s.sched.tidGen
    · rw [hu, Function.update_self]
      exact hfits'
    · rw [Function.update_of_ne hu]
      by_cases hut : u = t
      · rw [hut, Function.update_self]
        exact hfits
      · rw [Function.update_of_ne hut]
        exact h.fits u
  · intro u hut
    by_cases hu : u = s.sched.tidGen
    · right
      rw [hu]
      exact hth.inv.ok.placed.fresh _ (Nat.le_refl _)
    · left
      show Function.update (Function.update s.line t l) s.sched.tidGen l' u = s.line u
      rw [Function.update_of_ne hu, Function.update_of_ne hut]

theorem statement (h : s.Alive) (hth : Threads s) (hr : Runs s t)
    (hs : s.statement t i = some s') : s'.Alive := by
  unfold Process.statement at hs
  cases hl : s.line t with
  | unborn => simp [hl] at hs
  | main threads =>
      simp only [hl, Process.main] at hs
      split at hs
      · exact h.create hth hr (by simp [hl]) hs rfl trivial trivial
      · exact h.create hth hr (by simp [hl]) hs rfl trivial trivial
  | join threads =>
      cases threads with
      | nil => simp [hl] at hs
      | cons u threads =>
          simp only [hl] at hs
          obtain ⟨sched, hstep, rfl⟩ := Process.call_eq_some hs
          have hself : Function.update s.line t (.join threads) t = .join threads :=
            Function.update_self ..
          apply h.main hth.inv hr hstep
          · show (Function.update s.line t (.join threads) t).isServer = false
            rw [hself]
            rfl
          · intro u
            show (Function.update s.line t (.join threads) u).Fits
            by_cases hu : u = t
            · rw [hu, hself]
              trivial
            · rw [Function.update_of_ne hu]
              exact h.fits u
          · intro u hu
            left
            show Function.update s.line t (.join threads) u = s.line u
            rw [Function.update_of_ne hu]
  | consumer k c =>
      simp only [hl] at hs
      obtain ⟨l, hex⟩ := Executes.threadConsumer hl (h.fits t) hs
      exact h.executes hth.inv hr hex
  | producer c =>
      simp only [hl] at hs
      obtain ⟨l, hex⟩ := Executes.threadProducer hs
      exact h.executes hth.inv hr hex

/-- A step of the scheduler that is no call. -/
theorem sched {a : Sched.Act} {sched : Sched} (h : s.Alive) (hinv : s.sched.Inv)
    (hs : s.sched.step a = some sched)
    (hself : ∀ t, s.sched.activeThr = some t → (s.sched.point t).Within (s.line t).place →
      (sched.point t).Within (s.line t).place) : Process.Alive { s with sched := sched } := by
  obtain ⟨t, ht, -⟩ := Sched.step_refines hinv hs
  refine ⟨h.fits, ?_, h.parked.step hinv hs, readyRuns_step hinv hs⟩
  intro u hserver
  have hu : (s.sched.point u).Within (s.line u).place := h.within u hserver
  by_cases hut : u = t
  · subst hut
    exact hself u ht hu
  · show (sched.point u).Within _
    rw [point_other hinv hs ht hut]
    exact hu

theorem step {a : Process.Act C} (h : s.Alive) (hth : Threads s) (hs : s.step a = some s') :
    s'.Alive := by
  unfold Process.step at hs
  split at hs
  · cases hs
  · cases a with
    | run i =>
        dsimp only at hs
        split at hs
        · cases hs
        · rename_i t ht
          split at hs
          · rename_i hu
            exact h.statement hth ⟨ht, hu⟩ hs
          · cases hs
    | tick =>
        obtain ⟨sched, hsched, rfl⟩ := Option.map_eq_some_iff.mp hs
        exact h.sched hth.inv hsched fun t ht _ => within_tick hth.inv ht hsched _
    | resume =>
        obtain ⟨sched, hsched, rfl⟩ := Option.map_eq_some_iff.mp hs
        exact h.sched hth.inv hsched fun t ht hx => within_resume ht hsched hx

theorem of_reaches {fs₀ : Fs} (h : Reaches Process.step (.init fs₀) s) : s.Alive := by
  obtain ⟨tr, htr⟩ := h
  induction htr with
  | nil => exact .init fs₀
  | snoc htr hs ih =>
      obtain ⟨y, hmatches, -⟩ := Process.reaches_model ⟨_, htr⟩
      exact ih.step hmatches.threads hs

end Process.Alive

/-! ### Every run -/

/-- In every state that the process reaches and in which it has not ended, a consumer or the
producer that runs user code executes its next statement: it reads through no null pointer and no
freed descriptor, and no call of the library fails. -/
theorem process_goes_on {fs₀ : Fs} (h : Reaches Process.step (.init fs₀) s)
    (hend : s.ended = none) (hrun : Runs s t)
    (hserver : (s.line t).isServer = true) : ∃ i s', s.step (.run i) = some s' := by
  obtain ⟨y, hmatches, horder, -⟩ := Process.reaches_model h
  have hfits : ∀ t, (s.line t).Fits := (Process.Alive.of_reaches h).fits
  have hstep : ∀ i, s.step (.run i) = s.statement t i := by
    intro i
    simp [Process.step, hend, hrun.active, hrun.user]
  cases hl : s.line t with
  | consumer k c =>
      obtain rfl := hmatches.threads.consumer t k c hl
      have hgoes : ∃ i s', s.threadConsumer (tidOf k) k i c = some s' := by
        apply threadConsumer_isSome hmatches.threads.inv hrun
        intro reqD w hc
        subst hc
        have hline := hfits (tidOf k)
        rw [hl] at hline
        have hpc : y.ring.consumer k = .serving reqD := by
          rw [hmatches.ring.consumer, hl]
          rfl
        -- the history of the consumer says which descriptor it holds
        have hist := horder.history k
        rw [hpc] at hist
        obtain ⟨ts, p, d, rfl, hd, -⟩ := hist
        refine ⟨hline, p, d, rfl, ?_⟩
        have hlive : y.ring.buffer.heap p ≠ none := by
          show y.ring.heap p ≠ none
          rw [hd]
          simp
        rw [hmatches.ring.buffer, Line.written_heap _ hmatches.ring.ready hlive]
        exact hd
      obtain ⟨i, s', hs⟩ := hgoes
      refine ⟨i, s', ?_⟩
      rw [hstep, Process.statement, hl]
      exact hs
  | producer c =>
      obtain ⟨s', hs⟩ := threadProducer_isSome hmatches.threads.inv hrun c
      refine ⟨.again, s', ?_⟩
      rw [hstep, Process.statement, hl]
      exact hs
  | _ =>
      rw [hl] at hserver
      cases hserver

/-- A consumer that has fetched a `REQ_PING` goes on with it. -/
theorem process_goes_on_ping :
    ∃ s : Process Nat, s.gets.length = 1 ∧ ∃ i s', s.step (.run i) = some s' := by
  obtain ⟨fs, -, hfacts⟩ := Snfs.on_started 12 (fun i => 7 * i)
    (fun fs => (runTrace Process.step (.init fs)
      (Process.oneRequest ⟨⟨1, 7, fun _ => 0⟩, 40, 264⟩ 5)).map
        fun r : List (Process Nat × Process.Act Nat) × Process Nat =>
          (r.2.gets.length, decide (r.2.ended.isNone ∧ r.2.sched.activeThr = some 2 ∧
            r.2.sched.point 2 = .user ∧ (r.2.line 2).isServer)))
    (x := some (1, true)) (by decide +kernel)
  obtain ⟨⟨tr, s⟩, htr, hobs⟩ := Option.map_eq_some_iff.mp hfacts
  obtain ⟨hlen, hfacts⟩ := Prod.mk.inj hobs
  obtain ⟨hend, hactive, huser, hserver⟩ := of_decide_eq_true hfacts
  exact ⟨s, hlen, process_goes_on ⟨tr, run_of_runTrace _ .nil htr⟩
    (Option.isNone_iff_eq_none.mp hend) ⟨hactive, huser⟩ hserver⟩

end Sthreads.Server
