/-
When interrupts are on in user code.

The interrupt level belongs to the processor.  A thread that comes back from a call
that gave the processor up sets it low itself; one that was preempted, by a tick or in
`sthread_user_mutex_unlock`, goes on in user code with whatever level it finds.  It
finds the level high when the thread before it gave the processor up in a call, since
these calls set the level high and leave it to the thread that is resumed to set it
low.  `interrupts_on_iff` says that this is the only way.
-/
import Sthreads.Proofs.User.NextThread

namespace Sthreads.User

open Sched

/-- The running thread, if it is in user code, runs with interrupts on. -/
def InterruptsOn (s : Sched) : Prop :=
  ∀ t, s.activeThr = some t → s.point t = .user → s.level = .low

/-- Interrupts are on in user code, and still are when the dispatched thread has gone on. -/
def InterruptsStayOn (s : Sched) : Prop :=
  InterruptsOn s ∧ ∀ s', step s .resume = some s' → InterruptsOn s'

/-- A step that gives the processor up in a call gives it to no thread that was preempted. -/
def NotToPreempted (s : Sched) (a : Act) : Prop :=
  ∀ t, s.activeThr = some t → blocks s t a = true →
    ∀ u ∈ (pool s t a).head?, s.point u ≠ .tick ∧ s.point u ≠ .unlock

/-- The threads that are in user code, or have only returns between them and it. -/
def Point.toUser : Point → Bool
  | .user | .tick | .unlock => true
  | _ => false

/-- The level is low when the running thread reaches user code without setting it. -/
def LowToUser (s : Sched) : Prop :=
  ∀ t, s.activeThr = some t → (s.point t).toUser = true → s.level = .low

variable {s s' : Sched} {t : Tid} {a : Act}

theorem Point.toUser_iff {p : Point} :
    p.toUser = true ↔ p = .user ∨ p = .tick ∨ p = .unlock := by
  cases p <;> simp [Point.toUser]

/-- After a step that blocks, whoever is not at the switch point of the caller is where it was,
and not in user code. -/
theorem Blocked.point_of_toUser (hi : s.Inv) (ht : s.activeThr = some t)
    (h : Blocked s t a s') {u : Tid} (hp : (s'.point u).toUser = true) :
    s'.point u = s.point u ∧ (s.point u = .tick ∨ s.point u = .unlock) := by
  obtain ⟨p, hpt, hpu, hptick, hpunlock⟩ := h.point
  by_cases hut : u = t
  · rw [hpt, hut, Function.update_self, Point.toUser_iff] at hp
    rcases hp with hc | hc | hc
    · exact absurd hc hpu
    · exact absurd hc hptick
    · exact absurd hc hpunlock
  · have hsame : s'.point u = s.point u := by rw [hpt, Function.update_of_ne hut]
    refine ⟨hsame, ?_⟩
    rw [hsame, Point.toUser_iff] at hp
    refine hp.resolve_left fun hc => hut ?_
    have := hi.ok.user u hc
    rw [show s.places.run = s.activeThr from rfl, ht, Option.some.injEq] at this
    exact this.symm

/-- A step that does not block leaves the level low if its thread found it low. -/
theorem Runs.low (hl : LowToUser s) (ht : s.activeThr = some t) (h : Runs s t s') :
    s'.level = .low := by
  rcases h.level with hlow | ⟨hsame, hp⟩
  · exact hlow
  · rw [hsame]
    exact hl t ht (Point.toUser_iff.mpr hp)

theorem LowToUser.interruptsStayOn (hi : s.Inv) (h : LowToUser s) : InterruptsStayOn s := by
  refine ⟨fun t ht hu => h t ht (by rw [hu]; rfl), fun s' hs u hu hpu => ?_⟩
  obtain ⟨t, ht, -⟩ := step_refines hi hs
  cases hb : blocks s t .resume with
  | true =>
      have hto := (step_blocks hi ht hb hs).point_of_toUser hi ht (Point.toUser_iff.mpr (Or.inl hpu))
      rw [← hto.1, hpu] at hto
      simp at hto
  | false => exact (step_runs hi ht hb hs).low h ht

theorem lowToUser_step (hi : s.Inv) (h : LowToUser s) (hok : NotToPreempted s a)
    (hs : step s a = some s') : LowToUser s' := by
  obtain ⟨t, ht, -⟩ := step_refines hi hs
  intro u hu hp
  cases hb : blocks s t a with
  | true =>
      have hblk := step_blocks hi ht hb hs
      have hnot := hok t ht hb u (hblk.activeThr.symm.trans hu)
      rcases (hblk.point_of_toUser hi ht hp).2 with hc | hc
      · exact absurd hc hnot.1
      · exact absurd hc hnot.2
  | false => exact (step_runs hi ht hb hs).low h ht

/-- The caller of a step that blocks was not itself preempted. -/
theorem toUser_of_blocks (ht : s.activeThr = some t) (hb : blocks s t a = true)
    (hs : step s a = some s') : s.point t ≠ .tick ∧ s.point t ≠ .unlock := by
  cases a with
  | call c =>
      rw [(step_call ht hs).1]
      simp
  | tick => cases hb
  | resume =>
      cases hp : s.point t with
      | unlockInWait m => simp
      | _ => simp [blocks, hp] at hb

/-- A preempted thread that a blocking call dispatches goes on in user code with interrupts
off. -/
theorem interrupts_off_of_toPreempted (hi : s.Inv) (hbad : ¬ NotToPreempted s a)
    (hs : step s a = some s') : ¬ InterruptsStayOn s' := by
  unfold NotToPreempted at hbad
  push Not at hbad
  obtain ⟨t, ht, hb, u, hhead, hpoint⟩ := hbad
  have hblk := step_blocks hi ht hb hs
  have hu : s'.activeThr = some u := hblk.activeThr.trans hhead
  have hpre : s.point u = .tick ∨ s.point u = .unlock := or_iff_not_imp_left.mpr hpoint
  have hut : u ≠ t := by
    rintro rfl
    have hne := toUser_of_blocks ht hb hs
    exact hpre.elim hne.1 hne.2
  have hpu : s'.point u = s.point u := by
    obtain ⟨p, hpt, -⟩ := hblk.point
    rw [hpt, Function.update_of_ne hut]
  rintro ⟨-, hres⟩
  have hstep : step s' .resume = some (s'.setPoint u .user) := by
    rcases hpre with hp | hp <;> simp [step, hu, resume, hpu, hp]
  have hlow := hres _ hstep u hu (Function.update_self _ _ _)
  rw [show (s'.setPoint u .user).level = s'.level from rfl, hblk.level] at hlow
  cases hlow

/-- Interrupts are on in user code all along a run if and only if no call of the run that gives
the processor up gives it to a thread that was preempted. -/
theorem interrupts_on_iff {tr : List (Sched × Act)} {s : Sched} (h : Run step userInit tr s) :
    (∀ x ∈ visited tr s, InterruptsStayOn x) ↔ ∀ p ∈ tr, NotToPreempted p.1 p.2 := by
  refine h.visited_iff (fun x => x.Inv ∧ LowToUser x) ⟨Inv.init, fun _ _ _ => rfl⟩
    (fun x hx => hx.2.interruptsStayOn hx.1) ?_ ?_
  · exact fun x a x' hx hok hs => ⟨hx.1.step hs, lowToUser_step hx.1 hx.2 hok hs⟩
  · exact fun x a x' hx hbad hs => interrupts_off_of_toPreempted hx.1 hbad hs

/-- The main thread is preempted when its quantum is used up; the second thread sleeps. -/
def sleepAfterTick : List Act :=
  [.call (.create 7), .tick, .tick, .tick, .tick, .tick, .resume, .call (.sleep 100), .resume]

/-- The main thread is back in user code with interrupts off. -/
theorem interrupts_off_in_user_code : ∃ s, Reaches step userInit s ∧ s.activeThr = some 1 ∧
    s.point 1 = .user ∧ s.level = .high ∧ ¬ InterruptsOn s := by
  have hrun : (runActs step userInit sleepAfterTick).map
      (fun s => (s.activeThr, s.point 1, s.level)) = some (some 1, .user, .high) := by decide
  obtain ⟨s, hs, heq⟩ := Option.map_eq_some_iff.mp hrun
  simp only [Prod.mk.injEq] at heq
  obtain ⟨hrun', hp, hl⟩ := heq
  refine ⟨s, reaches_runActs _ hs, hrun', hp, hl, fun hon => ?_⟩
  rw [hon 1 hrun' hp] at hl
  cases hl

/-- A thread that yields to a new thread leaves interrupts to be set low by it. -/
theorem interrupts_on_iff_yield :
    ∃ tr s, Run step userInit tr s ∧ tr.length = 3 ∧ s.activeThr = some 2 ∧
      ∀ x ∈ visited tr s, InterruptsStayOn x := by
  have hrun := (((Run.nil : Run step userInit [] userInit).snoc (a := .call (.create 3)) rfl).snoc
    (a := .call .yield) rfl).snoc (a := .resume) rfl
  refine ⟨_, _, hrun, rfl, by decide, (interrupts_on_iff hrun).mpr ?_⟩
  simp only [List.nil_append, List.cons_append, List.forall_mem_cons]
  refine ⟨?_, ?_, ?_, by simp⟩
  · intro t ht hb
    cases hb
  · intro t ht hb u hu
    cases ht
    revert u
    decide
  · intro t ht hb
    cases ht
    revert hb
    decide

end Sthreads.User
