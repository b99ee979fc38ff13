/-
A monitor as an atomic model of its critical sections sees it.

A section that is one step of the atomic model takes many steps of the program.  The step is
taken in the model at one moment of the section, and from then on the model sees the monitor
given up, although the thread is still inside: `without` is what it sees.  Other threads enter
meanwhile; that they do so before or after the owner is gone makes no difference.

The two models may name the threads differently, so a monitor is also read through a map.
-/
import Sthreads.Lib.MonitorOps

namespace Sthreads.Monitor

variable {T U : Type} {m : Monitor T} {gone gone' : T → Bool} {t : T}

/-- The monitor with other names. -/
def map (f : T → U) (m : Monitor T) : Monitor U :=
  ⟨m.owner.map f, m.entry.map f, m.waiting.map f⟩

/-- The monitor without its owner, if it counts as gone. -/
def without (gone : T → Bool) (m : Monitor T) : Monitor T :=
  if m.owner.any gone then m.exit else m

/-! ### Other names -/

theorem map_enter (f : T → U) (m : Monitor T) (t : T) :
    (m.enter t).map f = (m.map f).enter (f t) := by
  unfold enter map
  cases m.owner <;> simp

theorem map_exit (f : T → U) (m : Monitor T) : m.exit.map f = (m.map f).exit := by
  simp [exit_eq, map]

theorem map_wait (f : T → U) (m : Monitor T) (t : T) : (m.wait t).map f = (m.map f).wait (f t) := by
  simp [wait, exit_eq, map]

theorem map_signal (f : T → U) (m : Monitor T) : m.signal.map f = (m.map f).signal := by
  unfold signal map
  cases hw : m.waiting <;> simp [hw]

/-! ### The monitor without its owner -/

theorem without_of_gone (ho : m.owner = some t) (hgone : gone t = true) :
    m.without gone = m.exit := by
  simp [without, ho, hgone]

theorem without_of_here (h : ∀ t, m.owner = some t → gone t = false) : m.without gone = m := by
  have hany : m.owner.any gone = false := by
    cases ho : m.owner with
    | none => rfl
    | some t => exact h t ho
  simp [without, hany]

theorem without_congr (h : ∀ t, m.owner = some t → gone' t = gone t) :
    m.without gone' = m.without gone := by
  have hany : m.owner.any gone' = m.owner.any gone := by
    cases ho : m.owner with
    | none => rfl
    | some t => exact h t ho
  rw [without, hany, ← without]

/-- A thread enters an owned monitor before or after the owner leaves it. -/
theorem exit_enter (ho : m.owner = some t) (u : T) : (m.enter u).exit = m.exit.enter u := by
  cases he : m.entry with
  | nil => simp [enter, exit, ho, he]
  | cons v rest => simp [enter, exit, ho, he]

theorem without_enter {u : T} (h : ∀ t, m.owner = some t → gone' t = gone t)
    (hu : m.owner = none → gone' u = false) :
    (m.enter u).without gone' = (m.without gone).enter u := by
  cases ho : m.owner with
  | none =>
      have howner : (m.enter u).owner = some u := by simp [enter, ho]
      rw [without_of_here (m := m) (by simp [ho]), without_of_here]
      intro t ht
      rw [howner] at ht
      exact Option.some.inj ht ▸ hu ho
  | some t =>
      have howner : (m.enter u).owner = some t := by simp [enter, ho]
      by_cases hgone : gone t = true
      · rw [without_of_gone ho hgone, without_of_gone howner ((h t ho).trans hgone),
          exit_enter ho]
      · have hhere : gone t = false := by simpa using hgone
        have hsame : m.without gone = m := by
          apply without_of_here
          intro t' ht'
          rw [ho] at ht'
          exact Option.some.inj ht' ▸ hhere
        rw [hsame, without_of_here]
        intro t' ht'
        rw [howner] at ht'
        rw [← Option.some.inj ht', h t ho, hhere]

/-- Whoever is given the monitor is there. -/
theorem without_exit (h : ∀ u, m.exit.owner = some u → gone' u = false) :
    m.exit.without gone' = m.exit := without_of_here h

theorem without_wait (h : ∀ u, (m.wait t).owner = some u → gone' u = false) :
    (m.wait t).without gone' = m.wait t := without_of_here h

theorem without_signal (ho : m.owner = some t) (hgone : gone' t = true) :
    m.signal.without gone' = m.signal.exit :=
  without_of_gone ((signal_owner m).trans ho) hgone

end Sthreads.Monitor
