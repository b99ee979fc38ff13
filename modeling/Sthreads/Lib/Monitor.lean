/-
Mesa monitors with first-come first-served queues.

A monitor has at most one owner, an entry queue of threads that wait for the
ownership, and a queue of threads that called `wait`.  A `signal` does not hand
the ownership over: it moves the oldest waiter to the end of the entry queue, and
the waiter runs again only when its turn comes there.

The operations are total functions on the three fields.  What a client proves
about its monitor is stated with `present`, the threads that own the monitor or
stand in its entry queue: these are the threads that will run the monitor next
without anybody signalling anything.
-/
import Mathlib.Data.List.Basic

namespace Sthreads

/-- The three fields of a monitor over threads `T`. -/
structure Monitor (T : Type) where
  owner : Option T
  entry : List T
  waiting : List T

namespace Monitor

variable {T : Type}

/-- A monitor nobody has entered. -/
def empty : Monitor T := ⟨none, [], []⟩

/-- Take the monitor if it is free, queue for it otherwise. -/
def enter (m : Monitor T) (t : T) : Monitor T :=
  match m.owner with
  | none => { m with owner := some t }
  | some _ => { m with entry := m.entry ++ [t] }

/-- Give the monitor to the oldest thread of the entry queue. -/
def exit (m : Monitor T) : Monitor T :=
  match m.entry with
  | [] => { m with owner := none }
  | u :: rest => { m with owner := some u, entry := rest }

/-- Queue as a waiter and give the monitor up. -/
def wait (m : Monitor T) (t : T) : Monitor T := exit { m with waiting := m.waiting ++ [t] }

/-- Move the oldest waiter to the end of the entry queue. -/
def signal (m : Monitor T) : Monitor T :=
  match m.waiting with
  | [] => m
  | u :: rest => { m with entry := m.entry ++ [u], waiting := rest }

/-- The threads that own the monitor or stand in its entry queue. -/
def present (m : Monitor T) : List T := m.owner.toList ++ m.entry

/-- A free monitor has nobody in its entry queue. -/
def WF (m : Monitor T) : Prop := m.owner = none → m.entry = []

/-! ### What each operation does to the three lists -/

@[simp] theorem enter_waiting (m : Monitor T) (t : T) : (m.enter t).waiting = m.waiting := by
  unfold enter
  split <;> rfl

@[simp] theorem exit_waiting (m : Monitor T) : m.exit.waiting = m.waiting := by
  unfold exit
  split <;> rfl

@[simp] theorem wait_waiting (m : Monitor T) (t : T) :
    (m.wait t).waiting = m.waiting ++ [t] := by
  unfold wait
  rw [exit_waiting]

@[simp] theorem signal_owner (m : Monitor T) : m.signal.owner = m.owner := by
  unfold signal
  split <;> rfl

/-- A newcomer ends up behind everybody who was present. -/
theorem enter_present {m : Monitor T} (h : m.WF) (t : T) :
    (m.enter t).present = m.present ++ [t] := by
  unfold enter present
  cases ho : m.owner with
  | none => simp [h ho]
  | some u => simp

/-- The owner leaves, everybody else present stays in order. -/
theorem exit_present {m : Monitor T} {t : T} (h : m.owner = some t) :
    m.present = t :: m.exit.present := by
  unfold exit present
  cases he : m.entry with
  | nil => simp [h]
  | cons u rest => simp [h]

theorem wait_present {m : Monitor T} {t : T} (h : m.owner = some t) :
    m.present = t :: (m.wait t).present := by
  have := exit_present (m := { m with waiting := m.waiting ++ [t] }) h
  simpa [wait, present] using this

/-- A signal appends the oldest waiter, if there is one, to those present. -/
theorem signal_present (m : Monitor T) :
    m.signal.present = m.present ++ m.waiting.take 1 := by
  unfold signal present
  cases hw : m.waiting with
  | nil => simp
  | cons u rest => simp

theorem signal_waiting (m : Monitor T) : m.signal.waiting = m.waiting.drop 1 := by
  unfold signal
  cases hw : m.waiting with
  | nil => simp [hw]
  | cons u rest => simp

/-! ### The operations keep a free monitor's entry queue empty -/

theorem WF.empty : (Monitor.empty : Monitor T).WF := fun _ => rfl

theorem WF.enter {m : Monitor T} (_ : m.WF) (t : T) : (m.enter t).WF := by
  unfold Monitor.enter
  cases m.owner with
  | none => intro h; simp at h
  | some u => intro h; simp at h

theorem WF.exit (m : Monitor T) : m.exit.WF := by
  unfold Monitor.exit
  cases he : m.entry with
  | nil => intro _; rfl
  | cons u rest => intro h; simp at h

theorem WF.wait (m : Monitor T) (t : T) : (m.wait t).WF := WF.exit _

/-- Nobody present means free with an empty entry queue. -/
theorem present_eq_nil {m : Monitor T} :
    m.present = [] ↔ m.owner = none ∧ m.entry = [] := by
  unfold present
  cases m.owner <;> simp

/-! ### Who is somewhere in the monitor -/

/-- Exactly the threads in `inside` are in the monitor, each of them in one place. -/
structure Holds (m : Monitor T) (inside : T → Prop) : Prop where
  wf : m.WF
  nodup : (m.present ++ m.waiting).Nodup
  mem : ∀ t, t ∈ m.present ++ m.waiting ↔ inside t

namespace Holds

variable {m : Monitor T} {inside : T → Prop} {t : T}

theorem empty : (Monitor.empty : Monitor T).Holds fun _ => False where
  wf := WF.empty
  nodup := List.nodup_nil
  mem _ := by simp [Monitor.empty, present]

theorem enter (h : m.Holds inside) (ht : ¬ inside t) :
    (m.enter t).Holds fun u => u = t ∨ inside u := by
  have hout : t ∉ m.present ++ m.waiting := fun hm => ht ((h.mem t).mp hm)
  have hperm : ((m.enter t).present ++ (m.enter t).waiting).Perm
      (t :: (m.present ++ m.waiting)) := by
    rw [enter_present h.wf, enter_waiting, List.append_assoc]
    exact List.perm_middle
  refine ⟨h.wf.enter t, hperm.nodup_iff.mpr (List.nodup_cons.mpr ⟨hout, h.nodup⟩), fun u => ?_⟩
  rw [hperm.mem_iff, List.mem_cons, h.mem]

theorem wait (h : m.Holds inside) (ho : m.owner = some t) : (m.wait t).Holds inside := by
  have hperm : ((m.wait t).present ++ (m.wait t).waiting).Perm (m.present ++ m.waiting) := by
    rw [wait_waiting, wait_present ho, ← List.append_assoc]
    exact List.perm_append_singleton _ _
  exact ⟨WF.wait m t, hperm.nodup_iff.mpr h.nodup, fun u => by rw [hperm.mem_iff, h.mem]⟩

/-- A signal only moves a thread from one queue to the other. -/
theorem signal (h : m.Holds inside) (ho : m.owner = some t) : m.signal.Holds inside := by
  have heq : m.signal.present ++ m.signal.waiting = m.present ++ m.waiting := by
    rw [signal_present, signal_waiting, List.append_assoc, List.take_append_drop]
  refine ⟨fun hn => ?_, heq ▸ h.nodup, fun u => by rw [heq, h.mem]⟩
  rw [signal_owner, ho] at hn
  cases hn

theorem exit (h : m.Holds inside) (ho : m.owner = some t) :
    m.exit.Holds fun u => inside u ∧ u ≠ t := by
  have heq : m.present ++ m.waiting = t :: (m.exit.present ++ m.exit.waiting) := by
    rw [exit_present ho, exit_waiting, List.cons_append]
  have hnd := h.nodup
  rw [heq, List.nodup_cons] at hnd
  refine ⟨WF.exit m, hnd.2, fun u => ?_⟩
  rw [← h.mem u, heq, List.mem_cons]
  constructor
  · intro hu
    exact ⟨Or.inr hu, fun he => hnd.1 (he ▸ hu)⟩
  · rintro ⟨rfl | hu, hne⟩
    · exact absurd rfl hne
    · exact hu

theorem congr {inside' : T → Prop} (h : m.Holds inside) (heq : ∀ u, inside' u ↔ inside u) :
    m.Holds inside' :=
  ⟨h.wf, h.nodup, fun u => by rw [heq u, h.mem]⟩

end Holds

end Monitor

end Sthreads
