/-
A monitor under the operations on it.

An operation may bring a thread to the end of the entry queue, and may give the monitor to a
thread.  Those who have been given the monitor, followed by those who stand in the entry queue,
are those who have asked for it, in the order in which they asked.  The same holds of those who
have been woken and those who still wait.
-/
import Sthreads.Lib.Monitor

namespace Sthreads.Monitor

variable {T : Type}

/-- An operation; all but `enter` are the owner's. -/
inductive Op (T : Type)
  | enter (t : T)
  | exit
  | wait (t : T)
  | signal
  deriving DecidableEq

/-- The monitor after an operation. -/
def apply (m : Monitor T) : Op T → Monitor T
  | .enter t => m.enter t
  | .exit => m.exit
  | .wait t => m.wait t
  | .signal => m.signal

/-- Who asks for the monitor by the operation. -/
def asks (m : Monitor T) : Op T → List T
  | .enter t => [t]
  | .signal => m.waiting.take 1
  | _ => []

/-- Who is given the monitor by the operation. -/
def grants (m : Monitor T) : Op T → List T
  | .enter t => if m.owner.isSome then [] else [t]
  | .signal => []
  | _ => m.entry.take 1

/-- Who starts to wait. -/
def waits : Op T → List T
  | .wait t => [t]
  | _ => []

/-- Who is woken. -/
def wakes (m : Monitor T) : Op T → List T
  | .signal => m.waiting.take 1
  | _ => []

theorem exit_eq (m : Monitor T) : m.exit = ⟨m.entry.head?, m.entry.tail, m.waiting⟩ := by
  unfold exit
  cases m.entry <;> rfl

/-- The monitor goes to those who asked for it, in the order in which they asked. -/
theorem grants_append {m : Monitor T} (h : m.WF) (o : Op T) :
    m.grants o ++ (m.apply o).entry = m.entry ++ m.asks o := by
  have hexit : m.entry.take 1 ++ m.entry.tail = m.entry := by
    rw [← List.drop_one, List.take_append_drop]
  cases o with
  | enter t =>
      show _ ++ (m.enter t).entry = m.entry ++ [t]
      cases ho : m.owner with
      | none => simp [grants, enter, ho, h ho]
      | some u => simp [grants, enter, ho]
  | exit => simpa [grants, apply, asks, exit_eq] using hexit
  | wait t => simpa [grants, apply, asks, wait, exit_eq] using hexit
  | signal =>
      show [] ++ m.signal.entry = m.entry ++ m.waiting.take 1
      cases hw : m.waiting <;> simp [signal, hw]

/-- The waiters are woken in the order in which they came. -/
theorem wakes_append (m : Monitor T) (o : Op T) :
    m.wakes o ++ (m.apply o).waiting = m.waiting ++ waits o := by
  cases o with
  | signal =>
      show m.waiting.take 1 ++ m.signal.waiting = m.waiting ++ []
      rw [signal_waiting, List.take_append_drop, List.append_nil]
  | _ => simp [wakes, waits, apply]

end Sthreads.Monitor
