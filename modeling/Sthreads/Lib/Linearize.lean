/-
Linearizability.

Processes call operations of a shared object and get results.  A history records the
calls and the returns in the order in which they happen.  It is linearizable when each
call can be given one point, after the call and before its return, such that the results
are those of the operations performed at their points, one after the other.

The points are marks put between the events of the history.  A history with its marks is
built up event by event: `LinearizesTo.call`, `.point` and `.ret` extend it, and a proof
says at which step of the system the point of a call is.
-/
import Mathlib.Logic.Function.Basic

namespace Sthreads

/-- A call by a process, or the return of its last call. -/
inductive CallEvent (P O R : Type)
  | call (p : P) (o : O)
  | ret (p : P) (r : R)

/-- An event, or the point at which a call takes effect. -/
inductive Mark (P O R : Type)
  | event (e : CallEvent P O R)
  | point (p : P) (o : O) (r : R)

/-- What a process is doing. -/
inductive Phase (O R : Type)
  | idle
  | called (o : O)
  | done (r : R)

variable {P O R S : Type}

namespace Mark

/-- The process that a mark belongs to. -/
def proc : Mark P O R → P
  | event (.call p _) => p
  | event (.ret p _) => p
  | point p _ _ => p

/-- The history is what is left without the points. -/
def event? : Mark P O R → Option (CallEvent P O R)
  | event e => some e
  | point .. => none

end Mark

/-- A call, its point, its return. -/
inductive Phase.Next : Phase O R → Mark P O R → Phase O R → Prop
  | call (p : P) (o : O) : Next .idle (.event (.call p o)) (.called o)
  | point (p : P) (o : O) (r : R) : Next (.called o) (.point p o r) (.done r)
  | ret (p : P) (r : R) : Next (.done r) (.event (.ret p r)) .idle

/-- A process has gone from phase to phase, and is in this one. -/
inductive Phase.At (p : P) : List (Mark P O R) → Phase O R → Prop
  | start : At p [] .idle
  | own {ms : List (Mark P O R)} {ph ph' : Phase O R} {m : Mark P O R} (h : At p ms ph)
      (hp : m.proc = p) (hnext : ph.Next m ph') : At p (ms ++ [m]) ph'
  | other {ms : List (Mark P O R)} {ph : Phase O R} {m : Mark P O R} (h : At p ms ph)
      (hp : m.proc ≠ p) : At p (ms ++ [m]) ph

/-- The operations performed at the points, in order, have the results that the points say. -/
inductive Performed (spec : S → O → R → S → Prop) (s₀ : S) : List (Mark P O R) → S → Prop
  | start : Performed spec s₀ [] s₀
  | event {ms : List (Mark P O R)} {s : S} (h : Performed spec s₀ ms s) (e : CallEvent P O R) :
      Performed spec s₀ (ms ++ [.event e]) s
  | point {ms : List (Mark P O R)} {s s' : S} (h : Performed spec s₀ ms s) (p : P) {o : O} {r : R}
      (hspec : spec s o r s') : Performed spec s₀ (ms ++ [.point p o r]) s'

/-- The history has points that leave the processes in these phases and the object in this state. -/
def LinearizesTo (spec : S → O → R → S → Prop) (s₀ : S) (h : List (CallEvent P O R))
    (ph : P → Phase O R) (s : S) : Prop :=
  ∃ ms : List (Mark P O R), ms.filterMap Mark.event? = h ∧ (∀ p, Phase.At p ms (ph p)) ∧
    Performed spec s₀ ms s

/-- The history of an object that does what `spec` says, from `s₀`. -/
def Linearizable (spec : S → O → R → S → Prop) (s₀ : S) (h : List (CallEvent P O R)) : Prop :=
  ∃ ph s, LinearizesTo spec s₀ h ph s

namespace LinearizesTo

variable {spec : S → O → R → S → Prop} {s₀ s s' : S} {h : List (CallEvent P O R)}
  {ph : P → Phase O R}

theorem start : LinearizesTo spec s₀ ([] : List (CallEvent P O R)) (fun _ => .idle) s₀ :=
  ⟨[], rfl, fun _ => .start, .start⟩

variable [DecidableEq P]

/-- A mark of one process moves that process only. -/
theorem at_mark {ms : List (Mark P O R)} (hat : ∀ p, Phase.At p ms (ph p)) (m : Mark P O R)
    {ph' : Phase O R} (hnext : (ph m.proc).Next m ph') (p : P) :
    Phase.At p (ms ++ [m]) (Function.update ph m.proc ph' p) := by
  by_cases hp : p = m.proc
  · subst hp
    rw [Function.update_self]
    exact (hat _).own rfl hnext
  · rw [Function.update_of_ne hp]
    exact (hat p).other (Ne.symm hp)

theorem call (hl : LinearizesTo spec s₀ h ph s) {p : P} (hp : ph p = .idle) (o : O) :
    LinearizesTo spec s₀ (h ++ [.call p o]) (Function.update ph p (.called o)) s := by
  obtain ⟨ms, hms, hat, hperf⟩ := hl
  refine ⟨ms ++ [.event (.call p o)], ?_, ?_, hperf.event _⟩
  · rw [List.filterMap_append, hms]
    rfl
  · have hnext : (ph p).Next (.event (.call p o)) (.called o) := by
      rw [hp]
      exact .call p o
    exact at_mark hat (.event (.call p o)) hnext

/-- The call of `p` takes effect. -/
theorem point (hl : LinearizesTo spec s₀ h ph s) {p : P} {o : O} (hp : ph p = .called o) {r : R}
    (hspec : spec s o r s') : LinearizesTo spec s₀ h (Function.update ph p (.done r)) s' := by
  obtain ⟨ms, hms, hat, hperf⟩ := hl
  refine ⟨ms ++ [.point p o r], ?_, ?_, hperf.point p hspec⟩
  · rw [List.filterMap_append, hms]
    exact List.append_nil h
  · have hnext : (ph p).Next (.point p o r) (.done r) := by
      rw [hp]
      exact .point p o r
    exact at_mark hat (.point p o r) hnext

theorem ret (hl : LinearizesTo spec s₀ h ph s) {p : P} {r : R} (hp : ph p = .done r) :
    LinearizesTo spec s₀ (h ++ [.ret p r]) (Function.update ph p .idle) s := by
  obtain ⟨ms, hms, hat, hperf⟩ := hl
  refine ⟨ms ++ [.event (.ret p r)], ?_, ?_, hperf.event _⟩
  · rw [List.filterMap_append, hms]
    rfl
  · have hnext : (ph p).Next (.event (.ret p r)) (.idle : Phase O R) := by
      rw [hp]
      exact .ret p r
    exact at_mark hat (.event (.ret p r)) hnext

end LinearizesTo

end Sthreads
