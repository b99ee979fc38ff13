/-
Forward simulation with stuttering.

A step of the concrete system is one step of the abstract system, or none.  Then a run of the
concrete system comes with abstract states, one for each state that it visits, each of which is the
one before or a step further; and what the abstract system reaches says what the concrete one does.
-/
import Mathlib.Data.List.Chain
import Mathlib.Data.List.Forall2
import Sthreads.Lib.Run

namespace Sthreads

variable {S A T B : Type} {concrete : S → A → Option S} {abstract : T → B → Option T}

/-- The same state, or one step further. -/
def Stutters (step : T → B → Option T) (y y' : T) : Prop := y' = y ∨ ∃ b, step y b = some y'

/-- Every step of the concrete system is one of the abstract system, or none. -/
def Simulates (concrete : S → A → Option S) (abstract : T → B → Option T) (R : S → T → Prop) :
    Prop :=
  ∀ s a s' y, R s y → concrete s a = some s' → ∃ y', Stutters abstract y y' ∧ R s' y'

theorem visited_snoc (tr : List (S × A)) (s s' : S) (a : A) :
    visited (tr ++ [(s, a)]) s' = visited tr s ++ [s'] := by
  simp [visited]

theorem Stutters.reaches {y₀ y y' : T} (hs : Stutters abstract y y')
    (h : Reaches abstract y₀ y) : Reaches abstract y₀ y' := by
  rcases hs with rfl | ⟨b, hb⟩
  · exact h
  · obtain ⟨tr, htr⟩ := h
    exact ⟨_, htr.snoc hb⟩

namespace Simulates

variable {R : S → T → Prop} {s₀ s : S} {y₀ : T} {tr : List (S × A)}

/-- A run is matched state by state. -/
theorem run (hsim : Simulates concrete abstract R) (h0 : R s₀ y₀) (h : Run concrete s₀ tr s) :
    ∃ ys y, ys.head? = some y₀ ∧ ys.getLast? = some y ∧ R s y ∧
      List.Forall₂ R (visited tr s) ys ∧ ys.IsChain (Stutters abstract) := by
  induction h with
  | nil => exact ⟨[y₀], y₀, rfl, rfl, h0, .cons h0 .nil, .singleton y₀⟩
  | @snoc tr s s' a _ hs ih =>
      obtain ⟨ys, y, hhead, hlast, hR, hall, hchain⟩ := ih
      obtain ⟨y', hstep, hR'⟩ := hsim s a s' y hR hs
      refine ⟨ys ++ [y'], y', ?_, by simp, hR', ?_, ?_⟩
      · rw [List.head?_append, hhead]
        rfl
      · rw [visited_snoc]
        exact List.rel_append hall (.cons hR' .nil)
      · apply hchain.append (.singleton y')
        intro x hx z hz
        obtain rfl : y = x := Option.some.inj (hlast.symm.trans hx)
        obtain rfl : y' = z := by simpa using hz
        exact hstep

/-- What the concrete system reaches stands for what the abstract one reaches. -/
theorem reaches (hsim : Simulates concrete abstract R) (h0 : R s₀ y₀) (h : Reaches concrete s₀ s) :
    ∃ y, R s y ∧ Reaches abstract y₀ y := by
  obtain ⟨tr, htr⟩ := h
  refine htr.invariant (fun s => ∃ y, R s y ∧ Reaches abstract y₀ y) ⟨y₀, h0, [], .nil⟩ ?_
  intro s a s' hex hs
  obtain ⟨y, hR, hy⟩ := hex
  obtain ⟨y', hstep, hR'⟩ := hsim s a s' y hR hs
  exact ⟨y', hR', hstep.reaches hy⟩

end Simulates

end Sthreads
