/-
Measures under which every run ends.

A run is finite when each of its steps lowers a measure in a well-founded order.  A program
over an interface of operations has such a measure of its own, as it is built of its
continuations: `Prog.rank`.  It is an ordinal, because an operation may have infinitely
many results and the rest of the program may depend on them.
-/
import Sthreads.Lib.Prog
import Mathlib.Data.DFinsupp.WellFounded
import Mathlib.Data.Prod.Lex
import Mathlib.SetTheory.Ordinal.Rank

namespace Sthreads

/-! ### Runs -/

/-- From a state with an invariant, the steps that keep it and lower a measure do not go on
for ever. -/
theorem no_infinite_run {S A M : Type*} [Preorder M] [WellFoundedLT M] {step : S → A → Option S}
    (Inv : S → Prop) (ok : A → Prop) (μ : S → M)
    (hstep : ∀ s a s', Inv s → ok a → step s a = some s' → Inv s' ∧ μ s' < μ s)
    {s₀ : S} (h0 : Inv s₀) :
    ¬ ∃ (run : Nat → S) (act : Nat → A), run 0 = s₀ ∧
      ∀ n, ok (act n) ∧ step (run n) (act n) = some (run (n + 1)) := by
  rintro ⟨run, act, rfl, hrun⟩
  have hinv : ∀ n, Inv (run n) := by
    intro n
    induction n with
    | zero => exact h0
    | succ n ih => exact (hstep _ _ _ ih (hrun n).1 (hrun n).2).1
  have hlt : ∀ n, μ (run (n + 1)) < μ (run n) := fun n =>
    (hstep _ _ _ (hinv n) (hrun n).1 (hrun n).2).2
  exact (RelEmbedding.natGT (fun n => μ (run n)) hlt).not_wellFounded wellFounded_lt

/-! ### Measures of several parts -/

/-- A measure whose parts count in this order. -/
abbrev Measure (A B C : Type*) := A ×ₗ B ×ₗ C

namespace Measure

variable {A B C : Type*} [PartialOrder A] [PartialOrder B] [Preorder C]

def of (a : A) (b : B) (c : C) : Measure A B C := toLex (a, toLex (b, c))

theorem lt_first {a a' : A} {b b' : B} {c c' : C} (h : a' < a) : of a' b' c' < of a b c :=
  Prod.Lex.toLex_lt_toLex.mpr (Or.inl h)

theorem lt_second {a a' : A} {b b' : B} {c c' : C} (ha : a' ≤ a) (h : b' < b) :
    of a' b' c' < of a b c := by
  rcases ha.lt_or_eq with ha | rfl
  · exact lt_first ha
  · exact Prod.Lex.toLex_lt_toLex.mpr
      (Or.inr ⟨rfl, Prod.Lex.toLex_lt_toLex.mpr (Or.inl h)⟩)

theorem lt_third {a a' : A} {b b' : B} {c c' : C} (ha : a' ≤ a) (hb : b' ≤ b) (h : c' < c) :
    of a' b' c' < of a b c := by
  rcases ha.lt_or_eq with ha | rfl
  · exact lt_first ha
  · rcases hb.lt_or_eq with hb | rfl
    · exact lt_second le_rfl hb
    · exact Prod.Lex.toLex_lt_toLex.mpr
        (Or.inr ⟨rfl, Prod.Lex.toLex_lt_toLex.mpr (Or.inr ⟨rfl, h⟩)⟩)

end Measure

/-! ### Programs -/

namespace Prog

variable {Op : Type} {Res : Op → Type} {ε α : Type}

/-- What follows the first operation, for one of its results. -/
inductive Follows : Prog Op Res ε α → Prog Op Res ε α → Prop
  | op (o : Op) (k : Res o → Prog Op Res ε α) (r : Res o) : Follows (k r) (.op o k)

instance : IsWellFounded (Prog Op Res ε α) Follows where
  wf := ⟨fun p => by
    induction p with
    | ret a => exact ⟨_, fun q hq => nomatch hq⟩
    | halt e => exact ⟨_, fun q hq => nomatch hq⟩
    | op o k ih =>
        refine ⟨_, fun q hq => ?_⟩
        cases hq with
        | op _ _ r => exact ih r⟩

/-- How long a program can go on. -/
noncomputable def rank (p : Prog Op Res ε α) : Ordinal.{0} := IsWellFounded.rank Follows p

theorem rank_lt (o : Op) (k : Res o → Prog Op Res ε α) (r : Res o) :
    (k r).rank < (Prog.op o k : Prog Op Res ε α).rank :=
  IsWellFounded.rank_lt_of_rel (.op o k r)

end Prog

end Sthreads
