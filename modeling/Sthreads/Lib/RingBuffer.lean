/-
A list kept in the cells of a ring.

The cell of the entry with serial number `i` is cell `i % n`.  The entries that are in
the ring have consecutive serial numbers from `g` on, and there are at most `n` of them,
so no two share a cell: an entry added behind them does not overwrite any of them.
-/
import Mathlib.Data.Nat.ModEq
import Mathlib.Data.List.Basic
import Mathlib.Logic.Function.Basic

namespace Sthreads

variable {α : Type}

/-- The ring of `n` cells holds `xs`, whose first entry has serial number `g`. -/
def InRing (n : Nat) (cells : Nat → Option α) (g : Nat) (xs : List α) : Prop :=
  xs.length ≤ n ∧ ∀ i, ∀ h : i < xs.length, cells ((g + i) % n) = some xs[i]

/-- Serial numbers less than a round apart have different cells. -/
theorem cell_ne {n g i j : Nat} (hij : i < j) (hj : j < n) : (g + i) % n ≠ (g + j) % n := by
  intro heq
  have hdvd : n ∣ (g + j) - (g + i) := (Nat.modEq_iff_dvd' (by omega)).mp heq
  have hle : n ≤ (g + j) - (g + i) := Nat.le_of_dvd (by omega) hdvd
  omega

namespace InRing

variable {n g : Nat} {cells : Nat → Option α}

theorem nil : InRing n cells g [] := ⟨Nat.zero_le _, fun i h => absurd h (Nat.not_lt_zero i)⟩

/-- An entry is added in the cell behind the last one. -/
theorem push {xs : List α} (h : InRing n cells g xs) (hroom : xs.length < n) (x : α) :
    InRing n (Function.update cells ((g + xs.length) % n) (some x)) g (xs ++ [x]) := by
  refine ⟨by rw [List.length_append]; exact hroom, fun i hi => ?_⟩
  rw [List.length_append, List.length_singleton] at hi
  rcases Nat.lt_or_eq_of_le (Nat.le_of_lt_succ hi) with hlt | rfl
  · rw [Function.update_of_ne (cell_ne hlt hroom), List.getElem_append_left hlt]
    exact h.2 i hlt
  · rw [Function.update_self, List.getElem_concat_length rfl]

/-- The oldest entry is in the first cell, and the rest stays. -/
theorem pop {x : α} {xs : List α} (h : InRing n cells g (x :: xs)) :
    cells (g % n) = some x ∧ InRing n cells (g + 1) xs := by
  obtain ⟨hlen, hcell⟩ := h
  rw [List.length_cons] at hlen
  refine ⟨hcell 0 (by simp), by omega, fun i hi => ?_⟩
  have := hcell (i + 1) (by simpa using hi)
  rwa [List.getElem_cons_succ, show g + (i + 1) = g + 1 + i by omega] at this

end InRing

end Sthreads
