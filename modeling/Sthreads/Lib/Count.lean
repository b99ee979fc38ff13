/-
How many threads are at a program point.

A finite family of threads, each with a control state, moves one thread at a
time.  `countAt p f` is the number of threads whose control state satisfies `p`,
and `countAt_update` is the one fact needed of it: moving a thread takes away
what its old control state counted for and adds what its new one counts for.
-/
import Mathlib.Algebra.Order.BigOperators.Group.Finset
import Mathlib.Data.Fintype.BigOperators

namespace Sthreads

variable {T B : Type} [Fintype T]

/-- The number of threads whose control state satisfies `p`. -/
def countAt (p : B → Bool) (f : T → B) : Nat := ∑ t, (p (f t)).toNat

theorem countAt_update [DecidableEq T] (p : B → Bool) (f : T → B) (t : T) (v : B) :
    countAt p (Function.update f t v) + (p (f t)).toNat = countAt p f + (p v).toNat := by
  have hmem : t ∈ (Finset.univ : Finset T) := Finset.mem_univ t
  unfold countAt
  rw [← Finset.add_sum_erase _ _ hmem, ← Finset.add_sum_erase _ (fun u => (p (f u)).toNat) hmem]
  have hoff : ∑ u ∈ Finset.univ.erase t, (p (Function.update f t v u)).toNat
      = ∑ u ∈ Finset.univ.erase t, (p (f u)).toNat := by
    refine Finset.sum_congr rfl fun u hu => ?_
    rw [Function.update_of_ne (Finset.ne_of_mem_erase hu)]
  rw [hoff, Function.update_self]
  omega

/-- A sum over the threads of which one changes. -/
theorem sum_change [DecidableEq T] {f g : T → Nat} (t : T) (h : ∀ u, u ≠ t → g u = f u) :
    ∑ u, g u + f t = ∑ u, f u + g t := by
  have hmem : t ∈ (Finset.univ : Finset T) := Finset.mem_univ t
  rw [← Finset.add_sum_erase _ f hmem, ← Finset.add_sum_erase _ g hmem]
  have hoff : ∑ u ∈ Finset.univ.erase t, g u = ∑ u ∈ Finset.univ.erase t, f u :=
    Finset.sum_congr rfl fun u hu => h u (Finset.ne_of_mem_erase hu)
  omega

/-- A thread that satisfies `p` makes the count positive. -/
theorem countAt_pos {p : B → Bool} {f : T → B} {t : T} (h : p (f t) = true) :
    0 < countAt p f := by
  have hle : (p (f t)).toNat ≤ countAt p f :=
    Finset.single_le_sum (f := fun u => (p (f u)).toNat) (fun u _ => Nat.zero_le _)
      (Finset.mem_univ t)
  rw [h] at hle
  exact hle

/-- Two threads that satisfy `p` make it at least two. -/
theorem two_le_countAt [DecidableEq T] {p : B → Bool} {f : T → B} {t u : T} (hne : t ≠ u)
    (ht : p (f t) = true) (hu : p (f u) = true) : 2 ≤ countAt p f := by
  have hmem : t ∈ (Finset.univ : Finset T) := Finset.mem_univ t
  unfold countAt
  rw [← Finset.add_sum_erase _ _ hmem]
  have hrest : (p (f u)).toNat ≤ ∑ x ∈ Finset.univ.erase t, (p (f x)).toNat :=
    Finset.single_le_sum (f := fun x => (p (f x)).toNat) (fun x _ => Nat.zero_le _)
      (Finset.mem_erase.mpr ⟨hne.symm, Finset.mem_univ u⟩)
  rw [hu, Bool.toNat_true] at hrest
  rw [ht, Bool.toNat_true]
  omega

/-- A positive count is somebody's. -/
theorem exists_of_countAt_pos {p : B → Bool} {f : T → B} (h : 0 < countAt p f) :
    ∃ t, p (f t) = true := by
  by_contra hc
  have hall : ∀ t, (p (f t)).toNat = 0 := by
    intro t
    have : p (f t) ≠ true := fun ht => hc ⟨t, ht⟩
    simp [this]
  unfold countAt at h
  rw [Finset.sum_eq_zero fun t _ => hall t] at h
  omega

end Sthreads
