/-
A runqueue as one list.

`threads` reads the fifteen queues one after the other, best priority first, so
that it is the order in which `rq_retirar` would take the threads out.  Taking one
out is taking the head of this list, and the runqueue is empty when the list is.
Filing a thread puts it somewhere into the list, provided that its priority is the
index of one of the fifteen queues.
-/
import Sthreads.User.Thread
import Mathlib.Data.List.Perm.Basic
import Mathlib.Data.List.Flatten
import Mathlib.Tactic.Common

namespace Sthreads.User.Runqueue

/-- The threads of a runqueue in the order in which they would be taken out. -/
def threads (rq : Runqueue) : List Tid := (List.range numPriorities).flatMap fun i : Nat => rq.filas i

/-- The priorities that index a queue of `filas`. -/
def InRange (p : Int) : Prop := 0 ≤ p ∧ p ≤ 14

@[simp] theorem threads_criarRunqueue : criarRunqueue.threads = [] := by
  simp [threads, criarRunqueue]

/-- The queues below index `i`, queue `i` and the queues above it. -/
theorem threads_split (rq : Runqueue) {i : Nat} (hi : i < numPriorities) :
    rq.threads = ((List.range i).flatMap fun j : Nat => rq.filas j) ++ rq.filas i ++
      ((List.range' (i + 1) (numPriorities - (i + 1))).flatMap fun j : Nat => rq.filas j) := by
  have hsplit : List.range numPriorities
      = List.range i ++ i :: List.range' (i + 1) (numPriorities - (i + 1)) := by
    rw [List.range_eq_range', List.range_eq_range', ← List.range'_succ]
    have := List.range'_append_1 (s := 0) (m := i) (n := numPriorities - (i + 1) + 1)
    rw [Nat.zero_add] at this
    rw [this]
    congr 1
    omega
  rw [threads, hsplit]
  simp

/-- Replacing queue `i` changes the list only where queue `i` stands. -/
theorem threads_update (rq : Runqueue) {i : Nat} (hi : i < numPriorities) (q : List Tid) :
    threads ⟨Function.update rq.filas i q⟩ = ((List.range i).flatMap fun j : Nat => rq.filas j) ++ q ++
      ((List.range' (i + 1) (numPriorities - (i + 1))).flatMap fun j : Nat => rq.filas j) := by
  rw [threads_split _ hi]
  have hlow : ((List.range i).flatMap fun j : Nat => Function.update rq.filas i q j)
      = (List.range i).flatMap fun j : Nat => rq.filas j := by
    refine List.flatMap_congr fun j hj => ?_
    rw [Function.update_of_ne]
    have := List.mem_range.mp hj
    omega
  have hhigh : ((List.range' (i + 1) (numPriorities - (i + 1))).flatMap
      fun j : Nat => Function.update rq.filas i q j)
      = (List.range' (i + 1) (numPriorities - (i + 1))).flatMap fun j : Nat => rq.filas j := by
    refine List.flatMap_congr fun j hj => ?_
    rw [Function.update_of_ne]
    obtain ⟨k, -, hk⟩ := List.mem_range'.mp hj
    omega
  simp only [Function.update_self]
  rw [hlow, hhigh]

/-- Filing a thread under one of the fifteen priorities adds it to the runqueue. -/
theorem threads_rqInserir (rq : Runqueue) {p : Int} (hp : InRange p) (t : Tid) :
    (rq.rqInserir p t).threads.Perm (t :: rq.threads) := by
  obtain ⟨i, rfl⟩ := Int.eq_ofNat_of_zero_le hp.1
  have hi : i < numPriorities := by have := hp.2; unfold numPriorities; omega
  rw [rqInserir, threads_update rq hi, threads_split rq hi]
  simp only [List.append_assoc]
  exact (List.Perm.append_left _ List.perm_middle).trans List.perm_middle

/-! ### The scan -/

theorem primeiraFila_some {rq : Runqueue} {i : Nat} (h : rq.primeiraFila = some i) :
    i < numPriorities ∧ rq.filas i ≠ [] ∧ ∀ j < i, rq.filas j = [] := by
  unfold primeiraFila at h
  obtain ⟨hi, as, bs, hsplit, hbefore⟩ := List.find?_eq_some_iff_append.mp h
  have hmem := List.mem_of_find?_eq_some h
  refine ⟨List.mem_range.mp hmem, by simpa using hi, ?_⟩
  intro j hj
  have hjm : j ∈ List.range numPriorities :=
    List.mem_range.mpr (Nat.lt_trans hj (List.mem_range.mp hmem))
  rw [hsplit] at hjm
  rcases List.mem_append.mp hjm with hja | hjb
  · simpa using hbefore j hja
  · -- the indices after `i` are larger
    exfalso
    have hpw : (List.range numPriorities).Pairwise (· < ·) := List.pairwise_lt_range
    rw [hsplit, List.pairwise_append] at hpw
    rcases List.mem_cons.mp hjb with rfl | hjb
    · omega
    · have := (List.pairwise_cons.mp hpw.2.1).1 j hjb
      omega

theorem primeiraFila_none {rq : Runqueue} (h : rq.primeiraFila = none) : rq.threads = [] := by
  unfold primeiraFila at h
  rw [List.find?_eq_none] at h
  unfold threads
  rw [List.flatMap_eq_nil_iff]
  intro i hi
  simpa using h i hi

/-- The scan finds the queue that holds the head of the list. -/
theorem threads_of_primeiraFila {rq : Runqueue} {i : Nat} (h : rq.primeiraFila = some i) :
    rq.threads = rq.filas i ++
      ((List.range' (i + 1) (numPriorities - (i + 1))).flatMap fun j : Nat => rq.filas j) := by
  obtain ⟨hi, -, hbefore⟩ := primeiraFila_some h
  have hlow : ((List.range i).flatMap fun j : Nat => rq.filas j) = [] := by
    rw [List.flatMap_eq_nil_iff]
    intro j hj
    exact hbefore j (List.mem_range.mp hj)
  rw [threads_split rq hi, hlow, List.nil_append]

/-- `rq_retirar` takes the head of the list. -/
theorem rqRetirar_some {rq rq' : Runqueue} {t : Tid} (h : rq.rqRetirar = some (t, rq')) :
    rq.threads = t :: rq'.threads := by
  unfold rqRetirar at h
  cases hf : rq.primeiraFila with
  | none => simp [hf] at h
  | some i =>
      simp only [hf] at h
      obtain ⟨hi, hne, hbefore⟩ := primeiraFila_some hf
      cases hq : rq.filas i with
      | nil => exact absurd hq hne
      | cons u rest =>
          simp only [hq, Option.some.injEq, Prod.mk.injEq] at h
          obtain ⟨rfl, rfl⟩ := h
          have hlow : ((List.range i).flatMap fun j : Nat => rq.filas j) = [] := by
            rw [List.flatMap_eq_nil_iff]
            intro j hj
            exact hbefore j (List.mem_range.mp hj)
          rw [threads_of_primeiraFila hf, threads_update rq hi, hq, hlow]
          rfl

/-- `rq_retirar` returns `NULL` exactly on an empty runqueue. -/
theorem rqRetirar_none {rq : Runqueue} : rq.rqRetirar = none ↔ rq.threads = [] := by
  constructor
  · intro h
    unfold rqRetirar at h
    cases hf : rq.primeiraFila with
    | none => exact primeiraFila_none hf
    | some i =>
        simp only [hf] at h
        obtain ⟨-, hne, -⟩ := primeiraFila_some hf
        cases hq : rq.filas i with
        | nil => exact absurd hq hne
        | cons u rest => simp [hq] at h
  · intro h
    cases hr : rq.rqRetirar with
    | none => rfl
    | some pr =>
        obtain ⟨t, rq'⟩ := pr
        have := rqRetirar_some hr
        rw [h] at this
        simp at this

theorem rqVazia_iff {rq : Runqueue} : rq.rqVazia = true ↔ rq.threads = [] := by
  unfold rqVazia rqMelhorPrio
  cases hf : rq.primeiraFila with
  | none => simpa using primeiraFila_none hf
  | some i =>
      obtain ⟨-, hne, -⟩ := primeiraFila_some hf
      rw [threads_of_primeiraFila hf]
      simp only [List.append_eq_nil_iff, beq_iff_eq]
      constructor
      · intro hc; omega
      · intro hc; exact absurd hc.1 hne

/-! ### Queue by queue -/

theorem mem_threads {rq : Runqueue} {t : Tid} :
    t ∈ rq.threads ↔ ∃ i : Nat, i < numPriorities ∧ t ∈ rq.filas i := by
  simp only [threads, List.mem_flatMap, List.mem_range]

/-- Filing a thread puts it at the end of one queue. -/
theorem rqInserir_filas (rq : Runqueue) (p q : Int) (t : Tid) :
    (rq.rqInserir p t).filas q = rq.filas q ++ if q = p then [t] else [] := by
  by_cases hq : q = p
  · subst hq
    simp [rqInserir]
  · simp [rqInserir, hq]

/-- `rq_retirar` takes the oldest thread of the first queue with threads in it. -/
theorem rqRetirar_filas {rq rq' : Runqueue} {t : Tid} (h : rq.rqRetirar = some (t, rq')) :
    ∃ i : Nat, i < numPriorities ∧ rq.filas i = t :: rq'.filas i ∧
      (∀ q : Int, q ≠ i → rq'.filas q = rq.filas q) ∧ ∀ j < i, rq.filas (j : Nat) = [] := by
  unfold rqRetirar at h
  cases hf : rq.primeiraFila with
  | none => simp [hf] at h
  | some i =>
      simp only [hf] at h
      obtain ⟨hi, hne, hbefore⟩ := primeiraFila_some hf
      cases hq : rq.filas i with
      | nil => exact absurd hq hne
      | cons u rest =>
          simp only [hq, Option.some.injEq, Prod.mk.injEq] at h
          obtain ⟨rfl, rfl⟩ := h
          exact ⟨i, hi, by simp [hq],
            fun q hne => Function.update_of_ne hne _ _, hbefore⟩

/-- No thread is in a queue before the one `rq_melhor_prio` finds. -/
theorem rqMelhorPrio_le {rq : Runqueue} {i : Nat} (hi : i < numPriorities)
    (hne : rq.filas i ≠ []) : rq.rqMelhorPrio ≠ -1 ∧ rq.rqMelhorPrio ≤ i := by
  unfold rqMelhorPrio
  cases hf : rq.primeiraFila with
  | none =>
      obtain ⟨t, ht⟩ := List.exists_mem_of_ne_nil _ hne
      have hmem := mem_threads.mpr ⟨i, hi, ht⟩
      rw [primeiraFila_none hf] at hmem
      cases hmem
  | some j =>
      obtain ⟨-, -, hbefore⟩ := primeiraFila_some hf
      have hle : j ≤ i := by
        by_contra hlt
        exact hne (hbefore i (by omega))
      simp only
      omega

/-- What `rq_melhor_prio` finds is the index of a queue with threads in it. -/
theorem rqMelhorPrio_mem {rq : Runqueue} (h : rq.rqMelhorPrio ≠ -1) :
    ∃ i : Nat, i < numPriorities ∧ rq.rqMelhorPrio = i ∧ rq.filas i ≠ [] := by
  unfold rqMelhorPrio at h ⊢
  cases hf : rq.primeiraFila with
  | none => simp [hf] at h
  | some i =>
      obtain ⟨hi, hne, -⟩ := primeiraFila_some hf
      exact ⟨i, hi, rfl, hne⟩

/-! ### Filing under the own priority -/

/-- Every thread of the runqueue is in the queue of its priority. -/
def Filed (rq : Runqueue) (prio : Tid → Int) : Prop :=
  ∀ i : Nat, i < numPriorities → ∀ t ∈ rq.filas i, prio t = i

namespace Filed

variable {rq rq' : Runqueue} {prio prio' : Tid → Int} {t : Tid}

theorem congr (h : rq.Filed prio) (heq : ∀ u ∈ rq.threads, prio' u = prio u) :
    rq.Filed prio' := by
  intro i hi u hu
  rw [heq u (mem_threads.mpr ⟨i, hi, hu⟩)]
  exact h i hi u hu

theorem rqInserir (h : rq.Filed prio) (t : Tid) : (rq.rqInserir (prio t) t).Filed prio := by
  intro i hi u hu
  rw [rqInserir_filas, List.mem_append] at hu
  rcases hu with hu | hu
  · exact h i hi u hu
  · split at hu
    · rename_i hp
      rw [List.mem_singleton.mp hu]
      exact hp.symm
    · cases hu

/-- The thread taken out has the best priority, and was the oldest of its queue. -/
theorem rqRetirar (h : rq.Filed prio) (hr : rq.rqRetirar = some (t, rq')) :
    rq'.Filed prio ∧ (∀ u ∈ rq'.threads, prio t ≤ prio u) ∧
      ∀ q : Int, (if q = prio t then [t] else []) ++ rq'.filas q = rq.filas q := by
  obtain ⟨i, hi, hhead, hother, hbefore⟩ := rqRetirar_filas hr
  have ht : prio t = i := h i hi t (by rw [hhead]; exact List.mem_cons_self)
  have hfilas : ∀ q : Int, (if q = prio t then [t] else []) ++ rq'.filas q = rq.filas q := by
    intro q
    by_cases hq : q = i
    · subst hq
      simp [ht, hhead]
    · simp [ht, hq, hother q hq]
  have hfiled : rq'.Filed prio := by
    intro j hj u hu
    refine h j hj u ?_
    rw [← hfilas j]
    exact List.mem_append_right _ hu
  refine ⟨hfiled, fun u hu => ?_, hfilas⟩
  obtain ⟨j, hj, huj⟩ := mem_threads.mp hu
  rw [ht, hfiled j hj u huj]
  by_contra hlt
  have hnil := hbefore j (by omega)
  rw [← hfilas j, List.append_eq_nil_iff] at hnil
  rw [hnil.2] at huj
  cases huj

end Filed

end Sthreads.User.Runqueue
