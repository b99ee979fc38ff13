/-
Where a thread can be.

The slots are the places a thread can be in without waiting for a lock: the
processor, the runqueues and the sleep, join, zombie and dead lists, as one
multiset.  `Waits` says that a thread stands in the wait queue of a lock or of a
monitor.

The invariant `Placed` counts, for each thread, its occurrences in the slots
against the switch points it still has to pass.  A thread normally occurs once: in
a slot or in a wait queue.  A thread that `sthread_user_mutex_unlock` preempted
inside `sthread_user_monitor_wait` has one more switch point to pass, and occurs
once more.  Because the counts fit, a thread comes out of a blocking call only
after the lock was handed to it.

The lemmas are the elementary moves every function of the scheduler is made of;
each states what it changes and nothing about the function it occurs in.
-/
import Sthreads.User.Sched
import Mathlib.Data.Multiset.Count
import Mathlib.Tactic.Common

namespace Sthreads.User

/-- `t` stands in the wait queue of a monitor or of a lock. -/
def Waits (lk : Lock → Mutex) (mn : Nat → List Tid) (t : Tid) : Prop :=
  (∃ m, t ∈ mn m) ∨ ∃ l, t ∈ (lk l).queue

namespace Point

/-- The switch points still to pass beyond the one the thread is suspended at. -/
def extra : Point → Nat
  | unlockInWait _ => 1
  | _ => 0

/-- The lock whose ownership the thread needs before it returns to user code. -/
def needs : Point → Option Lock
  | lock l => some l
  | wait m => some (.monitor m)
  | unlockInWait m => some (.monitor m)
  | _ => none

end Point

/-- The counting invariant, over the slots, the points, the locks and the monitors. -/
structure Placed (sl : Multiset Tid) (pt : Tid → Point) (lk : Lock → Mutex) (mn : Nat → List Tid)
    (n : Nat) : Prop where
  created : ∀ t : Nat, t ∈ sl ∨ Waits lk mn t → 1 ≤ t ∧ t < n
  fresh : ∀ t : Nat, n ≤ t → pt t = .start
  countFree : ∀ t : Nat, 1 ≤ t → t < n → ¬ Waits lk mn t → sl.count t = 1 + (pt t).extra
  countWaits : ∀ t, Waits lk mn t → sl.count t = (pt t).extra
  nodupLock : ∀ l, (lk l).queue.Nodup
  nodupMon : ∀ m, (mn m).Nodup
  atMon : ∀ t m, t ∈ mn m → pt t = .wait m ∨ pt t = .unlockInWait m
  atLock : ∀ t l, t ∈ (lk l).queue → (pt t).needs = some l
  disjoint : ∀ t m, t ∈ mn m → t ∉ (lk (.monitor m)).queue
  owner : ∀ (t : Nat) (l : Lock), 1 ≤ t → t < n → (pt t).needs = some l → ¬ Waits lk mn t → (lk l).thr = some t
  empty : ∀ l, (lk l).thr = none → (lk l).queue = []

namespace Placed

variable {sl sl' : Multiset Tid} {pt : Tid → Point} {lk : Lock → Mutex} {mn : Nat → List Tid} {n : Nat}

/-- A thread that waits needs a lock, so a thread that needs none does not wait. -/
theorem not_waits (h : Placed sl pt lk mn n) {t : Tid} (ht : (pt t).needs = none) :
    ¬ Waits lk mn t := by
  rintro (⟨m, hm⟩ | ⟨l, hl⟩)
  · rcases h.atMon t m hm with hp | hp <;> rw [hp] at ht <;> simp [Point.needs] at ht
  · rw [h.atLock t l hl] at ht
    simp at ht

/-- A thread in the queue of a lock is in no other wait queue. -/
theorem queue_only (h : Placed sl pt lk mn n) {t : Tid} {l : Lock} (ht : t ∈ (lk l).queue) :
    (∀ m, t ∉ mn m) ∧ ∀ l', t ∈ (lk l').queue → l' = l := by
  have hneed := h.atLock t l ht
  constructor
  · intro m hm
    have hl : l = .monitor m := by
      rcases h.atMon t m hm with hp | hp <;> rw [hp] at hneed <;>
        simpa [Point.needs] using hneed.symm
    subst hl
    exact h.disjoint t m hm ht
  · intro l' hl'
    have := h.atLock t l' hl'
    rw [hneed] at this
    simpa using this.symm

/-! ### Moves that leave the locks alone -/

/-- A thread that needs no lock goes from one ordinary point to another. -/
theorem move (h : Placed sl pt lk mn n) {t : Nat} {p : Point} (ht : t ∈ sl)
    (hw : ¬ Waits lk mn t) (hx : (pt t).extra = 0) (hp : p.needs = none) (hpx : p.extra = 0) :
    Placed sl (Function.update pt t p) lk mn n := by
  have hcr := h.created t (Or.inl ht)
  have hne : ∀ u, Waits lk mn u → u ≠ t := fun u hu he => hw (he ▸ hu)
  refine ⟨h.created, ?_, ?_, ?_, h.nodupLock, h.nodupMon, ?_, ?_, h.disjoint, ?_, h.empty⟩
  · intro u hu
    have hut : u ≠ t := by omega
    rw [Function.update_of_ne hut]
    exact h.fresh u hu
  · intro u h1 hn hu
    by_cases hut : u = t
    · subst hut
      rw [Function.update_self, hpx, h.countFree u h1 hn hu, hx]
    · rw [Function.update_of_ne hut]
      exact h.countFree u h1 hn hu
  · intro u hu
    rw [Function.update_of_ne (hne u hu)]
    exact h.countWaits u hu
  · intro u m hu
    rw [Function.update_of_ne (hne u (Or.inl ⟨m, hu⟩))]
    exact h.atMon u m hu
  · intro u l hu
    rw [Function.update_of_ne (hne u (Or.inr ⟨l, hu⟩))]
    exact h.atLock u l hu
  · intro u l h1 hn hneed hu
    by_cases hut : u = t
    · subst hut
      rw [Function.update_self, hp] at hneed
      simp at hneed
    · rw [Function.update_of_ne hut] at hneed
      exact h.owner u l h1 hn hneed hu

/-- A new thread enters the slots. -/
theorem create {n : Nat} (h : Placed sl pt lk mn n) (hn1 : 1 ≤ n) :
    Placed (n ::ₘ sl) (Function.update pt n .start) lk mn (n + 1) := by
  have hpt : Function.update pt n .start = pt := by
    rw [Function.update_eq_self_iff]
    exact (h.fresh n (Nat.le_refl n)).symm
  have hnw : ¬ Waits lk mn n := fun hw => by
    have := (h.created n (Or.inr hw)).2
    omega
  have hnsl : sl.count n = 0 := by
    rw [Multiset.count_eq_zero]
    intro hm
    have := (h.created n (Or.inl hm)).2
    omega
  rw [hpt]
  refine ⟨?_, ?_, ?_, ?_, h.nodupLock, h.nodupMon, h.atMon, h.atLock, h.disjoint, ?_, h.empty⟩
  · intro t ht
    by_cases htn : t = n
    · omega
    · have := h.created t (by simpa [htn] using ht)
      omega
  · intro t ht
    exact h.fresh t (by omega)
  · intro t h1 ht hw
    by_cases htn : t = n
    · subst htn
      rw [Multiset.count_cons_self, hnsl, h.fresh t (Nat.le_refl t)]
      rfl
    · rw [Multiset.count_cons_of_ne htn]
      exact h.countFree t h1 (by omega) hw
  · intro t hw
    have htn : t ≠ n := fun hc => hnw (hc ▸ hw)
    rw [Multiset.count_cons_of_ne htn]
    exact h.countWaits t hw
  · intro t l h1 ht hneed hw
    by_cases htn : t = n
    · subst htn
      rw [h.fresh t (Nat.le_refl t)] at hneed
      simp [Point.needs] at hneed
    · exact h.owner t l h1 (by omega) hneed hw

/-- A thread that was preempted inside `sthread_user_monitor_wait` gives the processor up. -/
theorem finishWait (h : Placed sl pt lk mn n) {t : Nat} {m : Nat} (hp : sl = t ::ₘ sl')
    (ht : pt t = .unlockInWait m) : Placed sl' (Function.update pt t (.wait m)) lk mn n := by
  have hcr := h.created t (Or.inl (by rw [hp]; simp))
  have hneeds : (Point.wait m).needs = (pt t).needs := by rw [ht]; rfl
  have hself : sl'.count t + 1 = sl.count t := by rw [hp, Multiset.count_cons_self]
  have hother : ∀ u, u ≠ t → sl'.count u = sl.count u := fun u hu => by
    rw [hp, Multiset.count_cons_of_ne hu]
  refine ⟨?_, ?_, ?_, ?_, h.nodupLock, h.nodupMon, ?_, ?_, h.disjoint, ?_, h.empty⟩
  · intro u hu
    exact h.created u (hu.imp_left fun hm => by rw [hp]; simp [hm])
  · intro u hu
    have hut : u ≠ t := by omega
    rw [Function.update_of_ne hut]
    exact h.fresh u hu
  · intro u h1 hn hu
    have hc := h.countFree u h1 hn hu
    by_cases hut : u = t
    · subst hut
      rw [Function.update_self]
      rw [ht] at hc
      simp only [Point.extra] at hc ⊢
      omega
    · rw [Function.update_of_ne hut, hother u hut]
      exact hc
  · intro u hu
    have hc := h.countWaits u hu
    by_cases hut : u = t
    · subst hut
      rw [Function.update_self]
      rw [ht] at hc
      simp only [Point.extra] at hc ⊢
      omega
    · rw [Function.update_of_ne hut, hother u hut]
      exact hc
  · intro u m' hu
    by_cases hut : u = t
    · subst hut
      rw [Function.update_self]
      have := h.atMon u m' hu
      rw [ht] at this
      simpa using this
    · rw [Function.update_of_ne hut]
      exact h.atMon u m' hu
  · intro u l hu
    by_cases hut : u = t
    · subst hut
      rw [Function.update_self, hneeds]
      exact h.atLock u l hu
    · rw [Function.update_of_ne hut]
      exact h.atLock u l hu
  · intro u l h1 hn hneed hu
    by_cases hut : u = t
    · subst hut
      rw [Function.update_self, hneeds] at hneed
      exact h.owner u l h1 hn hneed hu
    · rw [Function.update_of_ne hut] at hneed
      exact h.owner u l h1 hn hneed hu

/-! ### Moves that change a lock or a monitor -/

/-- Who waits depends on the queues alone. -/
theorem waits_congr {lk' : Lock → Mutex} (hq : ∀ l, (lk' l).queue = (lk l).queue) (t : Tid) :
    Waits lk' mn t ↔ Waits lk mn t := by
  simp [Waits, hq]

/-- Changing the owner of a lock: the new owner must be whoever was granted the lock. -/
theorem setOwner (h : Placed sl pt lk mn n) {l : Lock} {v : Mutex}
    (hq : v.queue = (lk l).queue)
    (how : ∀ t : Nat, 1 ≤ t → t < n → (pt t).needs = some l → ¬ Waits lk mn t → v.thr = some t)
    (hem : v.thr = none → (lk l).queue = []) :
    Placed sl pt (Function.update lk l v) mn n := by
  have hqs : ∀ l', (Function.update lk l v l').queue = (lk l').queue := by
    intro l'
    by_cases hl : l' = l
    · subst hl; rw [Function.update_self, hq]
    · rw [Function.update_of_ne hl]
  have hw : ∀ t, Waits (Function.update lk l v) mn t ↔ Waits lk mn t := waits_congr hqs
  refine ⟨?_, h.fresh, ?_, ?_, ?_, h.nodupMon, h.atMon, ?_, ?_, ?_, ?_⟩
  · intro t ht
    exact h.created t (ht.imp_right (hw t).mp)
  · intro t h1 hn ht
    exact h.countFree t h1 hn fun hc => ht ((hw t).mpr hc)
  · intro t ht
    exact h.countWaits t ((hw t).mp ht)
  · intro l'
    rw [hqs]
    exact h.nodupLock l'
  · intro t l' ht
    rw [hqs] at ht
    exact h.atLock t l' ht
  · intro t m ht
    rw [hqs]
    exact h.disjoint t m ht
  · intro t l' h1 hn hneed ht
    have hnw : ¬ Waits lk mn t := fun hc => ht ((hw t).mpr hc)
    by_cases hl : l' = l
    · subst hl
      rw [Function.update_self]
      exact how t h1 hn hneed hnw
    · rw [Function.update_of_ne hl]
      exact h.owner t l' h1 hn hneed hnw
  · intro l' hnone
    rw [hqs]
    by_cases hl : l' = l
    · subst hl
      rw [Function.update_self] at hnone
      exact hem hnone
    · rw [Function.update_of_ne hl] at hnone
      exact h.empty l' hnone

/-- Anybody may take a free lock: nobody was granted it. -/
theorem acquire (h : Placed sl pt lk mn n) {l : Lock} {v : Mutex} (hfree : (lk l).thr = none)
    (hq : v.queue = (lk l).queue) : Placed sl pt (Function.update lk l v) mn n := by
  refine h.setOwner hq ?_ fun _ => h.empty l hfree
  intro t h1 hn hneed hw
  have := h.owner t l h1 hn hneed hw
  rw [hfree] at this
  simp at this

/-- The owner, in user code or already registered as a waiter, gives up a lock nobody waits for. -/
theorem release (h : Placed sl pt lk mn n) {t : Tid} {l : Lock} {v : Mutex}
    (how : (lk l).thr = some t) (ht : (pt t).needs = some l → Waits lk mn t)
    (hempty : (lk l).queue = []) (hq : v.queue = []) :
    Placed sl pt (Function.update lk l v) mn n := by
  refine h.setOwner (by rw [hq, hempty]) ?_ fun _ => hempty
  intro u h1 hn hneed hw
  have hu := h.owner u l h1 hn hneed hw
  rw [how, Option.some.injEq] at hu
  subst hu
  exact absurd (ht hneed) hw

/-- The owner hands the lock to the head of its queue, which enters the slots. -/
theorem handover (h : Placed sl pt lk mn n) {t u : Tid} {l : Lock} {rest : List Tid} {v : Mutex}
    (how : (lk l).thr = some t) (ht : (pt t).needs = some l → Waits lk mn t)
    (hqueue : (lk l).queue = u :: rest) (hv : v.thr = some u) (hq : v.queue = rest) (hne : u ≠ t)
    (hp : sl' = u ::ₘ sl) : Placed sl' pt (Function.update lk l v) mn n := by
  have hmem : u ∈ (lk l).queue := by rw [hqueue]; simp
  have huw : Waits lk mn u := Or.inr ⟨l, hmem⟩
  obtain ⟨humon, hulock⟩ := h.queue_only hmem
  have hnd : u ∉ rest := by
    have := h.nodupLock l
    rw [hqueue, List.nodup_cons] at this
    exact this.1
  have hsub : ∀ l' x, x ∈ (Function.update lk l v l').queue → x ∈ (lk l').queue := by
    intro l' x hx
    by_cases hl : l' = l
    · subst hl
      rw [Function.update_self, hq] at hx
      rw [hqueue]
      exact List.mem_cons_of_mem _ hx
    · rwa [Function.update_of_ne hl] at hx
  -- `u` is the only thread that stops waiting
  have hunw : ¬ Waits (Function.update lk l v) mn u := by
    rintro (⟨m, hm⟩ | ⟨l', hl'⟩)
    · exact humon m hm
    · have hll := hulock l' (hsub l' u hl')
      subst hll
      rw [Function.update_self, hq] at hl'
      exact hnd hl'
  have hw : ∀ x, x ≠ u → (Waits (Function.update lk l v) mn x ↔ Waits lk mn x) := by
    intro x hx
    refine or_congr_right ⟨fun ⟨l', hl'⟩ => ⟨l', hsub l' x hl'⟩, fun ⟨l', hl'⟩ => ⟨l', ?_⟩⟩
    by_cases hl : l' = l
    · subst hl
      rw [hqueue] at hl'
      rw [Function.update_self, hq]
      exact (List.mem_cons.mp hl').resolve_left hx
    · rwa [Function.update_of_ne hl]
  have hcu : sl'.count u = sl.count u + 1 := by rw [hp, Multiset.count_cons_self]
  have hcx : ∀ x, x ≠ u → sl'.count x = sl.count x := fun x hx => by
    rw [hp, Multiset.count_cons_of_ne hx]
  refine ⟨?_, h.fresh, ?_, ?_, ?_, h.nodupMon, h.atMon, ?_, ?_, ?_, ?_⟩
  · intro x hx
    by_cases hxu : x = u
    · subst hxu
      exact h.created x (Or.inr huw)
    · refine h.created x (hx.imp (fun hm => ?_) (hw x hxu).mp)
      rw [hp] at hm
      simpa [hxu] using hm
  · intro x h1 hn hx
    by_cases hxu : x = u
    · subst hxu
      rw [hcu, h.countWaits x huw]
      omega
    · rw [hcx x hxu]
      exact h.countFree x h1 hn fun hc => hx ((hw x hxu).mpr hc)
  · intro x hx
    have hxu : x ≠ u := fun hc => hunw (hc ▸ hx)
    rw [hcx x hxu]
    exact h.countWaits x ((hw x hxu).mp hx)
  · intro l'
    by_cases hl : l' = l
    · subst hl
      rw [Function.update_self, hq]
      have := h.nodupLock l'
      rw [hqueue, List.nodup_cons] at this
      exact this.2
    · rw [Function.update_of_ne hl]
      exact h.nodupLock l'
  · intro x l' hx
    exact h.atLock x l' (hsub l' x hx)
  · intro x m hx hc
    exact h.disjoint x m hx (hsub _ x hc)
  · intro x l' h1 hn hneed hx
    by_cases hxu : x = u
    · subst hxu
      have hneed' := h.atLock x l hmem
      rw [hneed, Option.some.injEq] at hneed'
      subst hneed'
      rw [Function.update_self, hv]
    · have hxw : ¬ Waits lk mn x := fun hc => hx ((hw x hxu).mpr hc)
      have hox := h.owner x l' h1 hn hneed hxw
      by_cases hl : l' = l
      · subst hl
        rw [how, Option.some.injEq] at hox
        subst hox
        exact absurd (ht hneed) hxw
      · rw [Function.update_of_ne hl]
        exact hox
  · intro l' hnone
    by_cases hl : l' = l
    · subst hl
      rw [Function.update_self, hv] at hnone
      simp at hnone
    · rw [Function.update_of_ne hl] at hnone ⊢
      exact h.empty l' hnone

/-- A thread in user code leaves its slot for the queue of a lock that is taken. -/
theorem block (h : Placed sl pt lk mn n) {t : Nat} {l : Lock} {v : Mutex}
    (hp : sl = t ::ₘ sl') (ht : (pt t).needs = none) (hx : (pt t).extra = 0)
    (hv : v.thr = (lk l).thr) (htaken : (lk l).thr ≠ none) (hq : v.queue = (lk l).queue ++ [t]) :
    Placed sl' (Function.update pt t (.lock l)) (Function.update lk l v) mn n := by
  have hmem : t ∈ sl := by rw [hp]; simp
  have hcr := h.created t (Or.inl hmem)
  have hnw := h.not_waits ht
  have hct : sl'.count t = 0 := by
    have h0 := h.countFree t hcr.1 hcr.2 hnw
    rw [hp, Multiset.count_cons_self, hx] at h0
    omega
  have hcx : ∀ x, x ≠ t → sl'.count x = sl.count x := fun x hxt => by
    rw [hp, Multiset.count_cons_of_ne hxt]
  have htw : Waits (Function.update lk l v) mn t :=
    Or.inr ⟨l, by rw [Function.update_self, hq]; simp⟩
  have hother : ∀ l' x, x ≠ t → (x ∈ (Function.update lk l v l').queue ↔ x ∈ (lk l').queue) := by
    intro l' x hxt
    by_cases hl : l' = l
    · subst hl
      rw [Function.update_self, hq]
      simp [hxt]
    · rw [Function.update_of_ne hl]
  have hw : ∀ x, x ≠ t → (Waits (Function.update lk l v) mn x ↔ Waits lk mn x) := fun x hxt =>
    or_congr_right (exists_congr fun l' => hother l' x hxt)
  have htl : ∀ l', t ∈ (Function.update lk l v l').queue → l' = l := by
    intro l' hm
    by_contra hl
    rw [Function.update_of_ne hl] at hm
    exact hnw (Or.inr ⟨l', hm⟩)
  refine ⟨?_, ?_, ?_, ?_, ?_, h.nodupMon, ?_, ?_, ?_, ?_, ?_⟩
  · intro x hxs
    by_cases hxt : x = t
    · subst hxt; exact hcr
    · exact h.created x (hxs.imp (fun hm => by rw [hp]; simp [hm]) (hw x hxt).mp)
  · intro x hxn
    have hxt : x ≠ t := by omega
    rw [Function.update_of_ne hxt]
    exact h.fresh x hxn
  · intro x h1 hn hxw
    have hxt : x ≠ t := fun hc => hxw (hc ▸ htw)
    rw [Function.update_of_ne hxt, hcx x hxt]
    exact h.countFree x h1 hn fun hc => hxw ((hw x hxt).mpr hc)
  · intro x hxw
    by_cases hxt : x = t
    · subst hxt
      rw [Function.update_self, hct]
      rfl
    · rw [Function.update_of_ne hxt, hcx x hxt]
      exact h.countWaits x ((hw x hxt).mp hxw)
  · intro l'
    by_cases hl : l' = l
    · subst hl
      rw [Function.update_self, hq]
      refine List.nodup_append.mpr ⟨h.nodupLock l', List.nodup_cons.mpr ⟨by simp, List.nodup_nil⟩, ?_⟩
      intro a ha b hb hab
      have hbt : b = t := by simpa using hb
      rw [hab, hbt] at ha
      exact hnw (Or.inr ⟨l', ha⟩)
    · rw [Function.update_of_ne hl]
      exact h.nodupLock l'
  · intro x m hm
    have hxt : x ≠ t := fun hc => hnw (Or.inl ⟨m, hc ▸ hm⟩)
    rw [Function.update_of_ne hxt]
    exact h.atMon x m hm
  · intro x l' hm
    by_cases hxt : x = t
    · subst hxt
      rw [Function.update_self, htl l' hm]
      rfl
    · rw [Function.update_of_ne hxt]
      exact h.atLock x l' ((hother l' x hxt).mp hm)
  · intro x m hm
    have hxt : x ≠ t := fun hc => hnw (Or.inl ⟨m, hc ▸ hm⟩)
    rw [hother _ x hxt]
    exact h.disjoint x m hm
  · intro x l' h1 hn hneed hxw
    have hxt : x ≠ t := fun hc => hxw (hc ▸ htw)
    rw [Function.update_of_ne hxt] at hneed
    have hox := h.owner x l' h1 hn hneed fun hc => hxw ((hw x hxt).mpr hc)
    by_cases hl : l' = l
    · subst hl; rw [Function.update_self, hv]; exact hox
    · rw [Function.update_of_ne hl]; exact hox
  · intro l' hnone
    by_cases hl : l' = l
    · subst hl
      rw [Function.update_self, hv] at hnone
      exact absurd hnone htaken
    · rw [Function.update_of_ne hl] at hnone ⊢
      exact h.empty l' hnone

/-- A thread in user code registers as a waiter of a monitor; it stays in its slot. -/
theorem register (h : Placed sl pt lk mn n) {t : Nat} {m : Nat} (hmem : t ∈ sl)
    (ht : (pt t).needs = none) (hx : (pt t).extra = 0) :
    Placed sl (Function.update pt t (.unlockInWait m)) lk
      (Function.update mn m (mn m ++ [t])) n := by
  have hcr := h.created t (Or.inl hmem)
  have hnw := h.not_waits ht
  have htw : Waits lk (Function.update mn m (mn m ++ [t])) t :=
    Or.inl ⟨m, by rw [Function.update_self]; simp⟩
  have hother : ∀ m' x, x ≠ t →
      (x ∈ Function.update mn m (mn m ++ [t]) m' ↔ x ∈ mn m') := by
    intro m' x hxt
    by_cases hm : m' = m
    · subst hm; rw [Function.update_self]; simp [hxt]
    · rw [Function.update_of_ne hm]
  have hw : ∀ x, x ≠ t → (Waits lk (Function.update mn m (mn m ++ [t])) x ↔ Waits lk mn x) :=
    fun x hxt => or_congr_left (exists_congr fun m' => hother m' x hxt)
  have htm : ∀ m', t ∈ Function.update mn m (mn m ++ [t]) m' → m' = m := by
    intro m' hm
    by_contra hc
    rw [Function.update_of_ne hc] at hm
    exact hnw (Or.inl ⟨m', hm⟩)
  refine ⟨?_, ?_, ?_, ?_, h.nodupLock, ?_, ?_, ?_, ?_, ?_, h.empty⟩
  · intro x hxs
    by_cases hxt : x = t
    · subst hxt; exact hcr
    · exact h.created x (hxs.imp_right (hw x hxt).mp)
  · intro x hxn
    have hxt : x ≠ t := by omega
    rw [Function.update_of_ne hxt]
    exact h.fresh x hxn
  · intro x h1 hn hxw
    have hxt : x ≠ t := fun hc => hxw (hc ▸ htw)
    rw [Function.update_of_ne hxt]
    exact h.countFree x h1 hn fun hc => hxw ((hw x hxt).mpr hc)
  · intro x hxw
    by_cases hxt : x = t
    · subst hxt
      rw [Function.update_self, h.countFree x hcr.1 hcr.2 hnw, hx]
      rfl
    · rw [Function.update_of_ne hxt]
      exact h.countWaits x ((hw x hxt).mp hxw)
  · intro m'
    by_cases hm : m' = m
    · subst hm
      rw [Function.update_self]
      refine List.nodup_append.mpr ⟨h.nodupMon m', List.nodup_cons.mpr ⟨by simp, List.nodup_nil⟩, ?_⟩
      intro a ha b hb hab
      have hbt : b = t := by simpa using hb
      rw [hab, hbt] at ha
      exact hnw (Or.inl ⟨m', ha⟩)
    · rw [Function.update_of_ne hm]
      exact h.nodupMon m'
  · intro x m' hm
    by_cases hxt : x = t
    · subst hxt
      rw [Function.update_self, htm m' hm]
      exact Or.inr rfl
    · rw [Function.update_of_ne hxt]
      exact h.atMon x m' ((hother m' x hxt).mp hm)
  · intro x l hm
    have hxt : x ≠ t := fun hc => hnw (Or.inr ⟨l, hc ▸ hm⟩)
    rw [Function.update_of_ne hxt]
    exact h.atLock x l hm
  · intro x m' hm hc
    by_cases hxt : x = t
    · subst hxt; exact hnw (Or.inr ⟨_, hc⟩)
    · exact h.disjoint x m' ((hother m' x hxt).mp hm) hc
  · intro x l h1 hn hneed hxw
    have hxt : x ≠ t := fun hc => hxw (hc ▸ htw)
    rw [Function.update_of_ne hxt] at hneed
    exact h.owner x l h1 hn hneed fun hc => hxw ((hw x hxt).mpr hc)

/-- A signal moves the head of a monitor's queue to the end of its lock's queue. -/
theorem signal (h : Placed sl pt lk mn n) {u : Tid} {m : Nat} {rest : List Tid} {v : Mutex}
    (hmon : mn m = u :: rest) (hv : v.thr = (lk (.monitor m)).thr)
    (htaken : (lk (.monitor m)).thr ≠ none) (hq : v.queue = (lk (.monitor m)).queue ++ [u]) :
    Placed sl pt (Function.update lk (.monitor m) v) (Function.update mn m rest) n := by
  have hum : u ∈ mn m := by rw [hmon]; simp
  have hndm := h.nodupMon m
  rw [hmon, List.nodup_cons] at hndm
  have hpt := h.atMon u m hum
  have hneed : (pt u).needs = some (.monitor m) := by rcases hpt with hp | hp <;> rw [hp] <;> rfl
  have hqueue : ∀ l x, x ≠ u →
      (x ∈ (Function.update lk (.monitor m) v l).queue ↔ x ∈ (lk l).queue) := by
    intro l x hxu
    by_cases hl : l = .monitor m
    · subst hl; rw [Function.update_self, hq]; simp [hxu]
    · rw [Function.update_of_ne hl]
  have hmons : ∀ m' x, x ≠ u → (x ∈ Function.update mn m rest m' ↔ x ∈ mn m') := by
    intro m' x hxu
    by_cases hm : m' = m
    · subst hm; rw [Function.update_self, hmon]; simp [hxu]
    · rw [Function.update_of_ne hm]
  have huw : Waits lk mn u := Or.inl ⟨m, hum⟩
  have huw' : Waits (Function.update lk (.monitor m) v) (Function.update mn m rest) u :=
    Or.inr ⟨.monitor m, by rw [Function.update_self, hq]; simp⟩
  have hw : ∀ x, Waits (Function.update lk (.monitor m) v) (Function.update mn m rest) x ↔
      Waits lk mn x := by
    intro x
    by_cases hxu : x = u
    · subst hxu; exact ⟨fun _ => huw, fun _ => huw'⟩
    · exact or_congr (exists_congr fun m' => hmons m' x hxu)
        (exists_congr fun l => hqueue l x hxu)
  have hunm : ∀ m', u ∉ Function.update mn m rest m' := by
    intro m' hm'
    by_cases hm : m' = m
    · subst hm
      rw [Function.update_self] at hm'
      exact hndm.1 hm'
    · rw [Function.update_of_ne hm] at hm'
      rcases h.atMon u m' hm' with hp | hp <;> rw [hp] at hneed <;>
        exact hm (by simpa [Point.needs] using hneed)
  refine ⟨?_, h.fresh, ?_, ?_, ?_, ?_, ?_, ?_, ?_, ?_, ?_⟩
  · intro x hx
    exact h.created x (hx.imp_right (hw x).mp)
  · intro x h1 hn hx
    exact h.countFree x h1 hn fun hc => hx ((hw x).mpr hc)
  · intro x hx
    exact h.countWaits x ((hw x).mp hx)
  · intro l
    by_cases hl : l = .monitor m
    · subst hl
      rw [Function.update_self, hq]
      refine List.nodup_append.mpr ⟨h.nodupLock _, List.nodup_cons.mpr ⟨by simp, List.nodup_nil⟩, ?_⟩
      intro a ha b hb hab
      have hbu : b = u := by simpa using hb
      rw [hab, hbu] at ha
      exact h.disjoint u m hum ha
    · rw [Function.update_of_ne hl]
      exact h.nodupLock l
  · intro m'
    by_cases hm : m' = m
    · subst hm; rw [Function.update_self]; exact hndm.2
    · rw [Function.update_of_ne hm]; exact h.nodupMon m'
  · intro x m' hx
    have hxu : x ≠ u := fun hc => hunm m' (hc ▸ hx)
    exact h.atMon x m' ((hmons m' x hxu).mp hx)
  · intro x l hx
    by_cases hxu : x = u
    · subst hxu
      by_cases hl : l = .monitor m
      · rw [hl]; exact hneed
      · rw [Function.update_of_ne hl] at hx
        exact h.atLock x l hx
    · exact h.atLock x l ((hqueue l x hxu).mp hx)
  · intro x m' hx
    have hxu : x ≠ u := fun hc => hunm m' (hc ▸ hx)
    rw [hqueue _ x hxu]
    exact h.disjoint x m' ((hmons m' x hxu).mp hx)
  · intro x l h1 hn hxneed hx
    have hox := h.owner x l h1 hn hxneed fun hc => hx ((hw x).mpr hc)
    by_cases hl : l = .monitor m
    · subst hl; rw [Function.update_self, hv]; exact hox
    · rw [Function.update_of_ne hl]; exact hox
  · intro l hnone
    by_cases hl : l = .monitor m
    · subst hl
      rw [Function.update_self, hv] at hnone
      exact absurd hnone htaken
    · rw [Function.update_of_ne hl] at hnone ⊢
      exact h.empty l hnone

end Placed

end Sthreads.User
