/-
Producer and consumers do not stall.

They wait in one queue and every signal wakes its oldest thread, whichever side it is
on.  That no wake-up is lost rests on the size of the ring: a consumer waits when the ring
is empty, every put after that wakes a consumer as long as one waits, and there are not
more consumers than cells.  So when the ring is full nobody waits, the producer then waits
alone, and the next fetch wakes it.  While a consumer waits, the signals of the puts went
to consumers, and as many of them as there are requests are on their way.
-/
import Sthreads.Proofs.Server.RingOrder
import Mathlib.Data.Fintype.Card

namespace Sthreads.Server

variable {K C B R : Type}

/-- A consumer, not the producer. -/
def Thread.isConsumer : Thread K → Bool
  | .producer => false
  | .consumer _ => true

/-- The threads that are somewhere in the ring's monitor. -/
def Ring.inside (s : Ring K C B R) : Thread K → Prop
  | .producer => s.producer ≠ .idle
  | .consumer k => s.consumer k = .loop

/-- The consumers that own the monitor or stand in its entry queue. -/
def Ring.onTheWay (s : Ring K C B R) : Nat := s.mon.present.countP Thread.isConsumer

/-- Wake-ups are on their way: to the producer, or to as many consumers as there are requests. -/
structure Flowing [Fintype K] (s : Ring K C B R) : Prop where
  holds : s.mon.Holds s.inside
  full : .producer ∈ s.mon.waiting → s.mon.waiting = [.producer] ∧ s.availableReqs = ringSize
  woken : .producer ∉ s.mon.waiting → s.mon.waiting ≠ [] → s.availableReqs ≤ s.onTheWay
  few : .producer ∉ s.mon.waiting → s.mon.waiting = [] ∨
    s.mon.waiting.length + s.availableReqs ≤ Fintype.card K

/-- A queue of consumers without repetitions is not longer than there are consumers. -/
theorem length_le_card [Fintype K] [DecidableEq K] {l : List (Thread K)} (hnd : l.Nodup)
    (hp : .producer ∉ l) : l.length ≤ Fintype.card K := by
  have hsub : l.toFinset ⊆ Finset.univ.image Thread.consumer := by
    intro t ht
    have hmem := List.mem_toFinset.mp ht
    cases t with
    | producer => exact absurd hmem hp
    | consumer k => exact Finset.mem_image.mpr ⟨k, Finset.mem_univ k, rfl⟩
  rw [← List.toFinset_card_of_nodup hnd]
  exact (Finset.card_le_card hsub).trans Finset.card_image_le

namespace Flowing

variable [Fintype K] {s s' : Ring K C B R}

theorem init : Flowing (Ring.init : Ring K C B R) where
  holds := Monitor.Holds.empty.congr fun t => by
    cases t with
    | producer => simp [Ring.inside, Ring.init]
    | consumer k => simp [Ring.inside, Ring.init]
  full h := by cases h
  woken _ h := absurd rfl h
  few _ := Or.inl rfl

/-- A newcomer stands behind those present. -/
theorem enter (h : Flowing s) {t : Thread K} (ht : ¬ s.inside t)
    (hmon : s'.mon = s.mon.enter t) (ha : s'.availableReqs = s.availableReqs)
    (hin : ∀ u, s'.inside u ↔ u = t ∨ s.inside u) : Flowing s' := by
  have hw : s'.mon.waiting = s.mon.waiting := by rw [hmon, Monitor.enter_waiting]
  have hon : s.onTheWay ≤ s'.onTheWay := by
    rw [Ring.onTheWay, Ring.onTheWay, hmon, Monitor.enter_present h.holds.wf, List.countP_append]
    omega
  constructor
  · rw [hmon]; exact (h.holds.enter ht).congr hin
  · rw [hw, ha]; exact h.full
  · rw [hw, ha]
    intro hp hne
    have := h.woken hp hne
    omega
  · rw [hw, ha]; exact h.few

/-- Nothing the invariant speaks of changes. -/
theorem same (h : Flowing s) (hmon : s'.mon = s.mon) (ha : s'.availableReqs = s.availableReqs)
    (hin : ∀ u, s'.inside u ↔ s.inside u) : Flowing s' := by
  have hon : s'.onTheWay = s.onTheWay := by rw [Ring.onTheWay, Ring.onTheWay, hmon]
  constructor
  · rw [hmon]; exact h.holds.congr hin
  · rw [hmon, ha]; exact h.full
  · rw [hmon, ha, hon]; exact h.woken
  · rw [hmon, ha]; exact h.few

/-- A consumer finds the ring empty, so the producer is not among the waiters it joins. -/
theorem consumerWaits [DecidableEq K] (h : Flowing s) {k : K}
    (ho : s.mon.owner = some (.consumer k)) (ha : s.availableReqs = 0)
    (hmon : s'.mon = s.mon.wait (.consumer k)) (ha' : s'.availableReqs = s.availableReqs)
    (hin : ∀ u, s'.inside u ↔ s.inside u) : Flowing s' := by
  have hw : s'.mon.waiting = s.mon.waiting ++ [.consumer k] := by
    rw [hmon, Monitor.wait_waiting]
  have hp : Thread.producer ∉ s'.mon.waiting := by
    rw [hw]
    intro hmem
    rcases List.mem_append.mp hmem with hmem | hmem
    · have hfull := (h.full hmem).2
      rw [ha] at hfull
      cases hfull
    · cases List.mem_singleton.mp hmem
  have hholds : s'.mon.Holds s'.inside := by
    rw [hmon]
    exact (h.holds.wait ho).congr hin
  constructor
  · exact hholds
  · exact fun hmem => absurd hmem hp
  · intro _ _
    omega
  · intro _
    have hlen := length_le_card (List.nodup_append.mp hholds.nodup).2.1 hp
    exact Or.inr (by omega)

/-- A fetch wakes the producer if it waits, and otherwise passes its own turn on to a consumer. -/
theorem fetches (h : Flowing s) {k : K} (ho : s.mon.owner = some (.consumer k))
    (hmon : s'.mon = s.mon.signal.exit)
    (ha' : s'.availableReqs = s.availableReqs - 1)
    (hin : ∀ u, s'.inside u ↔ s.inside u ∧ u ≠ .consumer k) : Flowing s' := by
  have hso : s.mon.signal.owner = some (.consumer k) := by rw [Monitor.signal_owner, ho]
  have hpres : s.mon.present ++ s.mon.waiting.take 1 = .consumer k :: s'.mon.present := by
    rw [hmon, ← Monitor.signal_present]
    exact Monitor.exit_present hso
  have hw : s'.mon.waiting = s.mon.waiting.drop 1 := by
    rw [hmon, Monitor.exit_waiting, Monitor.signal_waiting]
  have hcount : s.onTheWay + (s.mon.waiting.take 1).countP Thread.isConsumer =
      s'.onTheWay + 1 := by
    rw [Ring.onTheWay, Ring.onTheWay, ← List.countP_append, hpres, List.countP_cons]
    rfl
  have hp : Thread.producer ∉ s'.mon.waiting := by
    rw [hw]
    intro hmem
    have hfull := (h.full (List.mem_of_mem_drop hmem)).1
    rw [hfull] at hmem
    cases hmem
  have hold : s'.mon.waiting ≠ [] → Thread.producer ∉ s.mon.waiting := by
    rw [hw]
    intro hne hmem
    rw [(h.full hmem).1] at hne
    exact hne rfl
  constructor
  · rw [hmon]
    exact ((h.holds.signal ho).exit hso).congr hin
  · exact fun hmem => absurd hmem hp
  · intro _ hne
    have hpo := hold hne
    cases hwait : s.mon.waiting with
    | nil => rw [hw, hwait] at hne; exact absurd rfl hne
    | cons w rest =>
        -- the thread woken is a consumer: the count of those on the way stays
        have hwoken := h.woken hpo (by rw [hwait]; exact List.cons_ne_nil _ _)
        have hwc : w.isConsumer = true := by
          cases w with
          | producer => rw [hwait] at hpo; exact absurd List.mem_cons_self hpo
          | consumer k' => rfl
        have hone : (s.mon.waiting.take 1).countP Thread.isConsumer = 1 := by
          rw [hwait, List.take_succ_cons, List.take_zero, List.countP_singleton, if_pos hwc]
        omega
  · intro _
    by_cases hne : s'.mon.waiting = []
    · exact Or.inl hne
    · have hlen : s'.mon.waiting.length = s.mon.waiting.length - 1 := by rw [hw, List.length_drop]
      rcases h.few (hold hne) with hnil | hfew
      · rw [hw, hnil] at hne
        exact absurd rfl hne
      · exact Or.inr (by omega)

/-- A full ring has no consumer waiting, so the producer waits alone. -/
theorem producerWaits (h : Flowing s) (hcard : Fintype.card K ≤ ringSize)
    (ho : s.mon.owner = some .producer) (ha : s.availableReqs = ringSize)
    (hmon : s'.mon = s.mon.wait .producer) (ha' : s'.availableReqs = s.availableReqs)
    (hin : ∀ u, s'.inside u ↔ s.inside u) : Flowing s' := by
  have hnd := h.holds.nodup
  rw [Monitor.wait_present ho, List.cons_append, List.nodup_cons, List.mem_append, not_or] at hnd
  have hnil : s.mon.waiting = [] := by
    rcases h.few hnd.1.2 with hnil | hfew
    · exact hnil
    · rw [ha] at hfew
      exact List.length_eq_zero_iff.mp (by omega)
  have hw : s'.mon.waiting = [.producer] := by rw [hmon, Monitor.wait_waiting, hnil]; rfl
  have hmem : Thread.producer ∈ s'.mon.waiting := by rw [hw]; exact List.mem_singleton_self _
  constructor
  · rw [hmon]
    exact (h.holds.wait ho).congr hin
  · exact fun _ => ⟨hw, by rw [ha', ha]⟩
  · exact fun hp => absurd hmem hp
  · exact fun hp => absurd hmem hp

/-- The producer leaves: with a put, which wakes a consumer if one waits, or without. -/
theorem producerLeaves (h : Flowing s) (ho : s.mon.owner = some .producer) (puts : Bool)
    (hmon : s'.mon = if puts then s.mon.signal.exit else s.mon.exit)
    (ha' : s'.availableReqs = s.availableReqs + puts.toNat)
    (hin : ∀ u, s'.inside u ↔ s.inside u ∧ u ≠ .producer) : Flowing s' := by
  have hnd := h.holds.nodup
  rw [Monitor.exit_present ho, List.cons_append, List.nodup_cons, List.mem_append, not_or] at hnd
  have hpo : Thread.producer ∉ s.mon.waiting := hnd.1.2
  have hso : s.mon.signal.owner = some .producer := by rw [Monitor.signal_owner, ho]
  have hpres : s.mon.present ++ s.mon.waiting.take puts.toNat = .producer :: s'.mon.present := by
    rw [hmon]
    cases puts with
    | false => simpa using Monitor.exit_present ho
    | true =>
        rw [Bool.toNat_true, ← Monitor.signal_present, if_pos rfl]
        exact Monitor.exit_present hso
  have hw : s'.mon.waiting = s.mon.waiting.drop puts.toNat := by
    rw [hmon]
    cases puts with
    | false => simp
    | true => simp [Monitor.signal_waiting]
  have hp : Thread.producer ∉ s'.mon.waiting := by
    rw [hw]
    exact fun hmem => hpo (List.mem_of_mem_drop hmem)
  have hcount : s.onTheWay + (s.mon.waiting.take puts.toNat).countP Thread.isConsumer =
      s'.onTheWay := by
    rw [Ring.onTheWay, Ring.onTheWay, ← List.countP_append, hpres, List.countP_cons]
    rfl
  have htake : s'.mon.waiting ≠ [] →
      (s.mon.waiting.take puts.toNat).countP Thread.isConsumer = puts.toNat ∧
        s'.mon.waiting.length + puts.toNat = s.mon.waiting.length := by
    intro hne
    rw [hw] at hne ⊢
    have hlt : puts.toNat < s.mon.waiting.length := by
      by_contra hge
      exact hne (List.drop_of_length_le (by omega))
    constructor
    · have hall : ∀ t ∈ s.mon.waiting.take puts.toNat, Thread.isConsumer t = true := by
        intro t ht
        cases t with
        | producer => exact absurd (List.mem_of_mem_take ht) hpo
        | consumer k => rfl
      rw [List.countP_eq_length.mpr hall, List.length_take]
      omega
    · rw [List.length_drop]
      omega
  constructor
  · rw [hmon]
    cases puts with
    | false => exact (h.holds.exit ho).congr hin
    | true => exact ((h.holds.signal ho).exit hso).congr hin
  · exact fun hmem => absurd hmem hp
  · intro _ hne
    obtain ⟨hone, -⟩ := htake hne
    have hne' : s.mon.waiting ≠ [] := fun hnil => hne (by rw [hw, hnil, List.drop_nil])
    have := h.woken hpo hne'
    omega
  · intro _
    by_cases hne : s'.mon.waiting = []
    · exact Or.inl hne
    · obtain ⟨-, hlen⟩ := htake hne
      rcases h.few hpo with hnil | hfew
      · rw [hw, hnil, List.drop_nil] at hne
        exact absurd rfl hne
      · exact Or.inr (by omega)

/-- One step, with not more consumers than cells. -/
theorem step [DecidableEq K] (hcard : Fintype.card K ≤ ringSize) {res₀ : MsgRes R}
    {a : Ring.Act K C B R} (h : Flowing s) (hord : Order s)
    (hs : Ring.step res₀ s a = some s') : Flowing s' := by
  cases Ring.step_cases hs with
  | producerEnters hpc hs =>
      subst hs
      refine h.enter (t := .producer) (fun hin => hin hpc) rfl rfl fun u => ?_
      cases u <;> simp [Ring.inside]
  | consumerEnters k hpc hs =>
      subst hs
      refine h.enter (t := .consumer k) (fun hin => ?_) rfl rfl fun u => ?_
      · rw [Ring.inside, hpc] at hin
        cases hin
      · cases u with
        | producer => simp [Ring.inside]
        | consumer k' => by_cases hk : k' = k <;> simp [Ring.inside, hk, Function.update_of_ne]
  | consumerWaits k ho hpc ha hs =>
      subst hs
      refine h.consumerWaits ho ha rfl rfl fun u => ?_
      cases u with
      | producer => rfl
      | consumer k' => by_cases hk : k' = k <;> simp [Ring.inside, hk, hpc, Function.update_of_ne]
  | consumerFetches k ho hpc ha hs =>
      subst hs
      refine h.fetches ho rfl rfl fun u => ?_
      cases u with
      | producer => simp [Ring.inside]
      | consumer k' => by_cases hk : k' = k <;> simp [Ring.inside, hk, Function.update_of_ne]
  | producerWaits ho hpc ha hs =>
      subst hs
      refine h.producerWaits hcard ho ha rfl rfl fun u => ?_
      cases u <;> simp [Ring.inside, hpc]
  | producerStays ho hpc ha hs =>
      subst hs
      refine h.same rfl rfl fun u => ?_
      cases u <;> simp [Ring.inside, hpc]
  | receivesEmpty hpc hs =>
      subst hs
      refine h.producerLeaves (hord.receiving hpc).1 false rfl (by simp) fun u => ?_
      cases u <;> simp [Ring.inside]
  | receives p d hpc hp hs =>
      subst hs
      refine h.producerLeaves (hord.receiving hpc).1 true rfl rfl fun u => ?_
      cases u <;> simp [Ring.inside]
  | answers k p d d' res ressz hpc hd hsn hs =>
      subst hs
      refine h.same rfl rfl fun u => ?_
      cases u with
      | producer => rfl
      | consumer k' => by_cases hk : k' = k <;> simp [Ring.inside, hk, hpc, Function.update_of_ne]
  | frees k p hpc hs =>
      subst hs
      refine h.same rfl rfl fun u => ?_
      cases u with
      | producer => rfl
      | consumer k' => by_cases hk : k' = k <;> simp [Ring.inside, hk, hpc, Function.update_of_ne]

/-- With nobody in or before the monitor, no side waits while it could go on. -/
theorem not_stalled [Nonempty K] (h : Flowing s) (hfree : s.mon.owner = none)
    (hentry : s.mon.entry = []) :
    ¬ (.producer ∈ s.mon.waiting ∧ s.availableReqs < ringSize) ∧
      ¬ ((∀ k, .consumer k ∈ s.mon.waiting) ∧ 0 < s.availableReqs) := by
  have hon : s.onTheWay = 0 := by
    rw [Ring.onTheWay, Monitor.present_eq_nil.mpr ⟨hfree, hentry⟩, List.countP_nil]
  constructor
  · rintro ⟨hmem, hlt⟩
    rw [(h.full hmem).2] at hlt
    exact lt_irrefl _ hlt
  · rintro ⟨hall, hpos⟩
    obtain ⟨k⟩ := ‹Nonempty K›
    have hp : Thread.producer ∉ s.mon.waiting := by
      intro hmem
      have hk := hall k
      rw [(h.full hmem).1] at hk
      cases List.mem_singleton.mp hk
    have hwoken := h.woken hp (List.ne_nil_of_mem (hall k))
    omega

end Flowing

/-- Producer and consumers do not stall: `NUM_TC` consumers, `RING_SIZE` cells. -/
theorem ring_never_stalls {res₀ : MsgRes R} {s : Ring (Fin numTc) C B R}
    (h : Reaches (Ring.step res₀) Ring.init s) (hfree : s.mon.owner = none)
    (hentry : s.mon.entry = []) :
    ¬ (.producer ∈ s.mon.waiting ∧ s.availableReqs < ringSize) ∧
      ¬ ((∀ k, .consumer k ∈ s.mon.waiting) ∧ 0 < s.availableReqs) := by
  obtain ⟨tr, htr⟩ := h
  have hinv : Order s ∧ Flowing s :=
    htr.invariant (fun s => Order s ∧ Flowing s) ⟨Order.init, Flowing.init⟩
      fun _ _ _ h hs => ⟨h.1.step hs, h.2.step (by decide) h.1 hs⟩
  have : Nonempty (Fin numTc) := ⟨⟨0, by decide⟩⟩
  exact hinv.2.not_stalled hfree hentry

/-- Every consumer finds the ring empty and waits, a request comes, and one of them fetches it. -/
theorem ring_never_stalls_one_request :
    ∃ s : Ring (Fin numTc) Nat Unit Unit,
      (s.mon.waiting.length = 4 ∧ s.availableReqs = 0) ∧
      ¬ (.producer ∈ s.mon.waiting ∧ s.availableReqs < ringSize) := by
  have hrun : (runActs (Ring.step ⟨0, 0, 0, ()⟩) (Ring.init : Ring (Fin numTc) Nat Unit Unit)
      ((List.finRange numTc).flatMap (fun k => [.enterConsumer k, .body]) ++
        [.enterProducer, .body, .receive 0 (some ⟨⟨1, 0, ()⟩, 40, 264⟩), .body, .body])).map
      (fun s => (s.mon.waiting.length, s.availableReqs, s.mon.owner, s.mon.entry)) =
        some (4, 0, none, []) := by
    decide
  obtain ⟨s, hs, hfacts⟩ := Option.map_eq_some_iff.mp hrun
  simp only [Prod.mk.injEq] at hfacts
  obtain ⟨hlen, ha, ho, he⟩ := hfacts
  exact ⟨s, ⟨hlen, ha⟩, (ring_never_stalls (reaches_runActs _ hs) ho he).1⟩

end Sthreads.Server
