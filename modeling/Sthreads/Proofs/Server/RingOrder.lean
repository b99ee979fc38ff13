/-
The request ring hands every request over once, in order.

`Order` links the two cursors, the counter, the cells of the ring and the heap to the
descriptors put so far: those not yet fetched are the last ones put, they stand in the
ring in that order, and their descriptors are allocated, apart from each other and from
the ones the consumers hold.  What each consumer has done is a sequence of turns, the
last one perhaps unfinished.
-/
import Sthreads.Lib.RingBuffer
import Sthreads.Server.Ring
import Mathlib.Tactic.Common

namespace Sthreads.Server

variable {K C B R : Type}

namespace Ring

/-! ### The events of a step -/

/-- The descriptors put and not yet fetched. -/
def pending (s : Ring K C B R) : List (Nat × Req C B) := s.puts.drop s.gets.length

theorem response_sn (res₀ : MsgRes R) (d : Req C B) (res : MsgRes R) (ressz : Nat) :
    (response res₀ d res ressz).1.sn = d.req.sn := by
  unfold response
  split <;> rfl

variable [DecidableEq K]

/-- The ten ways a step ends. -/
inductive StepCase (res₀ : MsgRes R) (s s' : Ring K C B R) : Prop
  | producerEnters (hpc : s.producer = .idle)
      (hs : s' = { s with mon := s.mon.enter .producer, producer := .loop })
  | consumerEnters (k : K) (hpc : s.consumer k = .idle)
      (hs : s' = { s with
        mon := s.mon.enter (.consumer k), consumer := Function.update s.consumer k .loop })
  | consumerWaits (k : K) (ho : s.mon.owner = some (.consumer k)) (hpc : s.consumer k = .loop)
      (ha : s.availableReqs = 0)
      (hs : s' = { s with
        mon := s.mon.wait (.consumer k), consumer := Function.update s.consumer k .loop })
  | consumerFetches (k : K) (ho : s.mon.owner = some (.consumer k))
      (hpc : s.consumer k = .loop) (ha : s.availableReqs ≠ 0)
      (hs : s' = { s with
        getPos := (s.getPos + 1) % ringSize
        availableReqs := s.availableReqs - 1
        mon := s.mon.signal.exit
        consumer := Function.update s.consumer k (.serving (s.ring s.getPos))
        events := s.events ++ [.get k (s.deref (s.ring s.getPos))] })
  | producerWaits (ho : s.mon.owner = some .producer) (hpc : s.producer = .loop)
      (ha : s.availableReqs = ringSize)
      (hs : s' = { s with mon := s.mon.wait .producer, producer := .loop })
  | producerStays (ho : s.mon.owner = some .producer) (hpc : s.producer = .loop)
      (ha : s.availableReqs ≠ ringSize) (hs : s' = { s with producer := .receiving })
  | receivesEmpty (hpc : s.producer = .receiving)
      (hs : s' = { s with mon := s.mon.exit, producer := .idle })
  | receives (p : Nat) (d : Req C B) (hpc : s.producer = .receiving) (hp : s.heap p = none)
      (hs : s' = { s with
        ring := Function.update s.ring s.putPos (some p)
        putPos := (s.putPos + 1) % ringSize
        heap := Function.update s.heap p (some d)
        availableReqs := s.availableReqs + 1
        mon := s.mon.signal.exit
        producer := .idle
        events := s.events ++ [.put p d] })
  | answers (k : K) (p : Nat) (d d' : Req C B) (res : MsgRes R) (ressz : Nat)
      (hpc : s.consumer k = .serving (some p)) (hd : s.heap p = some d)
      (hsn : res.sn = d.req.sn)
      (hs : s' = { s with
        heap := Function.update s.heap p (some d')
        consumer := Function.update s.consumer k (.sent p)
        events := s.events ++ [.send k d.cliaddr res ressz] })
  | frees (k : K) (p : Nat) (hpc : s.consumer k = .sent p)
      (hs : s' = { s with
        heap := Function.update s.heap p none
        consumer := Function.update s.consumer k .idle
        events := s.events ++ [.free k p] })

theorem step_cases {res₀ : MsgRes R} {s s' : Ring K C B R} {a : Act K C B R}
    (hs : step res₀ s a = some s') : StepCase res₀ s s' := by
  cases a with
  | enterProducer =>
      simp only [step] at hs
      split at hs
      · rename_i hpc
        exact .producerEnters hpc (Option.some.inj hs).symm
      · cases hs
  | enterConsumer k =>
      simp only [step] at hs
      split at hs
      · rename_i hpc
        exact .consumerEnters k hpc (Option.some.inj hs).symm
      · cases hs
  | body =>
      simp only [step] at hs
      split at hs
      · rename_i k ho
        split at hs
        · rename_i hpc
          have hs := (Option.some.inj hs).symm
          unfold consumerBody at hs
          split at hs
          · rename_i ha
            exact .consumerWaits k ho hpc ha hs
          · rename_i ha
            exact .consumerFetches k ho hpc ha hs
        · cases hs
      · rename_i ho
        split at hs
        · rename_i hpc
          have hs := (Option.some.inj hs).symm
          unfold producerBody at hs
          split at hs
          · rename_i ha
            exact .producerWaits ho hpc ha hs
          · rename_i ha
            exact .producerStays ho hpc ha hs
        · cases hs
      · cases hs
  | receive p d =>
      simp only [step] at hs
      split at hs
      · rename_i hpc hp
        have hs := (Option.some.inj hs).symm
        cases d with
        | none => exact .receivesEmpty hpc hs
        | some d => exact .receives p d hpc hp hs
      · cases hs
  | answer k body res ressz =>
      simp only [step] at hs
      split at hs
      · rename_i p hpc
        obtain ⟨d, hd, hs⟩ := Option.map_eq_some_iff.mp hs
        exact .answers k p d _ _ _ hpc hd (response_sn res₀ d res ressz) hs.symm
      · cases hs
  | free k =>
      simp only [step] at hs
      split at hs
      · rename_i p hpc
        exact .frees k p hpc (Option.some.inj hs).symm
      · cases hs

omit [DecidableEq K] in
theorem puts_snoc {s s' : Ring K C B R} {e : Event K C B R} (h : s'.events = s.events ++ [e]) :
    s'.puts = s.puts ++ e.asPut.toList := by
  rw [puts, puts, h, List.filterMap_append]
  cases e <;> rfl

omit [DecidableEq K] in
theorem gets_snoc {s s' : Ring K C B R} {e : Event K C B R} (h : s'.events = s.events ++ [e]) :
    s'.gets = s.gets ++ e.asGet.toList := by
  rw [gets, gets, h, List.filterMap_append]
  cases e <;> rfl

theorem doneBy_snoc {s s' : Ring K C B R} {e : Event K C B R} (h : s'.events = s.events ++ [e])
    (k : K) : s'.doneBy k = s.doneBy k ++ if e.isOf k then [e] else [] := by
  rw [doneBy, doneBy, h, List.filter_append]
  rw [List.filter_cons, List.filter_nil]

end Ring

/-! ### The invariant -/

/-- The descriptor a consumer has in its hands. -/
def ConsumerPc.holds : ConsumerPc → Option Nat
  | .serving reqD => reqD
  | .sent p => some p
  | _ => none

/-- What consumer `k` has done when it is at this program point: whole turns, and part of one. -/
def History (k : K) (heap : Nat → Option (Req C B)) (evs : List (Event K C B R)) :
    ConsumerPc → Prop
  | .serving reqD => ∃ (ts : List (Turn C B R)) (p : Nat) (d : Req C B), reqD = some p ∧
      heap p = some d ∧ evs = ts.flatMap (Turn.events k) ++ [.get k (some (p, d))]
  | .sent p => ∃ (ts : List (Turn C B R)) (t : Turn C B R), t.reqD = p ∧
      evs = ts.flatMap (Turn.events k) ++
        [.get k (some (t.reqD, t.req)), .send k t.req.cliaddr t.res t.ressz]
  | _ => ∃ ts : List (Turn C B R), evs = ts.flatMap (Turn.events k)

/-- Cursors, counter, cells and heap stand for the descriptors put and not yet fetched. -/
structure Order [DecidableEq K] (s : Ring K C B R) : Prop where
  getPos : s.getPos = s.gets.length % ringSize
  putPos : s.putPos = s.puts.length % ringSize
  few : s.gets.length ≤ s.puts.length
  avail : s.availableReqs = s.pending.length
  cells : InRing ringSize s.ring s.gets.length (s.pending.map Prod.fst)
  inOrder : s.gets = (s.puts.take s.gets.length).map some
  receiving : s.producer = .receiving → s.mon.owner = some .producer ∧ s.availableReqs ≠ ringSize
  live : ∀ e ∈ s.pending, s.heap e.1 = some e.2
  distinct : (s.pending.map Prod.fst).Nodup
  heldLive : ∀ k p, (s.consumer k).holds = some p → s.heap p ≠ none
  heldApart : ∀ k p, (s.consumer k).holds = some p → p ∉ s.pending.map Prod.fst
  heldOnce : ∀ k k' p, (s.consumer k).holds = some p → (s.consumer k').holds = some p → k = k'
  history : ∀ k, History k s.heap (s.doneBy k) (s.consumer k)

/-- A change of the heap where the consumer holds nothing does not concern its history. -/
theorem History.off {k : K} {heap : Nat → Option (Req C B)} {evs : List (Event K C B R)}
    {pc : ConsumerPc} (h : History k heap evs pc) {p : Nat} (hp : pc.holds ≠ some p)
    (o : Option (Req C B)) : History k (Function.update heap p o) evs pc := by
  cases pc with
  | serving reqD =>
      obtain ⟨ts, q, d, rfl, hq, hevs⟩ := h
      refine ⟨ts, q, d, rfl, ?_, hevs⟩
      rw [Function.update_of_ne fun he => hp (congrArg some he)]
      exact hq
  | _ => exact h

namespace Order

variable [DecidableEq K] {s s' : Ring K C B R}

theorem init : Order (Ring.init : Ring K C B R) where
  getPos := rfl
  putPos := rfl
  few := Nat.le_refl _
  avail := rfl
  cells := InRing.nil
  inOrder := rfl
  receiving h := by cases h
  live e he := by cases he
  distinct := List.nodup_nil
  heldLive k p h := by cases h
  heldApart k p h := by cases h
  heldOnce k k' p h := by cases h
  history k := ⟨[], rfl⟩

/-- A step that only moves threads in and out of the monitor. -/
theorem quiet (h : Order s) (hget : s'.getPos = s.getPos) (hput : s'.putPos = s.putPos)
    (havail : s'.availableReqs = s.availableReqs) (hring : s'.ring = s.ring)
    (hheap : s'.heap = s.heap) (hevs : s'.events = s.events)
    (hprod : s'.producer = .receiving →
      s'.mon.owner = some .producer ∧ s.availableReqs ≠ ringSize)
    (hcons : ∀ k, s'.consumer k = s.consumer k ∨
      (s.consumer k = .idle ∨ s.consumer k = .loop) ∧ s'.consumer k = .loop) : Order s' := by
  have hputs : s'.puts = s.puts := by rw [Ring.puts, Ring.puts, hevs]
  have hgets : s'.gets = s.gets := by rw [Ring.gets, Ring.gets, hevs]
  have hdone : ∀ k, s'.doneBy k = s.doneBy k := fun k => by rw [Ring.doneBy, Ring.doneBy, hevs]
  have hpend : s'.pending = s.pending := by rw [Ring.pending, Ring.pending, hputs, hgets]
  have hholds : ∀ k, (s'.consumer k).holds = (s.consumer k).holds := by
    intro k
    rcases hcons k with hk | ⟨hk | hk, hk'⟩
    · rw [hk]
    · rw [hk, hk']; rfl
    · rw [hk, hk']
  constructor
  · rw [hget, hgets]; exact h.getPos
  · rw [hput, hputs]; exact h.putPos
  · rw [hgets, hputs]; exact h.few
  · rw [havail, hpend]; exact h.avail
  · rw [hring, hgets, hpend]; exact h.cells
  · rw [hgets, hputs]; exact h.inOrder
  · rw [havail]; exact hprod
  · rw [hpend, hheap]; exact h.live
  · rw [hpend]; exact h.distinct
  · intro k p; rw [hholds, hheap]; exact h.heldLive k p
  · intro k p; rw [hholds, hpend]; exact h.heldApart k p
  · intro k k' p; rw [hholds, hholds]; exact h.heldOnce k k' p
  · intro k
    rw [hheap, hdone]
    have hk := h.history k
    rcases hcons k with he | ⟨he | he, he'⟩
    · rw [he]; exact hk
    · rw [he] at hk; rw [he']; exact hk
    · rw [he] at hk; rw [he']; exact hk

/-- A fetch takes the oldest pending descriptor. -/
theorem fetch (h : Order s) {k : K} (hpc : s.consumer k = .loop) (ha : s.availableReqs ≠ 0)
    (hs : s' = { s with
      getPos := (s.getPos + 1) % ringSize
      availableReqs := s.availableReqs - 1
      mon := s.mon.signal.exit
      consumer := Function.update s.consumer k (.serving (s.ring s.getPos))
      events := s.events ++ [.get k (s.deref (s.ring s.getPos))] })
    (ho : s.mon.owner = some (.consumer k)) : Order s' := by
  obtain ⟨⟨p, d⟩, rest, hpend⟩ : ∃ e rest, s.pending = e :: rest := by
    cases hp : s.pending with
    | nil => exact absurd (by rw [h.avail, hp]; rfl) ha
    | cons e rest => exact ⟨e, rest, rfl⟩
  have hmem : (p, d) ∈ s.pending := by rw [hpend]; exact List.mem_cons_self
  have hcells := h.cells
  rw [hpend, List.map_cons] at hcells
  obtain ⟨hcell, hcells⟩ := hcells.pop
  rw [← h.getPos] at hcell
  have hgot : s.deref (s.ring s.getPos) = some (p, d) := by
    rw [hcell]
    simp only [Ring.deref, h.live _ hmem, Option.map_some]
  rw [hcell] at hs hgot
  rw [hgot] at hs
  have hevs : s'.events = s.events ++ [.get k (some (p, d))] := by rw [hs]
  have hputs : s'.puts = s.puts := (Ring.puts_snoc hevs).trans (List.append_nil _)
  have hgets : s'.gets = s.gets ++ [some (p, d)] := Ring.gets_snoc hevs
  have hlen : s'.gets.length = s.gets.length + 1 := by rw [hgets, List.length_append]; rfl
  have hpend' : s'.pending = rest := by
    rw [Ring.pending, hputs, hlen, ← List.tail_drop]
    change s.pending.tail = rest
    rw [hpend, List.tail_cons]
  have hlt : s.gets.length < s.puts.length := by
    have hl : s.pending.length = rest.length + 1 := by rw [hpend, List.length_cons]
    rw [Ring.pending, List.length_drop] at hl
    omega
  have hnext : s.puts[s.gets.length]? = some (p, d) := by
    rw [← List.head?_drop]
    change s.pending.head? = some (p, d)
    rw [hpend, List.head?_cons]
  have hsub : ∀ e ∈ rest, e ∈ s.pending := fun e he => by rw [hpend]; exact List.mem_cons_of_mem _ he
  have hnd := h.distinct
  rw [hpend, List.map_cons, List.nodup_cons] at hnd
  have hheap : s'.heap = s.heap := by rw [hs]
  have hcons : s'.consumer = Function.update s.consumer k (.serving (some p)) := by rw [hs]
  -- who holds what afterwards: `k` the descriptor, the others what they held
  have hholds : ∀ k' q, (s'.consumer k').holds = some q →
      k' = k ∧ q = p ∨ k' ≠ k ∧ (s.consumer k').holds = some q := by
    intro k' q hq
    rw [hcons] at hq
    by_cases hk : k' = k
    · rw [hk, Function.update_self] at hq
      exact Or.inl ⟨hk, (Option.some.inj hq).symm⟩
    · rw [Function.update_of_ne hk] at hq
      exact Or.inr ⟨hk, hq⟩
  have hpfst : p ∈ s.pending.map Prod.fst := List.mem_map.mpr ⟨_, hmem, rfl⟩
  constructor
  · rw [hlen]
    have hg : s'.getPos = (s.getPos + 1) % ringSize := by rw [hs]
    rw [hg, h.getPos, Nat.mod_add_mod]
  · rw [hputs]
    have hp : s'.putPos = s.putPos := by rw [hs]
    rw [hp]; exact h.putPos
  · rw [hlen, hputs]; exact hlt
  · have hav : s'.availableReqs = s.availableReqs - 1 := by rw [hs]
    rw [hav, hpend', h.avail, hpend, List.length_cons]
    omega
  · have hr : s'.ring = s.ring := by rw [hs]
    rw [hr, hlen, hpend']; exact hcells
  · rw [hgets, hputs, List.length_append, List.length_singleton, List.take_add_one, hnext,
      List.map_append, ← h.inOrder]
    rfl
  · intro hrec
    have hpr : s'.producer = s.producer := by rw [hs]
    rw [hpr] at hrec
    have howner := (h.receiving hrec).1
    rw [ho] at howner
    cases howner
  · intro e he
    rw [hpend'] at he
    rw [hheap]
    exact h.live e (hsub e he)
  · rw [hpend']; exact hnd.2
  · intro k' q hq
    rw [hheap]
    rcases hholds k' q hq with ⟨-, rfl⟩ | ⟨-, hq⟩
    · rw [h.live _ hmem]; exact Option.some_ne_none d
    · exact h.heldLive k' q hq
  · intro k' q hq
    rw [hpend']
    rcases hholds k' q hq with ⟨-, rfl⟩ | ⟨-, hq⟩
    · exact hnd.1
    · intro hmem'
      obtain ⟨e, he, heq⟩ := List.mem_map.mp hmem'
      exact h.heldApart k' q hq (List.mem_map.mpr ⟨e, hsub e he, heq⟩)
  · intro k₁ k₂ q h₁ h₂
    rcases hholds k₁ q h₁ with ⟨e₁, q₁⟩ | ⟨-, h₁⟩ <;> rcases hholds k₂ q h₂ with ⟨e₂, q₂⟩ | ⟨-, h₂⟩
    · rw [e₁, e₂]
    · rw [q₁] at h₂
      exact absurd hpfst (h.heldApart k₂ p h₂)
    · rw [q₂] at h₁
      exact absurd hpfst (h.heldApart k₁ p h₁)
    · exact h.heldOnce k₁ k₂ q h₁ h₂
  · intro k'
    rw [hheap, Ring.doneBy_snoc hevs, hcons]
    have hk' := h.history k'
    by_cases hk : k' = k
    · subst hk
      rw [hpc] at hk'
      obtain ⟨ts, hts⟩ := hk'
      rw [Function.update_self]
      refine ⟨ts, p, d, rfl, h.live _ hmem, ?_⟩
      rw [hts, Event.isOf, beq_self_eq_true, if_pos rfl]
    · rw [Function.update_of_ne hk]
      have hof : Event.isOf k' (.get k (some (p, d)) : Event K C B R) = false :=
        beq_false_of_ne (Ne.symm hk)
      rw [hof, if_neg Bool.false_ne_true, List.append_nil]
      exact hk'

/-- A put adds a descriptor behind the pending ones. -/
theorem put (h : Order s) {p : Nat} {d : Req C B} (hpc : s.producer = .receiving)
    (hp : s.heap p = none)
    (hs : s' = { s with
      ring := Function.update s.ring s.putPos (some p)
      putPos := (s.putPos + 1) % ringSize
      heap := Function.update s.heap p (some d)
      availableReqs := s.availableReqs + 1
      mon := s.mon.signal.exit
      producer := .idle
      events := s.events ++ [.put p d] }) : Order s' := by
  have hevs : s'.events = s.events ++ [.put p d] := by rw [hs]
  have hputs : s'.puts = s.puts ++ [(p, d)] := Ring.puts_snoc hevs
  have hgets : s'.gets = s.gets := (Ring.gets_snoc hevs).trans (List.append_nil _)
  have hlen : s'.puts.length = s.puts.length + 1 := by rw [hputs, List.length_append]; rfl
  have hpend' : s'.pending = s.pending ++ [(p, d)] := by
    rw [Ring.pending, hputs, hgets, List.drop_append_of_le_length h.few]
    rfl
  have hpl : s.pending.length = s.puts.length - s.gets.length := List.length_drop
  have hroom : s.pending.length < ringSize := by
    have hle : s.pending.length ≤ ringSize := by simpa using h.cells.1
    have hne := (h.receiving hpc).2
    rw [h.avail] at hne
    omega
  have hheap : s'.heap = Function.update s.heap p (some d) := by rw [hs]
  have hcons : s'.consumer = s.consumer := by rw [hs]
  have hfresh : ∀ e ∈ s.pending, e.1 ≠ p := by
    intro e he heq
    have hlive := h.live e he
    rw [heq, hp] at hlive
    cases hlive
  have hheld : ∀ k q, (s.consumer k).holds = some q → q ≠ p := by
    intro k q hq heq
    exact h.heldLive k q hq (heq ▸ hp)
  constructor
  · rw [hgets]
    have hg : s'.getPos = s.getPos := by rw [hs]
    rw [hg]; exact h.getPos
  · rw [hlen]
    have hq : s'.putPos = (s.putPos + 1) % ringSize := by rw [hs]
    rw [hq, h.putPos, Nat.mod_add_mod]
  · rw [hlen, hgets]
    exact Nat.le_succ_of_le h.few
  · have hav : s'.availableReqs = s.availableReqs + 1 := by rw [hs]
    rw [hav, hpend', h.avail, List.length_append, List.length_singleton]
    omega
  · have hr : s'.ring = Function.update s.ring s.putPos (some p) := by rw [hs]
    have hcell : s.putPos = (s.gets.length + (s.pending.map Prod.fst).length) % ringSize := by
      rw [h.putPos, List.length_map, hpl, Nat.add_sub_cancel' h.few]
    rw [hr, hgets, hpend', List.map_append, hcell]
    exact h.cells.push (by rw [List.length_map]; exact hroom) p
  · rw [hgets, hputs, List.take_append_of_le_length h.few]
    exact h.inOrder
  · intro hrec
    rw [hs] at hrec
    cases hrec
  · intro e he
    rw [hpend'] at he
    rw [hheap]
    rcases List.mem_append.mp he with he | he
    · rw [Function.update_of_ne (hfresh e he)]
      exact h.live e he
    · rw [List.mem_singleton.mp he, Function.update_self]
  · rw [hpend', List.map_append]
    refine List.nodup_append.mpr ⟨h.distinct, List.pairwise_singleton _ _, ?_⟩
    intro q hq q' hq' heq
    obtain ⟨e, he, rfl⟩ := List.mem_map.mp hq
    exact hfresh e he (heq.trans (List.mem_singleton.mp hq'))
  · intro k q hq
    rw [hcons] at hq
    rw [hheap, Function.update_of_ne (hheld k q hq)]
    exact h.heldLive k q hq
  · intro k q hq hmem
    rw [hcons] at hq
    rw [hpend', List.map_append] at hmem
    rcases List.mem_append.mp hmem with hmem | hmem
    · exact h.heldApart k q hq hmem
    · exact hheld k q hq (List.mem_singleton.mp hmem)
  · rw [hcons]
    exact h.heldOnce
  · intro k
    rw [hheap, hcons, Ring.doneBy_snoc hevs]
    change History k _ (s.doneBy k ++ []) _
    rw [List.append_nil]
    exact (h.history k).off (fun he => hheld k p he rfl) _

/-- A consumer that answers or frees: nothing pending changes. -/
theorem work (h : Order s) {k : K} {p : Nat} {e : Event K C B R} {pc : ConsumerPc}
    {o : Option (Req C B)} (hpc : (s.consumer k).holds = some p)
    (hput : e.asPut = none) (hget : e.asGet = none)
    (hof : ∀ k', k' ≠ k → e.isOf k' = false)
    (hafter : pc.holds = none ∨ pc.holds = some p ∧ o ≠ none)
    (hist : History k (Function.update s.heap p o)
      (s.doneBy k ++ if e.isOf k then [e] else []) pc)
    (hs : s' = { s with
      heap := Function.update s.heap p o
      consumer := Function.update s.consumer k pc
      events := s.events ++ [e] }) : Order s' := by
  have hevs : s'.events = s.events ++ [e] := by rw [hs]
  have hputs : s'.puts = s.puts := by
    rw [Ring.puts_snoc hevs, hput]
    exact List.append_nil _
  have hgets : s'.gets = s.gets := by
    rw [Ring.gets_snoc hevs, hget]
    exact List.append_nil _
  have hpend : s'.pending = s.pending := by rw [Ring.pending, hputs, hgets, Ring.pending]
  have hheap : s'.heap = Function.update s.heap p o := by rw [hs]
  have hcons : s'.consumer = Function.update s.consumer k pc := by rw [hs]
  have hapart := h.heldApart k p hpc
  have hoff : ∀ k', k' ≠ k → (s.consumer k').holds ≠ some p :=
    fun k' hk hp => hk (h.heldOnce k' k p hp hpc)
  have hholds : ∀ k' q, (s'.consumer k').holds = some q → (s.consumer k').holds = some q := by
    intro k' q hq
    rw [hcons] at hq
    by_cases hk : k' = k
    · rw [hk, Function.update_self] at hq
      rcases hafter with hnone | ⟨hsome, -⟩
      · rw [hnone] at hq; cases hq
      · rw [hk, hpc, ← hsome, hq]
    · rw [Function.update_of_ne hk] at hq
      exact hq
  constructor
  · have hg : s'.getPos = s.getPos := by rw [hs]
    rw [hg, hgets]; exact h.getPos
  · have hq : s'.putPos = s.putPos := by rw [hs]
    rw [hq, hputs]; exact h.putPos
  · rw [hgets, hputs]; exact h.few
  · have hav : s'.availableReqs = s.availableReqs := by rw [hs]
    rw [hav, hpend]; exact h.avail
  · have hr : s'.ring = s.ring := by rw [hs]
    rw [hr, hgets, hpend]; exact h.cells
  · rw [hgets, hputs]; exact h.inOrder
  · rw [hs]; exact h.receiving
  · intro e' he'
    rw [hpend] at he'
    rw [hheap, Function.update_of_ne]
    · exact h.live e' he'
    · intro heq
      exact hapart (List.mem_map.mpr ⟨e', he', heq⟩)
  · rw [hpend]; exact h.distinct
  · intro k' q hq
    rw [hheap]
    by_cases hk : k' = k
    · rw [hcons, hk, Function.update_self] at hq
      rcases hafter with hnone | ⟨hsome, ho⟩
      · rw [hnone] at hq; cases hq
      · rw [hsome, Option.some.injEq] at hq
        rw [hq, Function.update_self]
        exact ho
    · have hq' := hholds k' q hq
      have hne : q ≠ p := fun heq => hoff k' hk (by rw [hq', heq])
      rw [Function.update_of_ne hne]
      exact h.heldLive k' q hq'
  · intro k' q hq
    rw [hpend]
    exact h.heldApart k' q (hholds k' q hq)
  · intro k₁ k₂ q h₁ h₂
    exact h.heldOnce k₁ k₂ q (hholds k₁ q h₁) (hholds k₂ q h₂)
  · intro k'
    rw [hheap, hcons, Ring.doneBy_snoc hevs]
    by_cases hk : k' = k
    · rw [hk, Function.update_self]
      exact hist
    · rw [Function.update_of_ne hk, hof k' hk, if_neg Bool.false_ne_true, List.append_nil]
      exact (h.history k').off (hoff k' hk) _

/-- One step. -/
theorem step {res₀ : MsgRes R} {a : Ring.Act K C B R} (h : Order s)
    (hs : Ring.step res₀ s a = some s') : Order s' := by
  cases Ring.step_cases hs with
  | producerEnters hpc hs =>
      subst hs
      exact h.quiet rfl rfl rfl rfl rfl rfl (fun hrec => by cases hrec) fun _ => Or.inl rfl
  | consumerEnters k hpc hs =>
      subst hs
      refine h.quiet rfl rfl rfl rfl rfl rfl (fun hrec => ?_) fun k' => ?_
      · obtain ⟨ho, hne⟩ := h.receiving hrec
        refine ⟨?_, hne⟩
        change (s.mon.enter (.consumer k)).owner = some .producer
        rw [Monitor.enter, ho]
      · by_cases hk : k' = k
        · subst hk
          exact Or.inr ⟨Or.inl hpc, Function.update_self ..⟩
        · exact Or.inl (Function.update_of_ne hk ..)
  | consumerWaits k ho hpc ha hs =>
      subst hs
      refine h.quiet rfl rfl rfl rfl rfl rfl (fun hrec => ?_) fun k' => ?_
      · have howner := (h.receiving hrec).1
        rw [ho] at howner
        cases howner
      · by_cases hk : k' = k
        · subst hk
          exact Or.inr ⟨Or.inr hpc, Function.update_self ..⟩
        · exact Or.inl (Function.update_of_ne hk ..)
  | consumerFetches k ho hpc ha hs => exact h.fetch hpc ha hs ho
  | producerWaits ho hpc ha hs =>
      subst hs
      exact h.quiet rfl rfl rfl rfl rfl rfl (fun hrec => by cases hrec) fun _ => Or.inl rfl
  | producerStays ho hpc ha hs =>
      subst hs
      exact h.quiet rfl rfl rfl rfl rfl rfl (fun _ => ⟨ho, ha⟩) fun _ => Or.inl rfl
  | receivesEmpty hpc hs =>
      subst hs
      exact h.quiet rfl rfl rfl rfl rfl rfl (fun hrec => by cases hrec) fun _ => Or.inl rfl
  | receives p d hpc hp hs => exact h.put hpc hp hs
  | answers k p d d' res ressz hpc hd hsn hs =>
      have hist := h.history k
      rw [hpc] at hist
      obtain ⟨ts, p', d₀, hp', hd₀, hevs⟩ := hist
      obtain rfl := Option.some.inj hp'
      obtain rfl : d = d₀ := Option.some.inj (hd.symm.trans hd₀)
      refine h.work (by rw [hpc]; rfl) rfl rfl (fun k' hk => beq_false_of_ne (Ne.symm hk))
        (Or.inr ⟨rfl, Option.some_ne_none d'⟩) ?_ hs
      refine ⟨ts, ⟨p, d, res, ressz, hsn⟩, rfl, ?_⟩
      rw [hevs, Event.isOf, beq_self_eq_true, if_pos rfl, List.append_assoc]
      rfl
  | frees k p hpc hs =>
      have hist := h.history k
      rw [hpc] at hist
      obtain ⟨ts, t, ht, hevs⟩ := hist
      refine h.work (by rw [hpc]; rfl) rfl rfl (fun k' hk => beq_false_of_ne (Ne.symm hk))
        (Or.inl rfl) ?_ hs
      refine ⟨ts ++ [t], ?_⟩
      rw [hevs, Event.isOf, beq_self_eq_true, if_pos rfl, List.append_assoc,
        List.flatMap_append, List.flatMap_singleton, ← ht]
      rfl

/-- The events of a consumer are a beginning of a sequence of whole turns. -/
theorem turns (h : Order s) (res₀ : MsgRes R) (k : K) :
    ∃ ts : List (Turn C B R), s.doneBy k <+: ts.flatMap (Turn.events k) := by
  have hist := h.history k
  cases hpc : s.consumer k with
  | idle =>
      rw [hpc] at hist
      obtain ⟨ts, hts⟩ := hist
      exact ⟨ts, hts ▸ List.prefix_refl _⟩
  | loop =>
      rw [hpc] at hist
      obtain ⟨ts, hts⟩ := hist
      exact ⟨ts, hts ▸ List.prefix_refl _⟩
  | serving reqD =>
      rw [hpc] at hist
      obtain ⟨ts, p, d, -, -, hts⟩ := hist
      -- the turn under way, with any response that echoes the serial number
      let t : Turn C B R := ⟨p, d, { res₀ with sn := d.req.sn }, 0, rfl⟩
      refine ⟨ts ++ [t], [.send k d.cliaddr t.res 0, .free k p], ?_⟩
      rw [hts, List.flatMap_append, List.flatMap_singleton, List.append_assoc]
      rfl
  | sent p =>
      rw [hpc] at hist
      obtain ⟨ts, t, ht, hts⟩ := hist
      refine ⟨ts ++ [t], [.free k t.reqD], ?_⟩
      rw [hts, List.flatMap_append, List.flatMap_singleton, List.append_assoc]
      rfl

end Order

/--
Exactly once, in order, nothing overwritten, in every reachable state.

The counter is in range and counts the requests put and not fetched; the calls of
`get_req` returned what the first calls of `put_req` were given; a request not yet
fetched is still in its cell, its descriptor unchanged, and the cell that `put_req` is
about to write is not one of these; every consumer fetched, answered the sender with the
request's serial number, and freed, in turns.
-/
theorem request_ring [DecidableEq K] {res₀ : MsgRes R} {s : Ring K C B R}
    (h : Reaches (Ring.step res₀) Ring.init s) :
    (0 ≤ s.availableReqs ∧ s.availableReqs ≤ ringSize ∧
      s.availableReqs = s.puts.length - s.gets.length) ∧
    s.gets = (s.puts.take s.gets.length).map some ∧
    (∀ i, s.gets.length ≤ i → ∀ hi : i < s.puts.length,
      s.deref (s.ring (i % ringSize)) = some s.puts[i] ∧
      (s.producer = .receiving → s.putPos ≠ i % ringSize)) ∧
    ∀ k, ∃ ts : List (Turn C B R), s.doneBy k <+: ts.flatMap (Turn.events k) := by
  obtain ⟨tr, htr⟩ := h
  have hinv : Order s := htr.invariant Order Order.init fun _ _ _ h hs => h.step hs
  have hlen : s.pending.length = s.puts.length - s.gets.length := List.length_drop
  have hle : s.pending.length ≤ ringSize := by simpa using hinv.cells.1
  have hfew := hinv.few
  have havail := hinv.avail
  refine ⟨⟨by omega, by omega, by omega⟩, hinv.inOrder, fun i hgi hi => ⟨?_, fun hrec => ?_⟩,
    hinv.turns res₀⟩
  · have hip : i - s.gets.length < s.pending.length := by omega
    have hget : s.pending[i - s.gets.length] = s.puts[i] := by
      simp only [Ring.pending, List.getElem_drop]
      congr 1
      omega
    have hcell := hinv.cells.2 (i - s.gets.length) (by simpa using hip)
    rw [List.getElem_map, hget, Nat.add_sub_cancel' hgi] at hcell
    have hlive := hinv.live s.puts[i] (hget ▸ List.getElem_mem hip)
    rw [hcell]
    simp only [Ring.deref, hlive, Option.map_some]
  · have hne := (hinv.receiving hrec).2
    rw [hinv.putPos]
    have hcell : (s.gets.length + (i - s.gets.length)) % ringSize ≠
        (s.gets.length + (s.puts.length - s.gets.length)) % ringSize :=
      cell_ne (by omega) (by omega)
    rw [Nat.add_sub_cancel' hgi, Nat.add_sub_cancel' hfew] at hcell
    exact hcell.symm

/-- The requests of two clients, an empty datagram between them, and one answer. -/
theorem request_ring_two_clients :
    ∃ s : Ring Bool Nat Unit Unit,
      (s.gets.length = 1 ∧ s.puts.length = 2 ∧ (s.doneBy true).length = 3) ∧
      s.gets = (s.puts.take s.gets.length).map some := by
  have hrun : (runActs (Ring.step ⟨0, 0, 0, ()⟩) (Ring.init : Ring Bool Nat Unit Unit)
      [.enterConsumer true, .body, .enterProducer, .body, .receive 0 (some ⟨⟨3, 7, ()⟩, 40, 20⟩),
        .body, .enterProducer, .answer true () ⟨3, 0, 0, ()⟩ 1040, .free true, .body,
        .receive 0 none, .enterProducer, .body, .receive 0 (some ⟨⟨1, 8, ()⟩, 41, 264⟩)]).map
      (fun s => (s.gets.length, s.puts.length, (s.doneBy true).length)) = some (1, 2, 3) := by
    decide
  obtain ⟨s, hs, hfacts⟩ := Option.map_eq_some_iff.mp hrun
  simp only [Prod.mk.injEq] at hfacts
  exact ⟨s, hfacts, (request_ring (reaches_runActs _ hs)).2.1⟩

end Sthreads.Server
