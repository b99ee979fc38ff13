/-
The server comes to rest.

However its threads are scheduled, a server that gets no datagram takes finitely many steps.
The measure has three parts, in this order: the requests that have no handler yet; what is
left of the handlers that run; and a weight for every thread, which pays for the places in
the queues of the two monitors that its later steps give to it or to others.
-/
import Sthreads.Lib.Rank
import Sthreads.Proofs.Server.Progress

namespace Sthreads

namespace Monitor

variable {T : Type} {m : Monitor T} {t : T}

theorem enter_length (h : m.WF) : (m.enter t).present.length = m.present.length + 1 := by
  rw [enter_present h, List.length_append]
  rfl

theorem wait_length (h : m.owner = some t) : (m.wait t).present.length + 1 = m.present.length := by
  rw [wait_present h, List.length_cons]

theorem exit_length (h : m.owner = some t) : m.exit.present.length + 1 = m.present.length := by
  rw [exit_present h, List.length_cons]

/-- A thread that leaves may put another in its place. -/
theorem signal_exit_length (h : m.owner = some t) :
    m.signal.exit.present.length ≤ m.present.length := by
  have hso : m.signal.owner = some t := by rw [signal_owner, h]
  have hlen := exit_length hso
  rw [signal_present, List.length_append, List.length_take] at hlen
  omega

end Monitor

namespace Server

variable {K C : Type}

/-! ### The measure -/

/-- Whether a consumer has a request and no handler for it yet. -/
def unhandled : ConsumerPc → Work → Nat
  | .serving _, .none => 1
  | _, _ => 0

/-- What is left of a consumer's handler. -/
noncomputable def Work.rank : Work → Ordinal.{0}
  | .handling th => th.rest.rank
  | _ => 0

/-- The weight of a consumer. -/
def consumerWeight : ConsumerPc → Work → Pc → Nat
  | .loop, _, _ => 1
  | .idle, _, _ => 3
  | .sent _, _, _ => 4
  | .serving _, .answered .., .unlock _ => 6
  | .serving _, .answered .., _ => 5
  | .serving _, .handling _, _ => 8
  | .serving _, .none, _ => 9

/-- The weight of the producer. -/
def producerWeight : ProducerPc → Nat
  | .receiving => 0
  | .loop => 1
  | .idle => 3

namespace System

variable [Fintype K]

/-- The requests that have no handler yet. -/
def waitingRequests (s : System K C) : Nat :=
  s.ring.availableReqs.toNat + ∑ k, unhandled (s.ring.consumer k) (s.work k)

/-- The weights of the threads and of the requests in the ring. -/
def weight (s : System K C) : Nat :=
  9 * s.ring.availableReqs.toNat + ∑ k, consumerWeight (s.ring.consumer k) (s.work k) (s.rw.pc k)
    + producerWeight s.ring.producer + s.ring.mon.present.length + s.rw.rwMon.present.length
    + (if s.ended = none then 1 else 0)

noncomputable def measure (s : System K C) : Measure Nat (K → Ordinal.{0}) Nat :=
  .of s.waitingRequests (fun k => (s.work k).rank) s.weight

/-- The weight that is of `k` or of no consumer. -/
def weightAt (s : System K C) (k : K) : Nat :=
  9 * s.ring.availableReqs.toNat + consumerWeight (s.ring.consumer k) (s.work k) (s.rw.pc k)
    + producerWeight s.ring.producer + s.ring.mon.present.length + s.rw.rwMon.present.length
    + (if s.ended = none then 1 else 0)

/-- Only `k` moves among the consumers. -/
structure MovesOnly (k : K) (s s' : System K C) : Prop where
  consumer : ∀ u, u ≠ k → s'.ring.consumer u = s.ring.consumer u
  work : ∀ u, u ≠ k → s'.work u = s.work u
  pc : ∀ u, u ≠ k → s'.rw.pc u = s.rw.pc u

variable [DecidableEq K] {s s' : System K C} {k : K}

namespace MovesOnly

theorem requests_lt (h : MovesOnly k s s')
    (hlt : s'.ring.availableReqs.toNat + unhandled (s'.ring.consumer k) (s'.work k) <
      s.ring.availableReqs.toNat + unhandled (s.ring.consumer k) (s.work k)) :
    s'.measure < s.measure := by
  refine Measure.lt_first ?_
  have hsum := sum_change (f := fun u => unhandled (s.ring.consumer u) (s.work u))
    (g := fun u => unhandled (s'.ring.consumer u) (s'.work u)) k
    fun u hu => by rw [h.consumer u hu, h.work u hu]
  rw [waitingRequests, waitingRequests]
  omega

theorem requests_le (h : MovesOnly k s s')
    (hle : s'.ring.availableReqs.toNat + unhandled (s'.ring.consumer k) (s'.work k) ≤
      s.ring.availableReqs.toNat + unhandled (s.ring.consumer k) (s.work k)) :
    s'.waitingRequests ≤ s.waitingRequests := by
  have hsum := sum_change (f := fun u => unhandled (s.ring.consumer u) (s.work u))
    (g := fun u => unhandled (s'.ring.consumer u) (s'.work u)) k
    fun u hu => by rw [h.consumer u hu, h.work u hu]
  rw [waitingRequests, waitingRequests]
  omega

theorem rank_lt (h : MovesOnly k s s')
    (hle : s'.ring.availableReqs.toNat + unhandled (s'.ring.consumer k) (s'.work k) ≤
      s.ring.availableReqs.toNat + unhandled (s.ring.consumer k) (s.work k))
    (hlt : (s'.work k).rank < (s.work k).rank) : s'.measure < s.measure := by
  refine Measure.lt_second (h.requests_le hle) (Pi.lt_def.mpr ⟨fun u => ?_, k, hlt⟩)
  by_cases hu : u = k
  · exact hu ▸ hlt.le
  · exact (congrArg Work.rank (h.work u hu)).le

theorem weight_lt (h : MovesOnly k s s')
    (hle : s'.ring.availableReqs.toNat + unhandled (s'.ring.consumer k) (s'.work k) ≤
      s.ring.availableReqs.toNat + unhandled (s.ring.consumer k) (s.work k))
    (hrank : (s'.work k).rank ≤ (s.work k).rank) (hlt : s'.weightAt k < s.weightAt k) :
    s'.measure < s.measure := by
  refine Measure.lt_third (h.requests_le hle) (fun u => ?_) ?_
  · by_cases hu : u = k
    · exact hu ▸ hrank
    · exact (congrArg Work.rank (h.work u hu)).le
  · have hsum := sum_change
      (f := fun u => consumerWeight (s.ring.consumer u) (s.work u) (s.rw.pc u))
      (g := fun u => consumerWeight (s'.ring.consumer u) (s'.work u) (s'.rw.pc u)) k
      fun u hu => by rw [h.consumer u hu, h.work u hu, h.pc u hu]
    rw [weightAt, weightAt] at hlt
    rw [weight, weight]
    omega

end MovesOnly

end System

/-! ### One step -/

namespace Going

variable [Fintype K] [DecidableEq K] {s s' : System K C} {k : K}

/-- A step on the ring, without a datagram, that is not the sending of a response. -/
theorem ring_descends [Nonempty K] {a : Ring.Act K C (Snfs.Page 1036) (Snfs.Page 1540)}
    {r : Ring K C (Snfs.Page 1036) (Snfs.Page 1540)} (h : Going s)
    (ha : ∀ k body res n, a ≠ .answer k body res n) (hinside : ∀ p d, a ≠ .receive p d)
    (hr : Ring.step clearedRes s.ring a = some r) :
    ({ s with ring := r } : System K C).measure < s.measure := by
  obtain ⟨k₀⟩ := ‹Nonempty K›
  cases a with
  | answer k body res n => exact absurd rfl (ha k body res n)
  | receive p d => exact absurd rfl (hinside p d)
  | enterProducer =>
      simp only [Ring.step] at hr
      split at hr
      · rename_i hpc
        obtain rfl := Option.some.inj hr
        have hlen := Monitor.enter_length (t := .producer) h.flowing.holds.wf
        refine System.MovesOnly.weight_lt (k := k₀) ⟨fun _ _ => rfl, fun _ _ => rfl, fun _ _ => rfl⟩
          le_rfl le_rfl ?_
        simp only [System.weightAt, hpc, producerWeight]
        omega
      · cases hr
  | enterConsumer k =>
      simp only [Ring.step] at hr
      split at hr
      · rename_i hpc
        obtain rfl := Option.some.inj hr
        have hlen := Monitor.enter_length (t := .consumer k) h.flowing.holds.wf
        refine System.MovesOnly.weight_lt (k := k)
          ⟨fun _ hu => Function.update_of_ne hu .., fun _ _ => rfl, fun _ _ => rfl⟩ ?_ le_rfl ?_
        · simp [hpc, unhandled]
        · simp only [System.weightAt, hpc, consumerWeight, Function.update_self]
          omega
      · cases hr
  | free k =>
      simp only [Ring.step] at hr
      split at hr
      · rename_i p hpc
        obtain rfl := Option.some.inj hr
        refine System.MovesOnly.weight_lt (k := k)
          ⟨fun _ hu => Function.update_of_ne hu .., fun _ _ => rfl, fun _ _ => rfl⟩ ?_ le_rfl ?_
        · simp [hpc, unhandled]
        · simp only [System.weightAt, hpc, consumerWeight, Function.update_self]
          omega
      · cases hr
  | body =>
      simp only [Ring.step] at hr
      split at hr
      · rename_i k ho
        split at hr
        · rename_i hpc
          obtain rfl := Option.some.inj hr
          have hk := h.linked k
          rw [hpc] at hk
          generalize hwork : s.work k = w at hk
          generalize hrw : s.rw.pc k = c at hk
          cases hk with
          | away hc =>
              unfold Ring.consumerBody
              split
              · have hlen := Monitor.wait_length ho
                refine System.MovesOnly.weight_lt (k := k)
                  ⟨fun _ hu => Function.update_of_ne hu .., fun _ _ => rfl, fun _ _ => rfl⟩
                  ?_ le_rfl ?_
                · simp [hpc, unhandled]
                · simp only [System.weightAt, hpc, consumerWeight, Function.update_self]
                  omega
              · rename_i hne
                have hlen := Monitor.signal_exit_length ho
                have havail := h.order.avail
                refine System.MovesOnly.weight_lt (k := k)
                  ⟨fun _ hu => Function.update_of_ne hu .., fun _ _ => rfl, fun _ _ => rfl⟩
                  ?_ le_rfl ?_
                · simp only [hpc, hwork, unhandled, Function.update_self]
                  omega
                · simp only [System.weightAt, hpc, hwork, consumerWeight, Function.update_self,
                    Ring.getReq]
                  omega
        · cases hr
      · rename_i ho
        split at hr
        · rename_i hpc
          obtain rfl := Option.some.inj hr
          unfold Ring.producerBody
          split
          · have hlen := Monitor.wait_length ho
            refine System.MovesOnly.weight_lt (k := k₀) ⟨fun _ _ => rfl, fun _ _ => rfl, fun _ _ => rfl⟩
              le_rfl le_rfl ?_
            simp only [System.weightAt, hpc, producerWeight]
            omega
          · refine System.MovesOnly.weight_lt (k := k₀) ⟨fun _ _ => rfl, fun _ _ => rfl, fun _ _ => rfl⟩
              le_rfl le_rfl ?_
            simp only [System.weightAt, hpc, producerWeight]
            omega
        · cases hr
      · cases hr

omit [Fintype K] [DecidableEq K] in
/-- A consumer that stands where it stood at the ring. -/
theorem movesOnly {s s' : System K C} {k : K} (hring : s'.ring.consumer = s.ring.consumer)
    (hwork : ∀ u, u ≠ k → s'.work u = s.work u) (hpc : ∀ u, u ≠ k → s'.rw.pc u = s.rw.pc u) :
    System.MovesOnly k s s' :=
  ⟨fun _ _ => hring ▸ rfl, hwork, hpc⟩

theorem take_descends {stack : Snfs.Stack} (hs : s.take k stack = some s') :
    s'.measure < s.measure := by
  rw [System.take] at hs
  split at hs
  · rename_i p hcons hwork
    obtain ⟨d, -, hs⟩ := Option.bind_eq_some_iff.mp hs
    obtain ⟨rw', hrw, rfl⟩ := Option.map_eq_some_iff.mp hs
    have hpc : ∀ u, u ≠ k → rw'.pc u = s.rw.pc u := by
      intro u hu
      simp only [rwStep] at hrw
      split at hrw
      · obtain rfl := Option.some.inj hrw
        exact Function.update_of_ne hu ..
      · obtain rfl := Option.some.inj hrw
        rfl
      · cases hrw
    refine System.MovesOnly.requests_lt
      (movesOnly rfl (fun _ hu => Function.update_of_ne hu ..) hpc) ?_
    simp only [hcons, hwork, Function.update_self]
    split
    · simp only [unhandled]
      omega
    · simp only [unhandled]
      omega
  · cases hs

theorem lock_descends (h : Going s) {rw' : RwLock K} (hrw : rwStep s.rw .body = some rw') :
    ({ s with rw := rw' } : System K C).measure < s.measure := by
  obtain ⟨t, ho, hmove⟩ := rwStep_move hrw
  have hlinked := h.linked t
  -- the weight of the thread in the state after, and what its place in the queue pays
  have descends : ∀ c, rw'.pc = Function.update s.rw.pc t c →
      consumerWeight (s.ring.consumer t) (s.work t) c + rw'.rwMon.present.length <
        consumerWeight (s.ring.consumer t) (s.work t) (s.rw.pc t) + s.rw.rwMon.present.length →
      ({ s with rw := rw' } : System K C).measure < s.measure := by
    intro c hpc hlt
    refine System.MovesOnly.weight_lt (k := t)
      (movesOnly rfl (fun _ _ => rfl) fun _ hu => by rw [hpc, Function.update_of_ne hu])
      le_rfl le_rfl ?_
    simp only [System.weightAt, hpc, Function.update_self]
    omega
  generalize s.ring.consumer t = cpc at hlinked descends
  generalize s.work t = w at hlinked descends
  generalize hpct : s.rw.pc t = c at hlinked descends
  cases hmove with
  | sleeps e hc hpc hmon =>
      rw [hpct] at hc
      have hlen := Monitor.wait_length ho
      refine descends _ hpc ?_
      cases hlinked with
      | queued r th hc' =>
          rw [hmon]
          simp only [consumerWeight]
          omega
      | answered r res n hc' => cases hc' <;> cases hc
      | _ => cases hc
  | passes e hc hpc hmon =>
      rw [hpct] at hc
      have hlen := Monitor.exit_length ho
      refine descends _ hpc ?_
      cases hlinked with
      | queued r th hc' =>
          rw [hmon]
          simp only [consumerWeight]
          omega
      | answered r res n hc' => cases hc' <;> cases hc
      | _ => cases hc
  | leaves e hc hpc hmon =>
      rw [hpct] at hc
      subst hc
      have hlen : rw'.rwMon.present.length ≤ s.rw.rwMon.present.length := by
        rcases hmon with hmon | hmon
        · have := Monitor.exit_length ho
          rw [hmon]
          omega
        · rw [hmon]
          exact Monitor.signal_exit_length ho
      refine descends _ hpc ?_
      cases hlinked with
      | queued r th hc' => cases hc'
      | answered r res n hc' =>
          simp only [consumerWeight]
          omega

theorem handle_descends (h : Going s) (hopen : s.ended = none) (hs : s.handle k = some s') :
    s'.measure < s.measure := by
  rw [System.handle] at hs
  split at hs
  · rename_i e th hpc hwork
    have hserving : ∃ r, s.ring.consumer k = .serving r := by
      have hk := h.linked k
      rw [hpc, hwork] at hk
      generalize s.ring.consumer k = cpc at hk
      cases hk with
      | queued r th hc => exact ⟨r, rfl⟩
      | running r th e => exact ⟨r, rfl⟩
    obtain ⟨reqD, hcons⟩ := hserving
    have hends : ∀ e', ({ s with ended := some e' } : System K C).measure < s.measure := by
      intro e'
      refine System.MovesOnly.weight_lt (k := k) (movesOnly rfl (fun _ _ => rfl) fun _ _ => rfl)
        le_rfl le_rfl ?_
      simp [System.weightAt, hopen]
    split at hs
    · rename_i x hrest
      obtain ⟨rw', hrw, rfl⟩ := Option.map_eq_some_iff.mp hs
      simp only [rwStep, hpc] at hrw
      obtain rfl := Option.some.inj hrw
      have hlen := Monitor.enter_length (t := k) h.queued.wf
      refine System.MovesOnly.weight_lt (k := k) (movesOnly rfl
        (fun _ hu => Function.update_of_ne hu ..) fun _ hu => Function.update_of_ne hu ..)
        ?_ ?_ ?_
      · simp [hcons, hwork, unhandled]
      · simp [Work.rank]
      · simp only [System.weightAt, enterRw, hcons, hwork, hpc, Function.update_self,
          consumerWeight]
        omega
    · obtain rfl := Option.some.inj hs
      exact hends _
    · rename_i o f hrest
      split at hs
      · rename_i x fs hop
        obtain rfl := Option.some.inj hs
        refine System.MovesOnly.rank_lt (k := k)
          (movesOnly rfl (fun _ hu => Function.update_of_ne hu ..) fun _ _ => rfl) ?_ ?_
        · simp [hcons, hwork, unhandled]
        · have hafter : (th.after o x (f x)).rest = f x := by
            unfold Snfs.ReadThread.after
            split <;> rfl
          simp only [Function.update_self, hwork, Work.rank, hafter, hrest]
          exact Prog.rank_lt o f x
      · obtain rfl := Option.some.inj hs
        exact hends _
  · cases hs

theorem send_descends (hs : s.send k = some s') : s'.measure < s.measure := by
  rw [System.send] at hs
  split at hs
  · rename_i p res ressz hcons hpc hwork
    obtain ⟨d, hd, hs⟩ := Option.bind_eq_some_iff.mp hs
    obtain ⟨r, hr, rfl⟩ := Option.map_eq_some_iff.mp hs
    simp only [Ring.step, hcons, hd, Option.map_some, Option.some.injEq] at hr
    subst hr
    refine System.MovesOnly.weight_lt (k := k) ⟨fun _ hu => Function.update_of_ne hu ..,
      fun _ hu => Function.update_of_ne hu .., fun _ _ => rfl⟩ ?_ ?_ ?_
    · simp [hcons, hwork, unhandled]
    · simp [Work.rank]
    · simp only [System.weightAt, hcons, hwork, hpc, Function.update_self, consumerWeight]
      omega
  · cases hs

theorem descends [Nonempty K] {a : System.Act K C} (h : Going s) (ha : a.Inside)
    (hs : s.step a = some s') : s'.measure < s.measure := by
  unfold System.step at hs
  split at hs
  · cases hs
  · rename_i hopen
    split at hs
    · cases hs
    · rename_i a hnot
      obtain ⟨r, hr, rfl⟩ := Option.map_eq_some_iff.mp hs
      exact h.ring_descends (fun k body res n he => hnot k body res n (he ▸ rfl))
        (fun p d he => by subst he; exact ha) hr
    · exact take_descends hs
    · obtain ⟨r, hr, rfl⟩ := Option.map_eq_some_iff.mp hs
      exact h.lock_descends hr
    · exact h.handle_descends (by simpa using hopen) hs
    · exact send_descends hs

end Going

/-! ### Runs -/

/-- **The server comes to rest.**  From every state that the server reaches, whatever its threads
do and in whatever order, they take finitely many steps until a datagram comes. -/
theorem server_drains [Fintype K] [Nonempty K] [DecidableEq K]
    (hcard : Fintype.card K ≤ ringSize) {fs₀ : Snfs.Fs} {s : System K C}
    (h : Reaches System.step (.init fs₀) s) :
    ¬ ∃ (run : Nat → System K C) (act : Nat → System.Act K C), run 0 = s ∧
      ∀ n, (act n).Inside ∧ (run n).step (act n) = some (run (n + 1)) := by
  obtain ⟨tr, htr⟩ := h
  exact no_infinite_run Going System.Act.Inside System.measure
    (fun s a s' hs ha hstep => ⟨hs.step hcard hstep, hs.descends ha hstep⟩) (Going.run hcard htr)

/-- A datagram has come for a server on a file system of one block. -/
theorem server_drains_one_request :
    ∃ s : System (Fin numTc) Nat, s.ring.availableReqs = 1 ∧
      ¬ ∃ (run : Nat → System (Fin numTc) Nat) (act : Nat → System.Act (Fin numTc) Nat),
        run 0 = s ∧ ∀ n, (act n).Inside ∧ (run n).step (act n) = some (run (n + 1)) := by
  have hnew : ((Snfs.Store.new 1).map fun _ => ()) = .ok () := by decide
  cases hst : Snfs.Store.new 1 with
  | error e =>
      rw [hst] at hnew
      cases hnew
  | ok st =>
      have : Nonempty (Fin numTc) := ⟨⟨0, by decide⟩⟩
      exact ⟨_, rfl, server_drains (by decide) (@reaches_runActs _ _ System.step
        ((System.init (.empty st fun _ => 0) : System (Fin numTc) Nat)) _
        [.ring .enterProducer, .ring .body,
          .ring (.receive 0 (some ⟨⟨1, 7, fun _ => 0⟩, 40, 264⟩))] rfl)⟩

end Server

end Sthreads
