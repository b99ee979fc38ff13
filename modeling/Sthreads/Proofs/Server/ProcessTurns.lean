/-
The turns of `thread_consumer` and `thread_producer` at the ring.

Every statement of the two functions between `monitor_enter` and `monitor_exit`, and those around
them, is a step of the ring with atomic sections or nothing; and it leaves the readers-writers lock
and the file system alone.
-/
import Sthreads.Proofs.Server.ProcessRing
import Sthreads.Proofs.Server.ProcessRw

namespace Sthreads.Server

open User

variable {C : Type}

/-- What a thread works at, for the model. -/
def Line.work : Line C → Work
  | consumer _ (.serving _ w) => w.work
  | _ => .none

/-- The thread has no request that it works at. -/
structure Line.Free (l : Line C) : Prop where
  pc : l.pc = .fetch
  work : l.work = .none
  place : l.place.monitor ≠ some rwMon

theorem Line.Free.consumer (k : Fin numTc) {c : ConsumerLine}
    (hc : ∀ reqD w, c = .serving reqD w → w = .fetched) : (Line.consumer k c : Line C).Free := by
  cases c with
  | serving reqD w =>
      obtain rfl := hc reqD w rfl
      exact ⟨rfl, rfl, by simp [Line.place, ConsumerLine.place, WorkLine.place, Section.monitor]⟩
  | _ =>
      exact ⟨rfl, rfl, by simp [Line.place, ConsumerLine.place, Section.monitor, mon, rwMon]⟩

theorem Line.Free.producer (c : ProducerLine C) : (Line.producer c).Free := by
  cases c with
  | _ =>
      exact ⟨rfl, rfl, by simp [Line.place, ProducerLine.place, Section.monitor, mon, rwMon]⟩

theorem Line.Free.not_past {l : Line C} (h : l.Free) : l.place ≠ .past rwMon := by
  intro hp
  exact h.place (by rw [hp]; rfl)

/-- A statement of the ring, and what it is for the model. -/
structure RingStep (s : Process C) (t : Tid) (l : Line C) (r : ProcessRing C) (s' : Process C) :
    Prop extends Beside s t l rwMon s' where
  free : l.Free
  counters : s'.counters = s.counters
  files : SameFiles s s'
  view : RingView s' r ∨ ∃ a r', (∀ k body res n, a ≠ .answer k body res n) ∧
    Ring.step clearedRes r a = some r' ∧ RingView s' r'

/-- What a statement leaves alone that is none of the handler's. -/
structure Idle (s s' : Process C) : Prop where
  counters : s'.counters = s.counters
  files : SameFiles s s'

variable {s s' : Process C} {r : ProcessRing C} {k : Fin numTc} {i : Input C} {t : Tid}
  {l₀ l : Line C}

namespace RingStep

theorem of_goes (hth : Threads s) (hr : Runs s t) (hline : s.line t = l₀) (hg : Goes s t l s')
    (hsame : l₀.SameThread l) (hplace : ∀ m, l.place.monitor = some m → l₀.place.monitor = some m)
    (hl₀ : l₀.Free) (hl : l.Free) (hidle : Idle s s')
    (hview : RingView s' r ∨ ∃ a r', (∀ k body res n, a ≠ .answer k body res n) ∧
      Ring.step clearedRes r a = some r' ∧ RingView s' r') : RingStep s t l r s' := by
  subst hline
  exact ⟨.of_goes hth hr hg hsame hplace hl.not_past hl₀.not_past, hl, hidle.counters,
    hidle.files, hview⟩

theorem of_calls {c : Sched.Call} (hth : Threads s) (hr : Runs s t) (hline : s.line t = l₀)
    (hg : Calls s t c l s') (hc : ∀ q, c ≠ .create q) (hsame : l₀.SameThread l)
    (hmoves : Moves t (.call c) l₀.place l.place)
    (hop : ∀ o, (Sched.Act.call c).operates t ≠ some (.monitor rwMon, o))
    (hl₀ : l₀.Free) (hl : l.Free) (hidle : Idle s s')
    (hview : RingView s' r ∨ ∃ a r', (∀ k body res n, a ≠ .answer k body res n) ∧
      Ring.step clearedRes r a = some r' ∧ RingView s' r') : RingStep s t l r s' := by
  subst hline
  exact ⟨.of_calls hth hr hg hc hsame hmoves hop hl.not_past hl₀.not_past, hl, hidle.counters,
    hidle.files, hview⟩

end RingStep

/-! ### The statements of both threads -/

section

variable {x : Thread (Fin numTc)} (h : RingView s r) (hth : Threads s) (hr : Runs s (tid x))

include h hth hr

/-- What a thread knows of the buffer inside the monitor. -/
theorem section_buffer (hline : s.line (tid x) = l₀) (hm : l₀.place.monitor = some mon) :
    s.buffer = l₀.written r.buffer ∧ l₀.ready r.buffer := by
  subst hline
  exact h.buffer_of_owner (hth.owner hr hm)

/-- In its section, not taken, the thread is the owner in the model. -/
theorem section_owner (hline : s.line (tid x) = l₀) (hm : l₀.place.monitor = some mon)
    (hpast : l₀.place ≠ .past mon) : r.mon.owner = some x := by
  subst hline
  exact h.owner hth hr hm hpast

/-- `monitor_enter`, for which the model takes the step `a`. -/
theorem enter_step (l : Line C) (hline : s.line (tid x) = l₀) (hsame : l₀.SameThread l)
    (hout : l₀.place = .outside) (hcomes : l.place = .comes mon) (hl₀ : l₀.Free) (hl : l.Free)
    {a : Ring.Act (Fin numTc) C _ _} (ha : ∀ k body res n, a ≠ .answer k body res n)
    (hstep : Ring.step clearedRes r a = some (r.next x l r.buffer (r.mon.enter x) r.events))
    (hs : s.call (tid x) (.monitorEnter mon) l = some s') : RingStep s (tid x) l r s' := by
  obtain ⟨sched, hcall, rfl⟩ := Process.call_eq_some hs
  have hg : Calls s (tid x) (.monitorEnter mon) l { s.goto (tid x) l with sched := sched } :=
    ⟨hcall, rfl⟩
  have hmoves : Moves (tid x) (.call (.monitorEnter mon)) l₀.place l.place := by
    rw [hout, hcomes]
    exact .enter mon
  apply RingStep.of_calls hth hr hline hg (by simp) hsame hmoves
    (by simp [Sched.Act.operates, mon, rwMon]) hl₀ hl ⟨rfl, rfl, rfl, rfl⟩
  subst hline
  exact Or.inr ⟨a, _, ha, hstep, h.enters hth hr hg rfl rfl hout hcomes⟩

/-- `monitor_wait`, for which the model runs the body. -/
theorem wait_step (l : Line C) (hline : s.line (tid x) = l₀) (hsame : l₀.SameThread l)
    (hm : l₀.place.monitor = some mon) (hpast : l₀.place ≠ .past mon)
    (hcomes : l.place = .comes mon) (hl₀ : l₀.Free) (hl : l.Free)
    (hwritten : l₀.written r.buffer = r.buffer)
    (hbody : Ring.step clearedRes r .body =
      some (r.next x l r.buffer (r.mon.wait x) r.events))
    (hs : s.call (tid x) (.monitorWait mon) l = some s') : RingStep s (tid x) l r s' := by
  obtain ⟨hbuffer, -⟩ := section_buffer h hth hr hline hm
  obtain ⟨sched, hcall, rfl⟩ := Process.call_eq_some hs
  have hg : Calls s (tid x) (.monitorWait mon) l { s.goto (tid x) l with sched := sched } :=
    ⟨hcall, rfl⟩
  have hmoves : Moves (tid x) (.call (.monitorWait mon)) l₀.place l.place := by
    rw [hcomes]
    exact .wait hm
  apply RingStep.of_calls hth hr hline hg (by simp) hsame hmoves
    (by simp [Sched.Act.operates, mon, rwMon]) hl₀ hl ⟨rfl, rfl, rfl, rfl⟩
  subst hline
  have hview := h.waits hth hr hg hm hpast hcomes
  change RingView _ (r.next _ _ s.buffer _ s.events) at hview
  rw [hbuffer, hwritten, ← h.events] at hview
  exact Or.inr ⟨.body, _, by simp, hbody, hview⟩

/-- `monitor_signal`, with which the model takes the section. -/
theorem signal_ring_step (l : Line C) (hline : s.line (tid x) = l₀) (hsame : l₀.SameThread l)
    (hm : l₀.place.monitor = some mon) (hbefore : l₀.place ≠ .past mon)
    (hpast : l.place = .past mon) (hl₀ : l₀.Free) (hl : l.Free)
    (hwritten : ∀ b, l.written b = b) (hready : ∀ b, l.ready b)
    (hg : Calls s (tid x) (.monitorSignal mon) l s') (hidle : Idle s s')
    {a : Ring.Act (Fin numTc) C _ _} (ha : ∀ k body res n, a ≠ .answer k body res n)
    (hstep : Ring.step clearedRes r a =
      some (r.next x l s'.buffer r.mon.signal.exit s'.events)) : RingStep s (tid x) l r s' := by
  have hmoves : Moves (tid x) (.call (.monitorSignal mon)) l₀.place l.place := by
    rw [hpast]
    exact .signal hm
  apply RingStep.of_calls hth hr hline hg (by simp) hsame hmoves
    (by simp [Sched.Act.operates, mon, rwMon]) hl₀ hl hidle
  subst hline
  exact Or.inr ⟨a, _, ha, hstep, h.signals hth hr hg hm hbefore hpast hwritten hready⟩

/-- `monitor_exit` from a section that the model has taken. -/
theorem past_step (l : Line C) (hline : s.line (tid x) = l₀) (hsame : l₀.SameThread l)
    (hpast : l₀.place = .past mon) (hout : l.place = .outside) (hl₀ : l₀.Free) (hl : l.Free)
    (hcons : l.consumerPc = l₀.consumerPc) (hprod : l.producerPc = l₀.producerPc)
    (hwritten : l₀.written r.buffer = r.buffer)
    (hs : s.call (tid x) (.monitorExit mon) l = some s') : RingStep s (tid x) l r s' := by
  have hm : l₀.place.monitor = some mon := by
    rw [hpast]
    rfl
  obtain ⟨hbuffer, -⟩ := section_buffer h hth hr hline hm
  obtain ⟨sched, hcall, rfl⟩ := Process.call_eq_some hs
  have hg : Calls s (tid x) (.monitorExit mon) l { s.goto (tid x) l with sched := sched } :=
    ⟨hcall, rfl⟩
  have hmoves : Moves (tid x) (.call (.monitorExit mon)) l₀.place l.place := by
    rw [hout]
    exact .exit hm
  apply RingStep.of_calls hth hr hline hg (by simp) hsame hmoves
    (by simp [Sched.Act.operates, mon, rwMon]) hl₀ hl ⟨rfl, rfl, rfl, rfl⟩
  subst hline
  have hview := h.leaves hth hr hg hm hout
  rw [if_pos hpast] at hview
  change RingView _ (r.next _ _ s.buffer _ s.events) at hview
  rw [hbuffer, hwritten, ← h.events, h.next_self hcons hprod] at hview
  exact Or.inl hview

/-- A statement inside the monitor section. -/
theorem section_step (l : Line C) (hline : s.line (tid x) = l₀) (hsame : l₀.SameThread l)
    (hm : l₀.place.monitor = some mon) (hpast : l₀.place ≠ .past mon)
    (hm' : l.place.monitor = some mon) (hpast' : l.place ≠ .past mon)
    (hcons : l.consumerPc = l₀.consumerPc) (hprod : l.producerPc = l₀.producerPc)
    (hl₀ : l₀.Free) (hl : l.Free) {b : Buffer C} (hbuffer : b = l.written r.buffer)
    (hready : l.ready r.buffer) :
    RingStep s (tid x) l r ({ s with buffer := b }.goto (tid x) l) := by
  have hg : Goes s (tid x) l ({ s with buffer := b }.goto (tid x) l) := ⟨rfl, rfl⟩
  have hplace : ∀ m, l.place.monitor = some m → l₀.place.monitor = some m := by
    intro m hmon
    rw [← hmon, hm, hm']
  apply RingStep.of_goes hth hr hline hg hsame hplace hl₀ hl ⟨rfl, rfl, rfl, rfl⟩
  subst hline
  have hview := h.executes hth hr hg hplace hm (iff_of_false hpast' hpast) hbuffer hready rfl
  rw [h.next_self hcons hprod] at hview
  exact Or.inl hview

/-- `sthread_yield` -/
theorem yield_step (l : Line C) (hline : s.line (tid x) = l₀) (hsame : l₀.SameThread l)
    (hplace : l.place = l₀.place) (hpast : l₀.place ≠ .past mon)
    (hcons : l.consumerPc = l₀.consumerPc) (hprod : l.producerPc = l₀.producerPc)
    (hwritten : ∀ b, l.written b = l₀.written b) (hready : ∀ b, l.ready b = l₀.ready b)
    (hl₀ : l₀.Free) (hl : l.Free) (hs : s.call (tid x) .yield l = some s') :
    RingStep s (tid x) l r s' := by
  obtain ⟨sched, hstep, rfl⟩ := Process.call_eq_some hs
  have hg : Calls s (tid x) .yield l { s.goto (tid x) l with sched := sched } := ⟨hstep, rfl⟩
  have hmoves : Moves (tid x) (.call .yield) l₀.place l.place := by
    rw [hplace]
    exact .quiet _ rfl
  apply RingStep.of_calls hth hr hline hg (by simp) hsame hmoves (by simp [Sched.Act.operates]) hl₀
    hl ⟨rfl, rfl, rfl, rfl⟩
  subst hline
  left
  apply h.frame hg.line _ _ rfl rfl hcons hprod hwritten hready
  · exact hg.seen_quiet hth hr (by simp [Sched.Act.operates]) (by rw [hplace])
  · exact hg.owner_quiet hth hr (by simp [Sched.Act.operates])

end

/-! ### `thread_consumer` -/

section Consumer

variable (h : RingView s r) (hth : Threads s) (hr : Runs s (tidOf k))

include h hth hr

/-- In its section, not taken, consumer `k` runs the body of the model. -/
theorem consumer_body {c : ConsumerLine} (hline : s.line (tidOf k) = .consumer k c)
    (hm : c.place.monitor = some mon) (hpast : c.place ≠ .past mon) (hpc : c.ringPc = .loop) :
    Ring.step clearedRes r .body = some (r.consumerBody k) := by
  have hloop : r.consumer k = .loop := by
    rw [h.consumer, hline]
    exact hpc
  rw [Ring.step, section_owner (x := .consumer k) h hth hr hline hm hpast]
  simp [hloop]

/-- A statement of the section of consumer `k`. -/
theorem consumerSection_step {c : ConsumerLine} (c' : ConsumerLine)
    (hline : s.line (tidOf k) = .consumer k c) (hm : c.place.monitor = some mon)
    (hpast : c.place ≠ .past mon) (hm' : c'.place.monitor = some mon)
    (hpast' : c'.place ≠ .past mon)
    (hpc : c'.ringPc = c.ringPc) (hc : ∀ reqD w, c = .serving reqD w → w = .fetched)
    (hc' : ∀ reqD w, c' = .serving reqD w → w = .fetched) {b : Buffer C}
    (hbuffer : b = (Line.consumer k c').written r.buffer)
    (hready : (Line.consumer k c').ready r.buffer) :
    RingStep s (tidOf k) (.consumer k c') r
      ({ s with buffer := b }.goto (tidOf k) (.consumer k c')) :=
  section_step (x := .consumer k) h hth hr (.consumer k c') hline rfl hm hpast hm' hpast' hpc rfl
    (.consumer k hc) (.consumer k hc') hbuffer hready

theorem consumerLoop_step (hline : s.line (tidOf k) = .consumer k .loop)
    (hs : s.threadConsumer (tidOf k) k i .loop = some s') :
    ∃ l, RingStep s (tidOf k) l r s' := by
  obtain ⟨hbuffer, -⟩ := section_buffer (x := .consumer k) h hth hr hline rfl
  have hbuffer : s.buffer = r.buffer := hbuffer
  have hs : (if s.buffer.availableReqs = 0 then
      s.call (tidOf k) (.monitorWait mon) (.consumer k .loop)
    else some (s.goto (tidOf k) (.consumer k .found))) = some s' := hs
  split at hs
  · rename_i hempty
    rw [hbuffer] at hempty
    have hempty : r.availableReqs = 0 := hempty
    refine ⟨.consumer k .loop, wait_step (x := .consumer k) h hth hr _ hline rfl rfl
      (by simp [Line.place, ConsumerLine.place]) rfl (.consumer k (by simp)) (.consumer k (by simp))
      rfl ?_ hs⟩
    rw [consumer_body h hth hr hline rfl (by simp [ConsumerLine.place]) rfl, Ring.consumerBody,
      if_pos hempty]
    rfl
  · rename_i hsome
    obtain rfl := Option.some.inj hs
    rw [hbuffer] at hsome
    exact ⟨_, consumerSection_step h hth hr .found hline rfl (by simp [ConsumerLine.place]) rfl
      (by simp [ConsumerLine.place]) rfl (by simp) (by simp) hbuffer hsome⟩

/-- `get_req` is past, and the model takes the section. -/
theorem consumerTaken_step {reqD : Option Nat}
    (hline : s.line (tidOf k) = .consumer k (.taken reqD))
    (hs : s.threadConsumer (tidOf k) k i (.taken reqD) = some s') :
    RingStep s (tidOf k) (.consumer k (.signalled reqD)) r s' := by
  obtain ⟨s₁, hcall, rfl⟩ := Option.map_eq_some_iff.mp hs
  obtain ⟨sched, hstep, rfl⟩ := Process.call_eq_some hcall
  obtain ⟨hbuffer, havail, hreqD⟩ := section_buffer (x := .consumer k) h hth hr hline rfl
  have hbody := consumer_body h hth hr hline rfl (by simp [ConsumerLine.place]) rfl
  refine signal_ring_step (x := .consumer k) (a := .body) h hth hr (.consumer k (.signalled reqD))
    hline rfl rfl (by simp [Line.place, ConsumerLine.place]) rfl (.consumer k (by simp))
    (.consumer k (by simp)) (fun _ => rfl) (fun _ => trivial) ⟨hstep, rfl⟩ ⟨rfl, rfl, rfl, rfl⟩ (by simp)
    ?_
  have hderef : s.deref reqD = r.deref reqD := by
    cases reqD with
    | none => rfl
    | some p =>
        show (s.buffer.heap p).map _ = (r.heap p).map _
        rw [hbuffer]
        rfl
  have hne : ¬ r.availableReqs = 0 := havail
  rw [hbody, Ring.consumerBody, if_neg hne]
  show some _ = some (r.next _ _ s.buffer _ (s.events ++ [.get k (s.deref reqD)]))
  rw [hderef, hbuffer, ← h.events, hreqD]
  rfl

/-- `free` -/
theorem consumerSent_step (hord : Order r) {p : Nat}
    (hline : s.line (tidOf k) = .consumer k (.sent p))
    (hs : s.threadConsumer (tidOf k) k i (.sent p) = some s') :
    RingStep s (tidOf k) (.consumer k .yielding) r s' := by
  obtain rfl := Option.some.inj hs
  have hpc : r.consumer k = .sent p := by
    rw [h.consumer, hline]
    rfl
  generalize hs' : Process.goto _ _ _ = s'
  have hg : Goes s (tidOf k) (.consumer k .yielding) s' := by
    rw [← hs']
    exact ⟨rfl, rfl⟩
  have hidle : Idle s s' := by
    rw [← hs']
    exact ⟨rfl, rfl, rfl, rfl⟩
  apply RingStep.of_goes hth hr hline hg rfl (fun m hm => hm) (.consumer k (by simp))
    (.consumer k (by simp)) hidle
  refine Or.inr ⟨.free k, _, by simp, by rw [Ring.step, hpc], ?_⟩
  have hview := h.writes (x := .consumer k) hth hr hg (by rw [tid, hline]; rfl) rfl
    (hord.heldLive k p (by rw [hpc]; rfl)) (d := none) (by rw [← hs']; rfl)
  have hevents : s'.events = r.events ++ [.free k p] := by
    rw [← hs', h.events]
    rfl
  rw [hevents] at hview
  exact hview

/-- The statements of `thread_consumer` that are none of its request's. -/
theorem consumer_step (hord : Order r) {c : ConsumerLine}
    (hline : s.line (tidOf k) = .consumer k c) (hc : ∀ reqD w, c ≠ .serving reqD w)
    (hs : s.threadConsumer (tidOf k) k i c = some s') : ∃ l, RingStep s (tidOf k) l r s' := by
  cases c with
  | idle =>
      have hpc : r.consumer k = .idle := by
        rw [h.consumer, hline]
        rfl
      exact ⟨_, enter_step (x := .consumer k) (a := .enterConsumer k) h hth hr (.consumer k .loop)
        hline rfl rfl rfl (.consumer k (by simp)) (.consumer k (by simp)) (by simp)
        (by rw [Ring.step, hpc]; rfl) hs⟩
  | loop => exact consumerLoop_step h hth hr hline hs
  | found =>
      obtain ⟨hbuffer, hready⟩ := section_buffer (x := .consumer k) h hth hr hline rfl
      have hbuffer : s.buffer = r.buffer := hbuffer
      obtain rfl := Option.some.inj hs
      rw [hbuffer]
      exact ⟨_, consumerSection_step h hth hr (.got _) hline rfl (by simp [ConsumerLine.place]) rfl
        (by simp [ConsumerLine.place]) rfl (by simp) (by simp) rfl ⟨hready, rfl⟩⟩
  | got reqD =>
      obtain ⟨hbuffer, hready⟩ := section_buffer (x := .consumer k) h hth hr hline rfl
      obtain rfl := Option.some.inj hs
      rw [hbuffer]
      exact ⟨_, consumerSection_step h hth hr (.taken reqD) hline rfl
        (by simp [ConsumerLine.place]) rfl (by simp [ConsumerLine.place]) rfl (by simp) (by simp)
        rfl hready⟩
  | taken reqD => exact ⟨_, consumerTaken_step h hth hr hline hs⟩
  | signalled reqD =>
      exact ⟨_, past_step (x := .consumer k) h hth hr (.consumer k (.serving reqD .fetched)) hline
        rfl rfl rfl (.consumer k (by simp)) (.consumer k (by simp)) rfl rfl rfl hs⟩
  | serving reqD w => exact absurd rfl (hc reqD w)
  | sent p => exact ⟨_, consumerSent_step h hth hr hord hline hs⟩
  | yielding =>
      exact ⟨_, yield_step (x := .consumer k) h hth hr (.consumer k .idle) hline rfl rfl
        (by simp [Line.place, ConsumerLine.place]) rfl rfl (fun _ => rfl) (fun _ => rfl)
        (.consumer k (by simp)) (.consumer k (by simp)) hs⟩

end Consumer

/-! ### `thread_producer` -/

section Producer

variable (h : RingView s r) (hth : Threads s) (hr : Runs s producerTid)

include h hth hr

omit hth hr in
theorem producer_pc {c : ProducerLine C} (hline : s.line producerTid = .producer c) :
    r.producer = c.ringPc := by
  rw [h.producer, hline]
  rfl

theorem producerLoop_step (hline : s.line producerTid = .producer .loop)
    (hs : s.threadProducer producerTid i .loop = some s') :
    ∃ l, RingStep s producerTid l r s' := by
  obtain ⟨hbuffer, -⟩ := section_buffer (x := .producer) h hth hr hline rfl
  have hbuffer : s.buffer = r.buffer := hbuffer
  have hpast : (Line.producer .loop : Line C).place ≠ .past mon := by
    simp [Line.place, ProducerLine.place]
  have hbody : Ring.step clearedRes r .body = some r.producerBody := by
    rw [Ring.step, section_owner (x := .producer) h hth hr hline rfl hpast]
    simp [producer_pc h hline, ProducerLine.ringPc]
  have hs : (if s.buffer.availableReqs = ringSize then
      s.call producerTid (.monitorWait mon) (.producer .loop)
    else some (s.goto producerTid (.producer .receiving))) = some s' := hs
  split at hs
  · rename_i hfull
    rw [hbuffer] at hfull
    have hfull : r.availableReqs = ringSize := hfull
    refine ⟨.producer .loop, wait_step (x := .producer) h hth hr _ hline trivial rfl hpast rfl
      (.producer _) (.producer _) rfl ?_ hs⟩
    rw [hbody, Ring.producerBody, if_pos hfull]
    rfl
  · rename_i hroom
    obtain rfl := Option.some.inj hs
    rw [hbuffer] at hroom
    have hroom : ¬ r.availableReqs = ringSize := hroom
    have hg : Goes s producerTid (.producer .receiving)
        (s.goto producerTid (.producer .receiving)) := ⟨rfl, rfl⟩
    refine ⟨.producer .receiving, RingStep.of_goes hth hr hline hg trivial (fun m hm => hm)
      (.producer _) (.producer _) ⟨rfl, rfl, rfl, rfl⟩ (Or.inr ⟨.body, _, by simp, hbody, ?_⟩)⟩
    -- the monitor is held on, so the model sees the owner as before
    have hview := h.executes (x := .producer) hth hr hg
      (by rw [tid, hline]; exact fun m hm => hm) (by rw [tid, hline]; rfl)
      (by rw [tid, hline]; exact iff_of_false (by simp [Line.place, ProducerLine.place]) hpast)
      hbuffer trivial rfl
    rw [Ring.producerBody, if_neg hroom]
    exact hview

/-- A statement of the producer's section. -/
theorem producerSection_step {c : ProducerLine C} (c' : ProducerLine C)
    (hline : s.line producerTid = .producer c) (hm : c.place.monitor = some mon)
    (hpast : c.place ≠ .past mon) (hm' : c'.place.monitor = some mon)
    (hpast' : c'.place ≠ .past mon)
    (hpc : c'.ringPc = c.ringPc) {b : Buffer C}
    (hbuffer : b = (Line.producer c').written r.buffer)
    (hready : (Line.producer c').ready r.buffer) :
    RingStep s producerTid (.producer c') r
      ({ s with buffer := b }.goto producerTid (.producer c')) :=
  section_step (x := .producer) h hth hr (.producer c') hline trivial hm hpast hm' hpast' rfl hpc
    (.producer _) (.producer _) hbuffer hready

/-- `my_recvfrom` -/
theorem producerReceiving_step (hline : s.line producerTid = .producer .receiving)
    (hs : s.threadProducer producerTid i .receiving = some s') :
    ∃ l, RingStep s producerTid l r s' := by
  obtain ⟨hbuffer, -⟩ := section_buffer (x := .producer) h hth hr hline rfl
  have hbuffer : s.buffer = r.buffer := hbuffer
  unfold Process.threadProducer at hs
  cases i with
  | again =>
      exact ⟨_, yield_step (x := .producer) h hth hr (.producer .receiving) hline trivial rfl
        (by simp [Line.place, ProducerLine.place]) rfl rfl (fun _ => rfl) (fun _ => rfl)
        (.producer _) (.producer _) hs⟩
  | datagram p d =>
      cases hp : s.buffer.heap p with
      | some d' => simp [hp] at hs
      | none =>
          have hfree : r.heap p = none := by
            rw [hbuffer] at hp
            exact hp
          cases d with
          | none =>
              simp only [hp] at hs
              obtain rfl := Option.some.inj hs
              exact ⟨_, producerSection_step h hth hr (.empty p) hline rfl
                (by simp [ProducerLine.place]) rfl (by simp [ProducerLine.place]) rfl hbuffer
                hfree⟩
          | some d =>
              simp only [hp] at hs
              obtain rfl := Option.some.inj hs
              rw [hbuffer]
              exact ⟨_, producerSection_step h hth hr (.received p d) hline rfl
                (by simp [ProducerLine.place]) rfl (by simp [ProducerLine.place]) rfl rfl hfree⟩
  | none => cases hs
  | stack st => cases hs

/-- `put_req` is past, and the model takes the section. -/
theorem producerCounted_step {p : Nat} {d : Descriptor C}
    (hline : s.line producerTid = .producer (.counted p d))
    (hs : s.threadProducer producerTid i (.counted p d) = some s') :
    RingStep s producerTid (.producer .signalled) r s' := by
  obtain ⟨s₁, hcall, rfl⟩ := Option.map_eq_some_iff.mp hs
  obtain ⟨sched, hstep, rfl⟩ := Process.call_eq_some hcall
  obtain ⟨hbuffer, hready⟩ := section_buffer (x := .producer) h hth hr hline rfl
  have hheap : r.heap p = none := hready
  refine signal_ring_step (x := .producer) (a := .receive p (some d)) h hth hr
    (.producer .signalled) hline trivial rfl (by simp [Line.place, ProducerLine.place]) rfl
    (.producer _) (.producer _) (fun _ => rfl) (fun _ => trivial) ⟨hstep, rfl⟩ ⟨rfl, rfl, rfl, rfl⟩
    (by simp) ?_
  rw [Ring.step, producer_pc h hline, hheap]
  show some _ = some (r.next _ _ s.buffer _ (s.events ++ [.put p d]))
  rw [hbuffer, ← h.events]
  rfl

/-- After an empty datagram the monitor is left without a signal. -/
theorem producerEmpty_step {p : Nat} (hline : s.line producerTid = .producer (.empty p))
    (hs : s.threadProducer producerTid i (.empty p) = some s') :
    RingStep s producerTid (.producer .idle) r s' := by
  obtain ⟨hbuffer, hready⟩ := section_buffer (x := .producer) h hth hr hline rfl
  have hbuffer : s.buffer = r.buffer := hbuffer
  have hheap : r.heap p = none := hready
  have hpc : r.producer = .receiving := producer_pc h hline
  obtain ⟨sched, hstep, rfl⟩ := Process.call_eq_some hs
  have hg : Calls s producerTid (.monitorExit mon) (.producer .idle)
      { s.goto producerTid (.producer .idle) with sched := sched } := ⟨hstep, rfl⟩
  apply RingStep.of_calls hth hr hline hg (by simp) trivial (.exit rfl)
    (by simp [Sched.Act.operates, mon, rwMon]) (.producer _) (.producer _) ⟨rfl, rfl, rfl, rfl⟩
  refine Or.inr ⟨.receive p none, r.producerReceived p none, by simp,
    by rw [Ring.step, hpc, hheap], ?_⟩
  have hview := h.leaves (x := .producer) hth hr hg (by rw [tid, hline]; rfl) rfl
  rw [if_neg (by rw [tid, hline]; simp [Line.place, ProducerLine.place])] at hview
  change RingView _ (r.next _ _ s.buffer _ s.events) at hview
  rw [hbuffer, ← h.events] at hview
  exact hview

/-- The statements of `thread_producer`. -/
theorem producer_step {c : ProducerLine C} (hline : s.line producerTid = .producer c)
    (hs : s.threadProducer producerTid i c = some s') : ∃ l, RingStep s producerTid l r s' := by
  cases c with
  | idle =>
      exact ⟨_, enter_step (x := .producer) (a := .enterProducer) h hth hr (.producer .loop) hline
        trivial rfl rfl (.producer _) (.producer _) (by simp)
        (by rw [Ring.step, producer_pc h hline]; rfl) hs⟩
  | loop => exact producerLoop_step h hth hr hline hs
  | receiving => exact producerReceiving_step h hth hr hline hs
  | received p d =>
      obtain ⟨hbuffer, hready⟩ := section_buffer (x := .producer) h hth hr hline rfl
      obtain rfl := Option.some.inj hs
      rw [hbuffer]
      exact ⟨_, producerSection_step h hth hr (.put p d) hline rfl (by simp [ProducerLine.place])
        rfl (by simp [ProducerLine.place]) rfl rfl hready⟩
  | put p d =>
      obtain ⟨hbuffer, hready⟩ := section_buffer (x := .producer) h hth hr hline rfl
      obtain rfl := Option.some.inj hs
      rw [hbuffer]
      exact ⟨_, producerSection_step h hth hr (.counted p d) hline rfl
        (by simp [ProducerLine.place]) rfl (by simp [ProducerLine.place]) rfl rfl hready⟩
  | counted p d => exact ⟨_, producerCounted_step h hth hr hline hs⟩
  | signalled =>
      exact ⟨_, past_step (x := .producer) h hth hr (.producer .yielding) hline trivial rfl rfl
        (.producer _) (.producer _) rfl rfl rfl hs⟩
  | empty p => exact ⟨_, producerEmpty_step h hth hr hline hs⟩
  | yielding =>
      exact ⟨_, yield_step (x := .producer) h hth hr (.producer .idle) hline trivial rfl
        (by simp [Line.place, ProducerLine.place]) rfl rfl (fun _ => rfl) (fun _ => rfl)
        (.producer _) (.producer _) hs⟩

end Producer

end Sthreads.Server
