/-
The whole server goes on.

As long as no release of the lock signals a reader past a writer that waits (`ReleaseServed`),
some thread can take a step without a datagram, unless the producer is in `my_recvfrom` and
every consumer has answered what it has fetched and is back at the ring.  The producer has
the monitor of the ring there, so nothing that is still in the ring is fetched before the
next datagram comes.
-/
import Sthreads.Proofs.Server.RingProgress
import Sthreads.Proofs.Server.RwStranded
import Sthreads.Proofs.Server.SystemSteps

namespace Sthreads.Server

variable {K C : Type} [DecidableEq K]

/-! ### The threads in the functions of the lock -/

/-- The threads in one of the four functions are somewhere in the monitor. -/
def Queued (s : RwLock K) : Prop := s.rwMon.Holds fun t => (s.pc t).inMonitorB = true

omit [DecidableEq K] in
theorem Queued.init : Queued (RwLock.init : RwLock K) :=
  Monitor.Holds.empty.congr fun t => by simp [RwLock.init, Pc.inMonitorB]

theorem Queued.enter {s : RwLock K} (h : Queued s) {t : K} {c : Pc}
    (ht : (s.pc t).inMonitorB = false) (hc : c.inMonitorB = true) : Queued (enterRw s t c) := by
  refine (Monitor.Holds.enter h (t := t) (by simp [ht])).congr fun u => ?_
  by_cases hu : u = t
  · simp [enterRw, hu, hc]
  · simp [enterRw, hu, Function.update_of_ne]

/-- The owner leaves, having signalled or not. -/
theorem Queued.leave {s s' : RwLock K} (h : Queued s) {t : K} (ho : s.rwMon.owner = some t)
    {c : Pc} (hc : c.inMonitorB = false)
    (hmon : s'.rwMon = s.rwMon.exit ∨ s'.rwMon = s.rwMon.signal.exit)
    (hpc : s'.pc = Function.update s.pc t c) : Queued s' := by
  have hin : ∀ u, (s'.pc u).inMonitorB = true ↔ (s.pc u).inMonitorB = true ∧ u ≠ t := by
    intro u
    rw [hpc]
    by_cases hu : u = t
    · simp [hu, hc]
    · simp [hu, Function.update_of_ne]
  rcases hmon with hmon | hmon
  · rw [Queued, hmon]
    exact (Monitor.Holds.exit h ho).congr hin
  · have hso : s.rwMon.signal.owner = some t := by rw [Monitor.signal_owner, ho]
    rw [Queued, hmon]
    exact ((Monitor.Holds.signal h ho).exit hso).congr hin

/-- The owner goes to sleep in a wait loop. -/
theorem Queued.wait {s s' : RwLock K} (h : Queued s) {t : K} (ho : s.rwMon.owner = some t)
    {c : Pc} (hc : c.inMonitorB = true) (hmon : s'.rwMon = s.rwMon.wait t)
    (hpc : s'.pc = Function.update s.pc t c) : Queued s' := by
  have ht : (s.pc t).inMonitorB = true :=
    (h.mem t).mp (List.mem_append_left _ (by rw [Monitor.present, ho]; exact List.mem_cons_self))
  rw [Queued, hmon]
  refine (Monitor.Holds.wait h ho).congr fun u => ?_
  rw [hpc]
  by_cases hu : u = t
  · simp [hu, hc, ht]
  · simp [hu, Function.update_of_ne]

theorem Queued.step {s s' : RwLock K} {a : RwAct K} (h : Queued s) (hs : rwStep s a = some s') :
    Queued s' := by
  cases a with
  | request t type =>
      simp only [rwStep] at hs
      split at hs
      · rename_i e hpc _
        obtain rfl := Option.some.inj hs
        exact h.enter (by rw [hpc]; rfl) rfl
      · obtain rfl := Option.some.inj hs
        exact h
      · cases hs
  | finish t =>
      simp only [rwStep] at hs
      split at hs
      · rename_i e hpc
        obtain rfl := Option.some.inj hs
        exact h.enter (by rw [hpc]; rfl) rfl
      · cases hs
  | body =>
      obtain ⟨t, ho, hmove⟩ := rwStep_move hs
      cases hmove with
      | sleeps e hc hpc hmon => exact h.wait ho rfl hmon hpc
      | passes e hc hpc hmon => exact h.leave ho rfl (Or.inl hmon) hpc
      | leaves e hc hpc hmon => exact h.leave ho rfl hmon hpc

/-! ### What a consumer has to do, and where it is -/

/-- The three program points of a consumer go together. -/
inductive Linked : ConsumerPc → Work → Pc → Prop
  | away {cpc : ConsumerPc} (hc : ∀ r, cpc ≠ .serving r) : Linked cpc .none .fetch
  | fetched (r : Option Nat) : Linked (.serving r) .none .fetch
  | queued (r : Option Nat) (th : Snfs.ReadThread) {e : Service} {c : Pc} (hc : c.Locks e) :
      Linked (.serving r) (.handling th) c
  | running (r : Option Nat) (th : Snfs.ReadThread) (e : Service) :
      Linked (.serving r) (.handling th) (.running e)
  | answered (r : Option Nat) (res : Snfs.Res) (ressz : Nat) {c : Pc} (hc : c.Past) :
      Linked (.serving r) (.answered res ressz) c

theorem Linked.moves {cpc : ConsumerPc} {w : Work} {c c' : Pc} (h : Linked cpc w c)
    (hm : c.Moves c') : Linked cpc w c' := by
  cases hm with
  | leaves e =>
      cases h with
      | queued r th hc => cases hc
      | answered r res ressz hc => exact .answered r res ressz .fetch
  | @sleeps _ e hc =>
      cases h with
      | queued r th hc' => exact .queued r th (e := e) .waiting
      | answered r res ressz hc' => cases hc' <;> cases hc
      | _ => cases hc
  | @passes _ e hc =>
      cases h with
      | queued r th hc' => exact .running r th e
      | answered r res ressz hc' => cases hc' <;> cases hc
      | _ => cases hc

/-- What holds of the ring, the lock and the consumers in every state. -/
structure Going [Fintype K] (s : System K C) : Prop where
  order : Order s.ring
  flowing : Flowing s.ring
  queued : Queued s.rw
  linked : ∀ k, Linked (s.ring.consumer k) (s.work k) (s.rw.pc k)

namespace Going

variable [Fintype K] {s s' : System K C} {k : K}

theorem init (fs : Snfs.Fs) : Going (System.init fs : System K C) :=
  ⟨Order.init, Flowing.init, Queued.init, fun _ => .away nofun⟩

/-- A step that leaves the ring. -/
theorem of_rw {a : RwAct K} (h : Going s) (hring : s'.ring = s.ring)
    (hrw : rwStep s.rw a = some s'.rw)
    (hlinked : ∀ k, Linked (s.ring.consumer k) (s'.work k) (s'.rw.pc k)) : Going s' :=
  ⟨hring ▸ h.order, hring ▸ h.flowing, h.queued.step hrw, fun k => hring ▸ hlinked k⟩

/-- A step that leaves the lock. -/
theorem of_ring (hcard : Fintype.card K ≤ ringSize)
    {a : Ring.Act K C (Snfs.Page 1036) (Snfs.Page 1540)} (h : Going s) (hrw : s'.rw = s.rw)
    (hring : Ring.step clearedRes s.ring a = some s'.ring)
    (hlinked : ∀ k, Linked (s'.ring.consumer k) (s'.work k) (s.rw.pc k)) : Going s' :=
  ⟨h.order.step hring, h.flowing.step hcard h.order hring, hrw ▸ h.queued,
    fun k => hrw ▸ hlinked k⟩

/-- A step that leaves both. -/
theorem of_same (h : Going s) (hring : s'.ring = s.ring) (hrw : s'.rw = s.rw)
    (hlinked : ∀ k, Linked (s.ring.consumer k) (s'.work k) (s.rw.pc k)) : Going s' :=
  ⟨hring ▸ h.order, hring ▸ h.flowing, hrw ▸ h.queued, fun k => hring ▸ hrw ▸ hlinked k⟩

theorem take {stack : Snfs.Stack} (h : Going s) (hs : s.take k stack = some s') : Going s' := by
  rw [System.take] at hs
  split at hs
  · rename_i p hcons hwork
    obtain ⟨d, -, hs⟩ := Option.bind_eq_some_iff.mp hs
    obtain ⟨rw', hrw, rfl⟩ := Option.map_eq_some_iff.mp hs
    refine h.of_rw rfl hrw fun k' => ?_
    have hpc : s.rw.pc k = .fetch := by
      have hk := h.linked k
      rw [hcons, hwork] at hk
      generalize s.rw.pc k = c at hk
      cases hk with
      | away hc => rfl
      | fetched => rfl
    simp only [rwStep, hpc] at hrw
    dsimp only
    rcases findService_ofReq d.req with ⟨hargs, hservice⟩ | ⟨a, e, hargs, hservice, -⟩
    · rw [hservice] at hrw
      obtain rfl := Option.some.inj hrw
      rw [hargs]
      by_cases hk : k' = k
      · rw [hk, Function.update_self, hcons, hpc]
        exact .answered _ _ _ .fetch
      · rw [Function.update_of_ne hk]
        exact h.linked k'
    · rw [hservice] at hrw
      obtain rfl := Option.some.inj hrw
      have hpcs : (enterRw s.rw k (.lock e)).pc = Function.update s.rw.pc k (.lock e) := rfl
      rw [hargs, hpcs]
      by_cases hk : k' = k
      · rw [hk, Function.update_self, Function.update_self, hcons]
        exact .queued _ _ .lock
      · rw [Function.update_of_ne hk, Function.update_of_ne hk]
        exact h.linked k'
  · cases hs

theorem handle (h : Going s) (hs : s.handle k = some s') : Going s' := by
  rw [System.handle] at hs
  split at hs
  · rename_i e th hpc hwork
    have hk := h.linked k
    rw [hpc, hwork] at hk
    generalize hcons : s.ring.consumer k = cpc at hk
    cases hk with
    | queued r th hc => cases hc
    | running r th e =>
        split at hs
        · rename_i x hrest
          obtain ⟨rw', hrw, rfl⟩ := Option.map_eq_some_iff.mp hs
          refine h.of_rw rfl hrw fun k' => ?_
          simp only [rwStep, hpc] at hrw
          obtain rfl := Option.some.inj hrw
          have hpcs : (enterRw s.rw k (.unlock e)).pc = Function.update s.rw.pc k (.unlock e) := rfl
          dsimp only
          rw [hpcs]
          by_cases hk : k' = k
          · rw [hk, Function.update_self, Function.update_self, hcons]
            exact .answered _ _ _ (.unlock e)
          · rw [Function.update_of_ne hk, Function.update_of_ne hk]
            exact h.linked k'
        · obtain rfl := Option.some.inj hs
          exact h.of_same rfl rfl h.linked
        · split at hs
          · obtain rfl := Option.some.inj hs
            refine h.of_same rfl rfl fun k' => ?_
            dsimp only
            by_cases hk : k' = k
            · rw [hk, Function.update_self, hcons, hpc]
              exact .running _ _ e
            · rw [Function.update_of_ne hk]
              exact h.linked k'
          · obtain rfl := Option.some.inj hs
            exact h.of_same rfl rfl h.linked
  · cases hs

theorem send (hcard : Fintype.card K ≤ ringSize) (h : Going s) (hs : s.send k = some s') :
    Going s' := by
  rw [System.send] at hs
  split at hs
  · rename_i p res ressz hcons hpc hwork
    obtain ⟨d, hd, hs⟩ := Option.bind_eq_some_iff.mp hs
    obtain ⟨r, hr, rfl⟩ := Option.map_eq_some_iff.mp hs
    obtain ⟨haway, hothers, -⟩ := Ring.answer_move h.order hcons hd hr
    refine h.of_ring hcard rfl hr fun k' => ?_
    dsimp only
    by_cases hk : k' = k
    · rw [hk, Function.update_self, hpc]
      exact .away haway
    · rw [Function.update_of_ne hk, (hothers k' hk).1]
      exact h.linked k'
  · cases hs

theorem ring (hcard : Fintype.card K ≤ ringSize)
    {a : Ring.Act K C (Snfs.Page 1036) (Snfs.Page 1540)}
    {r : Ring K C (Snfs.Page 1036) (Snfs.Page 1540)} (h : Going s)
    (ha : ∀ k body res n, a ≠ .answer k body res n) (hr : Ring.step clearedRes s.ring a = some r) :
    Going { s with ring := r } := by
  refine h.of_ring hcard rfl hr fun k => ?_
  have hk := h.linked k
  dsimp only
  cases Ring.move h.order ha hr with
  | fetched k' p d hk' hcons hheap hd hevs =>
      rw [hcons]
      by_cases heq : k = k'
      · subst heq
        rw [hk'] at hk
        rw [Function.update_self]
        generalize s.work k = w at hk ⊢
        generalize s.rw.pc k = c at hk ⊢
        cases hk with
        | away hc => exact .fetched _
      · rw [Function.update_of_ne heq]
        exact hk
  | other hserving haway hevs =>
      generalize hcpc : s.ring.consumer k = cpc at hk
      generalize s.work k = w at hk ⊢
      generalize s.rw.pc k = c at hk ⊢
      have hserve : ∀ x, cpc = .serving x → r.consumer k = .serving x := by
        rintro x rfl
        have hist := h.order.history k
        rw [hcpc] at hist
        obtain ⟨ts, p, d, rfl, hd, -⟩ := hist
        exact (hserving k p d hcpc hd).1
      cases hk with
      | away hc => exact .away (haway k fun x => hcpc ▸ hc x)
      | fetched x => exact hserve x rfl ▸ .fetched x
      | queued x th hc => exact hserve x rfl ▸ .queued x th hc
      | running x th e => exact hserve x rfl ▸ .running x th e
      | answered x res n hc => exact hserve x rfl ▸ .answered x res n hc

theorem step (hcard : Fintype.card K ≤ ringSize) {a : System.Act K C} (h : Going s)
    (hs : s.step a = some s') : Going s' := by
  unfold System.step at hs
  split at hs
  · cases hs
  · split at hs
    · cases hs
    · rename_i a hnot
      obtain ⟨r, hr, rfl⟩ := Option.map_eq_some_iff.mp hs
      exact h.ring hcard (fun k body res n he => hnot k body res n (he ▸ rfl)) hr
    · exact h.take hs
    · obtain ⟨r, hr, rfl⟩ := Option.map_eq_some_iff.mp hs
      obtain ⟨k, c, hpcs, hmove⟩ := rwStep_body hr
      refine h.of_rw rfl hr fun k' => ?_
      have hk' := h.linked k'
      dsimp only
      rw [hpcs]
      by_cases hk : k' = k
      · subst hk
        rw [Function.update_self]
        exact hk'.moves hmove
      · rw [Function.update_of_ne hk]
        exact hk'
    · exact h.handle hs
    · exact h.send hcard hs

end Going

/-! ### Who can go on -/

/-- A thread in a function of the lock goes on, or some handler runs. -/
theorem lock_or_running [Fintype K] {s : RwLock K} (hacc : Accounting s)
    (hplaced : Placed s.rwMon s.pc) (htaken : Taken s) (h : Queued s) {k : K}
    (hk : (s.pc k).inMonitorB = true) :
    (∃ s', rwStep s .body = some s') ∨ ∃ u e, s.pc u = .running e := by
  cases ho : s.rwMon.owner with
  | some t =>
      have ht : (s.pc t).inMonitorB = true :=
        (h.mem t).mp (List.mem_append_left _ (by rw [Monitor.present, ho]; exact List.mem_cons_self))
      refine Or.inl ?_
      simp only [rwStep, ho, monitorBody]
      cases hpc : s.pc t with
      | fetch =>
          rw [hpc] at ht
          cases ht
      | running e =>
          rw [hpc] at ht
          cases ht
      | _ => exact ⟨_, rfl⟩
  | none =>
      have hentry := h.wf ho
      have hpresent : s.rwMon.present = [] := Monitor.present_eq_nil.mpr ⟨ho, hentry⟩
      have hwaits : ∀ {u}, (s.pc u).inMonitorB = true → u ∈ s.rwMon.waiting := by
        intro u hu
        have hmem := (h.mem u).mpr hu
        rwa [hpresent, List.nil_append] at hmem
      -- whoever has the lock is not in the monitor, as all who are in it wait
      have running : ∀ {u}, (s.pc u).readingB = true ∨ (s.pc u).writingB = true →
          ∃ u e, s.pc u = .running e := by
        intro u hu
        cases hpc : s.pc u with
        | running e => exact ⟨u, e, hpc⟩
        | unlock e =>
            have hloop := hplaced.waiting u (hwaits (by rw [hpc]; rfl))
            rw [hpc] at hloop
            cases hloop
        | _ =>
            rw [hpc] at hu
            rcases hu with hu | hu <;> cases hu
      refine Or.inr ?_
      by_cases hr : s.readersActive = 0
      · have hw : s.writerActive ≠ 0 := fun hw => htaken.not_stranded
          ⟨hr, hw, List.ne_nil_of_mem (hwaits hk), ho, hentry⟩
        have hpos : 0 < countAt Pc.writingB s.pc := by
          have := hacc.writers
          omega
        obtain ⟨u, hu⟩ := exists_of_countAt_pos hpos
        exact running (Or.inr hu)
      · have hpos : 0 < countAt Pc.readingB s.pc := by
          have := hacc.readers
          omega
        obtain ⟨u, hu⟩ := exists_of_countAt_pos hpos
        exact running (Or.inl hu)

namespace System

/-- A step that is not the arrival of a datagram. -/
def Act.Inside : Act K C → Prop
  | .ring (.receive ..) => False
  | _ => True

/-- The producer is in `my_recvfrom`, and every consumer is back at the ring. -/
def Quiet (s : System K C) : Prop :=
  s.ring.producer = .receiving ∧ ∀ k, s.ring.consumer k = .loop

variable {s : System K C} {k : K}

theorem goes_on {a : Act K C} (ha : a.Inside) (hs : (s.step a).isSome = true) :
    ∃ a s', Act.Inside a ∧ s.step a = some s' := by
  obtain ⟨s', hs'⟩ := Option.isSome_iff_exists.mp hs
  exact ⟨a, s', ha, hs'⟩

theorem handle_running {e : Service} (hpc : s.rw.pc k = .running e) {th : Snfs.ReadThread}
    (hwork : s.work k = .handling th) : ∃ s', s.handle k = some s' := by
  rw [handle, hpc, hwork]
  dsimp only
  cases hrest : th.rest with
  | ret r => simp [rwStep, hpc]
  | halt e => exact ⟨_, rfl⟩
  | op o f =>
      dsimp only
      cases Snfs.Fs.handler o s.fs with
      | ok p => exact ⟨_, rfl⟩
      | error e => exact ⟨_, rfl⟩

end System

namespace Going

variable [Fintype K] {s : System K C}

/-- A consumer that runs its handler goes on. -/
theorem handles (h : Going s) {k : K} {e : Service} (hpc : s.rw.pc k = .running e) :
    ∃ s', s.handle k = some s' := by
  have hk := h.linked k
  rw [hpc] at hk
  generalize hwork : s.work k = w at hk
  generalize s.ring.consumer k = cpc at hk
  cases hk with
  | queued r th hc => cases hc
  | answered r res n hc => cases hc
  | running r th e => exact System.handle_running hpc hwork

/-- A consumer that is not at the ring goes on, or another that runs its handler does. -/
theorem consumer_goes_on (h : Going s) (hacc : Accounting s.rw)
    (hplaced : Placed s.rw.rwMon s.rw.pc) (htaken : Taken s.rw) (hopen : s.ended = none) {k : K}
    (hk : s.ring.consumer k ≠ .loop) : ∃ a s', a.Inside ∧ s.step a = some s' := by
  -- a thread in a function of the lock, whose body is free to run or whose turn a handler delays
  have locked : (s.rw.pc k).inMonitorB = true → ∃ a s', a.Inside ∧ s.step a = some s' := by
    intro hin
    rcases lock_or_running hacc hplaced htaken h.queued hin with ⟨rw', hrw⟩ | ⟨u, e, hu⟩
    · exact System.goes_on (a := .lock) trivial (by simp [System.step, hopen, hrw])
    · obtain ⟨s', hs'⟩ := h.handles hu
      exact System.goes_on (a := .handle u) trivial (by simp [System.step, hopen, hs'])
  have hlinked := h.linked k
  cases hcons : s.ring.consumer k with
  | idle =>
      exact System.goes_on (a := .ring (.enterConsumer k)) trivial
        (by simp [System.step, hopen, Ring.step, hcons])
  | loop => exact absurd hcons hk
  | sent p =>
      exact System.goes_on (a := .ring (.free k)) trivial
        (by simp [System.step, hopen, Ring.step, hcons])
  | serving reqD =>
      have hist := h.order.history k
      rw [hcons] at hist
      obtain ⟨ts, p, d, rfl, hd, -⟩ := hist
      rw [hcons] at hlinked
      generalize hwork : s.work k = w at hlinked
      generalize hpc : s.rw.pc k = c at hlinked
      cases hlinked with
      | away hc => exact absurd rfl (hc _)
      | fetched =>
          have hreq : ∃ rw', rwStep s.rw (.request k d.req.type) = some rw' := by
            simp only [rwStep, hpc]
            cases findService d.req.type with
            | none => exact ⟨_, rfl⟩
            | some e => exact ⟨_, rfl⟩
          obtain ⟨rw', hrw⟩ := hreq
          exact System.goes_on (a := .take k ⟨fun _ => 0, 0⟩) trivial
            (by simp [System.step, hopen, System.take, hcons, hwork, hd, hrw])
      | queued _ th hc =>
          refine locked ?_
          cases hc <;> rw [hpc] <;> rfl
      | running _ th e =>
          obtain ⟨s', hs'⟩ := h.handles hpc
          exact System.goes_on (a := .handle k) trivial (by simp [System.step, hopen, hs'])
      | answered _ res n hc =>
          cases hc with
          | unlock e => exact locked (by rw [hpc]; rfl)
          | fetch =>
              exact System.goes_on (a := .send k) trivial
                (by simp [System.step, hopen, System.send, hcons, hpc, hwork, hd, Ring.step])

/-- With every consumer at the ring, the producer or the owner of the ring's monitor goes on. -/
theorem ring_goes_on [Nonempty K] (h : Going s) (hopen : s.ended = none)
    (hall : ∀ k, s.ring.consumer k = .loop) (hproducer : s.ring.producer ≠ .receiving) :
    ∃ a s', a.Inside ∧ s.step a = some s' := by
  cases hprod : s.ring.producer with
  | receiving => exact absurd hprod hproducer
  | idle =>
      exact System.goes_on (a := .ring .enterProducer) trivial
        (by simp [System.step, hopen, Ring.step, hprod])
  | loop =>
      cases ho : s.ring.mon.owner with
      | some t =>
          refine System.goes_on (a := .ring .body) trivial ?_
          cases t with
          | producer => simp [System.step, hopen, Ring.step, ho, hprod]
          | consumer k => simp [System.step, hopen, Ring.step, ho, hall k]
      | none =>
          -- they would all wait, but the producer only waits alone
          have hpresent : s.ring.mon.present = [] :=
            Monitor.present_eq_nil.mpr ⟨ho, h.flowing.holds.wf ho⟩
          have hwaits : ∀ t, s.ring.inside t → t ∈ s.ring.mon.waiting := by
            intro t ht
            have hmem := (h.flowing.holds.mem t).mpr ht
            rwa [hpresent, List.nil_append] at hmem
          have hp : .producer ∈ s.ring.mon.waiting :=
            hwaits .producer (by simp [Ring.inside, hprod])
          obtain ⟨k⟩ := ‹Nonempty K›
          have hk := hwaits (.consumer k) (hall k)
          rw [(h.flowing.full hp).1] at hk
          cases List.mem_singleton.mp hk

/-- When the producer receives and every consumer is at the ring, only a datagram is a step. -/
theorem quiet_stays (h : Going s) (hquiet : s.Quiet) {a : System.Act K C} (ha : a.Inside) :
    s.step a = none := by
  obtain ⟨hprod, hall⟩ := hquiet
  have haway : ∀ k, s.work k = .none ∧ s.rw.pc k = .fetch := by
    intro k
    have hk := h.linked k
    rw [hall k] at hk
    generalize s.work k = w at hk ⊢
    generalize s.rw.pc k = c at hk ⊢
    cases hk with
    | away hc => exact ⟨rfl, rfl⟩
  unfold System.step
  split
  · rfl
  · split
    · rfl
    · rename_i a hnot
      rw [Option.map_eq_none_iff]
      cases a with
      | enterProducer => rw [Ring.step, hprod]
      | enterConsumer k => rw [Ring.step, hall k]
      | body =>
          rw [Ring.step, (h.order.receiving hprod).1]
          dsimp only
          rw [hprod]
      | receive p d => exact ha.elim
      | answer k body res n => exact absurd rfl (hnot k body res n)
      | free k => rw [Ring.step, hall k]
    · rename_i k stack
      rw [System.take, hall k]
    · -- nobody is in a function of the lock
      have ho : s.rw.rwMon.owner = none := by
        cases ho : s.rw.rwMon.owner with
        | none => rfl
        | some t =>
            have ht := (h.queued.mem t).mp (List.mem_append_left _
              (by rw [Monitor.present, ho]; exact List.mem_cons_self))
            rw [(haway t).2] at ht
            cases ht
      rw [Option.map_eq_none_iff, rwStep, ho]
    · rename_i k
      rw [System.handle, (haway k).2]
    · rename_i k
      rw [System.send, hall k]

end Going

/-! ### Runs -/

/-- The condition on a step: a release of the lock is served. -/
def System.Served (s : System K C) : System.Act K C → Prop
  | .lock => ReleaseServed s.rw .body
  | _ => True

theorem Going.run [Fintype K] (hcard : Fintype.card K ≤ ringSize) {fs₀ : Snfs.Fs}
    {tr : List (System K C × System.Act K C)} {s : System K C}
    (h : Run System.step (.init fs₀) tr s) : Going s :=
  h.invariant Going (Going.init fs₀) fun _ _ _ h hs => h.step hcard hs

/-- **The server goes on.**  As long as every release of the lock has been served, a server that
has not ended has a step without a datagram, unless the producer is in `my_recvfrom` and every
consumer has answered what it fetched and is back at the ring; then there is none. -/
theorem server_progress [Fintype K] [Nonempty K] (hcard : Fintype.card K ≤ ringSize)
    {fs₀ : Snfs.Fs} {tr : List (System K C × System.Act K C)} {s : System K C}
    (h : Run System.step (.init fs₀) tr s) (hok : ∀ p ∈ tr, p.1.Served p.2)
    (hopen : s.ended = none) :
    (∃ a s', a.Inside ∧ s.step a = some s') ↔ ¬ s.Quiet := by
  have hgoing := Going.run hcard h
  obtain ⟨hacc, hplaced, htaken⟩ := h.invariant_of
    (fun s => Accounting s.rw ∧ Placed s.rw.rwMon s.rw.pc ∧ Taken s.rw) System.Served
    ⟨Accounting.init, Placed.init, Taken.init⟩ (by
      rintro s a s' ⟨hacc, hplaced, htaken⟩ hserved hs
      rcases (System.step_parts hs).2 with heq | ⟨a', ha', hrw⟩
      · rw [heq]
        exact ⟨hacc, hplaced, htaken⟩
      · have hrelease : ReleaseServed s.rw a' := by
          cases a' with
          | body =>
              rw [ha' rfl] at hserved
              exact hserved
          | _ => trivial
        exact ⟨rwStep_accounting hacc hrw, rwStep_placed hplaced hrw,
          rwStep_taken hacc hplaced htaken hrelease hrw⟩) hok
  constructor
  · rintro ⟨a, s', ha, hs⟩ hquiet
    rw [hgoing.quiet_stays hquiet ha] at hs
    cases hs
  · intro hnot
    by_cases hall : ∀ k, s.ring.consumer k = .loop
    · exact hgoing.ring_goes_on hopen hall fun hprod => hnot ⟨hprod, hall⟩
    · obtain ⟨k, hk⟩ := not_forall.mp hall
      exact hgoing.consumer_goes_on hacc hplaced htaken hopen hk

/-- A consumer has fetched the request of a client, on a file system of one block. -/
theorem server_progress_one_request :
    ∃ s : System Bool Nat, s.ring.consumer true = .serving (some 0) ∧
      ∃ a s', System.Act.Inside a ∧ s.step a = some s' := by
  have hnew : ((Snfs.Store.new 1).map fun _ => ()) = .ok () := by decide
  cases hst : Snfs.Store.new 1 with
  | error e =>
      rw [hst] at hnew
      cases hnew
  | ok st =>
      let acts : List (System.Act Bool Nat) :=
        [.ring (.enterConsumer true), .ring .body, .ring .enterProducer, .ring .body,
          .ring (.receive 0 (some ⟨⟨1, 7, fun _ => 0⟩, 40, 264⟩)), .ring .body]
      have hfacts : (runTrace System.step (System.init (.empty st fun _ => 0)) acts).map
          (fun r => (r.2.ring.consumer true, r.2.ended.isNone)) =
          some (.serving (some 0), true) := rfl
      obtain ⟨⟨tr, s⟩, htr, hs⟩ := Option.map_eq_some_iff.mp hfacts
      obtain ⟨hcons, hopen⟩ := Prod.mk.inj hs
      refine ⟨s, hcons, (server_progress (by decide) (run_of_runTrace acts .nil htr) ?_
        (Option.isNone_iff_eq_none.mp hopen)).mpr fun hquiet => ?_⟩
      · intro p hp
        have hact : p.2 ∈ acts := by
          rw [← runTrace_acts acts htr]
          exact List.mem_map_of_mem (by simpa using hp)
        simp only [acts, List.mem_cons, List.not_mem_nil, or_false] at hact
        rcases hact with h | h | h | h | h | h <;> rw [h] <;> trivial
      · have := hquiet.2 true
        rw [hcons] at this
        cases this

end Sthreads.Server
