/-
The ring of the process and the ring with atomic monitor sections.

A consumer's section is taken when it waits or signals.  The producer's is taken in two steps, as
it holds the monitor while it receives: when the test of its loop lets it pass or wait, and when
it signals or leaves without a signal.  `written` is what a thread has done to the buffer before
its section is taken, `ready` what it has found there.
-/
import Sthreads.Proofs.Server.ProcessLock
import Sthreads.Proofs.Server.RingOrder

namespace Sthreads.Server

open User

variable {C : Type}

/-- The ring of the model. -/
abbrev ProcessRing (C : Type) := Ring (Fin numTc) C (Snfs.Page 1036) (Snfs.Page 1540)

/-- The thread of the model that a thread is. -/
def role (t : Tid) : Thread (Fin numTc) :=
  if t = producerTid then .producer else .consumer (index t)

@[simp] theorem role_tidOf (k : Fin numTc) : role (tidOf k) = .consumer k := by
  rw [role, if_neg (tidOf_ne_producerTid k), index_tidOf]

@[simp] theorem role_producerTid : role producerTid = .producer := if_pos rfl

/-- The thread of the process that a thread of the model is. -/
def tid : Thread (Fin numTc) → Tid
  | .producer => producerTid
  | .consumer k => tidOf k

@[simp] theorem role_tid (x : Thread (Fin numTc)) : role (tid x) = x := by
  cases x with
  | producer => exact role_producerTid
  | consumer k => exact role_tidOf k

/-! ### Lines of the ring -/

def ConsumerLine.ringPc : ConsumerLine → ConsumerPc
  | idle => .idle
  | loop => .loop
  | found => .loop
  | got _ => .loop
  | taken _ => .loop
  | signalled reqD => .serving reqD
  | serving reqD _ => .serving reqD
  | sent p => .sent p
  | yielding => .idle

def ProducerLine.ringPc : ProducerLine C → ProducerPc
  | idle => .idle
  | loop => .loop
  | receiving => .receiving
  | received .. => .receiving
  | put .. => .receiving
  | counted .. => .receiving
  | empty _ => .receiving
  | signalled => .idle
  | yielding => .idle

namespace Line

def consumerPc : Line C → ConsumerPc
  | consumer _ c => c.ringPc
  | _ => .idle

def producerPc : Line C → ProducerPc
  | producer c => c.ringPc
  | _ => .idle

/-- What the thread has done to the buffer when its section is not taken yet. -/
def written (b : Buffer C) : Line C → Buffer C
  | consumer _ (.got _) => b.getReq.2
  | consumer _ (.taken _) => b.getReq.2.count (-1)
  | producer (.received p d) => b.setHeap p (some d)
  | producer (.put p d) => (b.setHeap p (some d)).putReq p
  | producer (.counted p d) => ((b.setHeap p (some d)).putReq p).count 1
  | _ => b

/-- What the thread knows of the buffer when its section is not taken yet. -/
def ready (b : Buffer C) : Line C → Prop
  | consumer _ .found => b.availableReqs ≠ 0
  | consumer _ (.got reqD) => b.availableReqs ≠ 0 ∧ reqD = b.ring b.getPos
  | consumer _ (.taken reqD) => b.availableReqs ≠ 0 ∧ reqD = b.ring b.getPos
  | producer (.received p _) => b.heap p = none
  | producer (.put p _) => b.heap p = none
  | producer (.counted p _) => b.heap p = none
  | producer (.empty p) => b.heap p = none
  | _ => True

/-- Outside the monitor the buffer is as it is. -/
theorem written_of_not_owned (b : Buffer C) {l : Line C} (h : l.place.owned ≠ some mon) :
    l.written b = b := by
  unfold written
  split
  · exact absurd rfl h
  · exact absurd rfl h
  · exact absurd rfl h
  · exact absurd rfl h
  · exact absurd rfl h
  · rfl

theorem ready_of_not_owned (b : Buffer C) {l : Line C} (h : l.place.owned ≠ some mon) :
    l.ready b := by
  unfold ready
  split
  · exact absurd rfl h
  · exact absurd rfl h
  · exact absurd rfl h
  · exact absurd rfl h
  · exact absurd rfl h
  · exact absurd rfl h
  · exact absurd rfl h
  · exact trivial

/-- A write to another descriptor commutes with what the thread has done. -/
theorem written_setHeap (b : Buffer C) {l : Line C} (hl : l.ready b) {q : Nat}
    (hq : b.heap q ≠ none) (d : Option (Descriptor C)) :
    l.written (b.setHeap q d) = (l.written b).setHeap q d ∧ l.ready (b.setHeap q d) := by
  have hother : ∀ p, b.heap p = none → p ≠ q := by
    intro p hp he
    exact hq (he ▸ hp)
  unfold written ready at *
  split
  · exact ⟨rfl, hl⟩
  · exact ⟨rfl, hl⟩
  · rename_i p d'
    have hne := hother p hl
    refine ⟨?_, (Function.update_of_ne hne ..).trans hl⟩
    simp [Buffer.setHeap, Function.update_comm hne.symm]
  · rename_i p d'
    have hne := hother p hl
    refine ⟨?_, (Function.update_of_ne hne ..).trans hl⟩
    simp [Buffer.setHeap, Buffer.putReq, Function.update_comm hne.symm]
  · rename_i p d'
    have hne := hother p hl
    refine ⟨?_, (Function.update_of_ne hne ..).trans hl⟩
    simp [Buffer.setHeap, Buffer.putReq, Buffer.count, Function.update_comm hne.symm]
  · rename_i hn1 hn2 hn3 hn4 hn5
    refine ⟨rfl, ?_⟩
    split at hl <;> simp_all [Buffer.setHeap, Function.update_of_ne]

/-- What the thread has done leaves the descriptors in use. -/
theorem written_heap (b : Buffer C) {l : Line C} (hl : l.ready b) {q : Nat}
    (hq : b.heap q ≠ none) : (l.written b).heap q = b.heap q := by
  have hother : ∀ p, b.heap p = none → q ≠ p := by
    intro p hp he
    exact hq (he ▸ hp)
  unfold written ready at *
  split
  · rfl
  · rfl
  · exact Function.update_of_ne (hother _ hl) ..
  · exact Function.update_of_ne (hother _ hl) ..
  · exact Function.update_of_ne (hother _ hl) ..
  · rfl

end Line

/-- The buffer of the model. -/
def Ring.buffer (r : ProcessRing C) : Buffer C :=
  ⟨r.availableReqs, r.ring, r.getPos, r.putPos, r.heap⟩

/-- The model when thread `x` has gone on to the line `l`. -/
def Ring.next (r : ProcessRing C) (x : Thread (Fin numTc)) (l : Line C) (b : Buffer C)
    (mo : Monitor (Thread (Fin numTc)))
    (evs : List (Event (Fin numTc) C (Snfs.Page 1036) (Snfs.Page 1540))) : ProcessRing C where
  mon := mo
  availableReqs := b.availableReqs
  ring := b.ring
  getPos := b.getPos
  putPos := b.putPos
  heap := b.heap
  producer := match x with
    | .producer => l.producerPc
    | .consumer _ => r.producer
  consumer := match x with
    | .producer => r.consumer
    | .consumer k => Function.update r.consumer k l.consumerPc
  events := evs

/-- The ring of the process is as the model's ring. -/
structure RingView (s : Process C) (r : ProcessRing C) : Prop where
  mon : r.mon = (s.seen Server.mon).map role
  consumer : ∀ k, r.consumer k = (s.line (tidOf k)).consumerPc
  producer : r.producer = (s.line producerTid).producerPc
  buffer : s.buffer = (s.ownerLine Server.mon).written r.buffer
  ready : (s.ownerLine Server.mon).ready r.buffer
  events : r.events = s.events

namespace RingView

variable {s s' : Process C} {r : ProcessRing C} {x : Thread (Fin numTc)} {k : Fin numTc} {t : Tid}
  {l : Line C} {b : Buffer C} {mo : Monitor (Thread (Fin numTc))}
  {evs : List (Event (Fin numTc) C (Snfs.Page 1036) (Snfs.Page 1540))}

/-- A step that is none of the ring's. -/
theorem frame (h : RingView s r) (hline : s'.line = Function.update s.line t l)
    (hseen : s'.seen Server.mon = s.seen Server.mon)
    (howner : s'.owner Server.mon = s.owner Server.mon) (hbuffer : s'.buffer = s.buffer)
    (hevents : s'.events = s.events) (hcons : l.consumerPc = (s.line t).consumerPc)
    (hprod : l.producerPc = (s.line t).producerPc)
    (hwritten : ∀ b, l.written b = (s.line t).written b)
    (hready : ∀ b, l.ready b = (s.line t).ready b) : RingView s' r where
  mon := by rw [hseen, h.mon]
  consumer k := by
    rw [h.consumer, hline]
    by_cases hk : tidOf k = t
    · rw [hk, Function.update_self, hcons]
    · rw [Function.update_of_ne hk]
  producer := by
    rw [h.producer, hline]
    by_cases hk : producerTid = t
    · rw [hk, Function.update_self, hprod]
    · rw [Function.update_of_ne hk]
  buffer := by
    rw [hbuffer,
      ownerLine_congr (fun l : Line C => l.written r.buffer) howner hline (hwritten _)]
    exact h.buffer
  ready := by
    rw [ownerLine_congr (fun l : Line C => l.ready r.buffer) howner hline (hready _)]
    exact h.ready
  events := by rw [hevents, h.events]

/-- What a statement of a thread leads to. -/
theorem next (h : RingView s r) (hline : s'.line = Function.update s.line (tid x) l)
    (hmon : mo = (s'.seen Server.mon).map role)
    (hbuffer : s'.buffer = (s'.ownerLine Server.mon).written b)
    (hready : (s'.ownerLine Server.mon).ready b) (hevents : evs = s'.events) :
    RingView s' (r.next x l b mo evs) where
  mon := hmon
  consumer k := by
    rw [hline]
    cases x with
    | producer =>
        rw [Function.update_of_ne (show tidOf k ≠ tid .producer from tidOf_ne_producerTid k)]
        exact h.consumer k
    | consumer k' =>
        show Function.update r.consumer k' l.consumerPc k = _
        by_cases hk : k = k'
        · rw [hk, Function.update_self]
          exact congrArg Line.consumerPc (Function.update_self (tidOf k') l s.line).symm
        · rw [Function.update_of_ne hk, Function.update_of_ne
            (show tidOf k ≠ tid (.consumer k') from fun he => hk (tidOf_inj.mp he)), h.consumer]
  producer := by
    rw [hline]
    cases x with
    | producer => exact congrArg Line.producerPc (Function.update_self producerTid l s.line).symm
    | consumer k' =>
        rw [Function.update_of_ne
          (show producerTid ≠ tid (.consumer k') from (tidOf_ne_producerTid k').symm)]
        exact h.producer
  buffer := hbuffer
  ready := hready
  events := hevents

/-- The model when the thread's program point is no other. -/
theorem next_self (h : RingView s r) (hcons : l.consumerPc = (s.line (tid x)).consumerPc)
    (hprod : l.producerPc = (s.line (tid x)).producerPc) :
    r.next x l r.buffer r.mon r.events = r := by
  cases x with
  | producer =>
      have hpc : l.producerPc = r.producer := hprod.trans h.producer.symm
      simp [Ring.next, Ring.buffer, hpc]
  | consumer k =>
      have hpc : l.consumerPc = r.consumer k := hcons.trans (h.consumer k).symm
      simp [Ring.next, Ring.buffer, hpc]

/-- In a section that is not taken, the thread is the owner in the model. -/
theorem owner (h : RingView s r) (hth : Threads s) (hr : Runs s (tid x))
    (hm : (s.line (tid x)).place.monitor = some Server.mon)
    (hpast : (s.line (tid x)).place ≠ .past Server.mon) : r.mon.owner = some x := by
  rw [h.mon]
  show (s.seen Server.mon).owner.map role = some x
  rw [seen_owner (hth.owner hr hm) hpast, Option.map_some, role_tid]

/-- What the running thread has done to the buffer in its section, and what it knows. -/
theorem buffer_of_owner (h : RingView s r) (hown : s.owner Server.mon = some t) :
    s.buffer = (s.line t).written r.buffer ∧ (s.line t).ready r.buffer := by
  rw [← ownerLine_of_owner hown]
  exact ⟨h.buffer, h.ready⟩

/-- When the owner gives the monitor up, the buffer is as it is. -/
theorem buffer_given (hth : Threads s) (hown : s.owner Server.mon = some t)
    (hline : s'.line = Function.update s.line t l) (hl : l.place.owned ≠ some Server.mon)
    (b : Buffer C) :
    b = (s'.ownerLine Server.mon).written b ∧ (s'.ownerLine Server.mon).ready b := by
  have hnot := ownerLine_given hth hown hline hl
  exact ⟨(Line.written_of_not_owned b hnot).symm, Line.ready_of_not_owned b hnot⟩

/-! ### One lemma for each kind of statement -/

section

variable (h : RingView s r) (hth : Threads s) (hr : Runs s (tid x))

include h hth hr

/-- `monitor_enter` -/
theorem enters (hg : Calls s (tid x) (.monitorEnter Server.mon) l s')
    (hbuffer : s'.buffer = s.buffer) (hevents : s'.events = s.events)
    (hout : (s.line (tid x)).place = .outside) (hl : l.place = .comes Server.mon) :
    RingView s' (r.next x l r.buffer (r.mon.enter x) r.events) := by
  have hnot : l.place.owned ≠ some Server.mon := by simp [hl, Section.owned]
  have hnot' : (s.line (tid x)).place.owned ≠ some Server.mon := by simp [hout, Section.owned]
  have hunborn : (Line.unborn : Line C).place.owned ≠ some Server.mon := by
    simp [Line.place, Section.owned]
  apply h.next hg.line
  · rw [hg.seen_enter hth hr hout hl, Monitor.map_enter, role_tid, h.mon]
  · rw [hbuffer, hg.ownerLine_enter (fun l : Line C => l.written r.buffer) hth hr
      ((Line.written_of_not_owned _ hnot).trans (Line.written_of_not_owned _ hunborn).symm)
      ((Line.written_of_not_owned _ hnot').trans (Line.written_of_not_owned _ hunborn).symm)]
    exact h.buffer
  · rw [hg.ownerLine_enter (fun l : Line C => l.ready r.buffer) hth hr
      (propext (iff_of_true (Line.ready_of_not_owned _ hnot) (Line.ready_of_not_owned _ hunborn)))
      (propext (iff_of_true (Line.ready_of_not_owned _ hnot')
        (Line.ready_of_not_owned _ hunborn)))]
    exact h.ready
  · rw [hevents, h.events]

/-- A statement inside a section that is not taken. -/
theorem executes (hg : Goes s (tid x) l s')
    (hplace : ∀ m, l.place.monitor = some m → (s.line (tid x)).place.monitor = some m)
    (hm : (s.line (tid x)).place.monitor = some Server.mon)
    (hpast : l.place = .past Server.mon ↔ (s.line (tid x)).place = .past Server.mon)
    (hbuffer : s'.buffer = l.written r.buffer) (hready : l.ready r.buffer)
    (hevents : s'.events = s.events) :
    RingView s' (r.next x l r.buffer r.mon r.events) := by
  have hline : s'.ownerLine Server.mon = l := by
    rw [ownerLine_of_owner ((hg.owner Server.mon).trans (hth.owner hr hm)), hg.line,
      Function.update_self]
  apply h.next hg.line
  · rw [hg.seen_same hth hr hplace hpast, h.mon]
  · rw [hline]
    exact hbuffer
  · rw [hline]
    exact hready
  · rw [hevents, h.events]

/-- `monitor_wait` -/
theorem waits (hg : Calls s (tid x) (.monitorWait Server.mon) l s')
    (hm : (s.line (tid x)).place.monitor = some Server.mon)
    (hpast : (s.line (tid x)).place ≠ .past Server.mon) (hl : l.place = .comes Server.mon) :
    RingView s' (r.next x l s'.buffer (r.mon.wait x) s'.events) := by
  obtain ⟨hwritten, hready⟩ := buffer_given hth (hth.owner hr hm) hg.line
    (by simp [hl, Section.owned]) s'.buffer
  apply h.next hg.line _ hwritten hready rfl
  rw [hg.seen_wait hth hr hm hpast hl, Monitor.map_wait, role_tid, h.mon]

/-- `monitor_signal` -/
theorem signals (hg : Calls s (tid x) (.monitorSignal Server.mon) l s')
    (hm : (s.line (tid x)).place.monitor = some Server.mon)
    (hpast : (s.line (tid x)).place ≠ .past Server.mon) (hl : l.place = .past Server.mon)
    (hwritten : ∀ b, l.written b = b) (hready : ∀ b, l.ready b) :
    RingView s' (r.next x l s'.buffer r.mon.signal.exit s'.events) := by
  have hline : s'.ownerLine Server.mon = l := by
    rw [ownerLine_of_owner (hg.owner_signal hth hr (hth.owner hr hm)), hg.line,
      Function.update_self]
  apply h.next hg.line
  · rw [hg.seen_signal hth hr hm hpast hl, Monitor.map_exit, Monitor.map_signal, h.mon]
  · rw [hline, hwritten]
  · rw [hline]
    exact hready _
  · rfl

/-- `monitor_exit` -/
theorem leaves (hg : Calls s (tid x) (.monitorExit Server.mon) l s')
    (hm : (s.line (tid x)).place.monitor = some Server.mon) (hl : l.place = .outside) :
    RingView s' (r.next x l s'.buffer
      (if (s.line (tid x)).place = .past Server.mon then r.mon else r.mon.exit) s'.events) := by
  obtain ⟨hwritten, hready⟩ := buffer_given hth (hth.owner hr hm) hg.line
    (by simp [hl, Section.owned]) s'.buffer
  apply h.next hg.line _ hwritten hready rfl
  rw [hg.seen_exit hth hr hm hl, h.mon]
  split
  · rfl
  · rw [Monitor.map_exit]

/-- A statement outside the monitor that writes to a descriptor in use. -/
theorem writes (hg : Goes s (tid x) l s') (hout : (s.line (tid x)).place = .outside)
    (hl : l.place = .outside) {q : Nat} (hq : r.heap q ≠ none) {d : Option (Descriptor C)}
    (hbuffer : s'.buffer = s.buffer.setHeap q d) :
    RingView s' (r.next x l (r.buffer.setHeap q d) r.mon s'.events) := by
  have hnot : l.place.owned ≠ some Server.mon := by simp [hl, Section.owned]
  have hnot' : (s.line (tid x)).place.owned ≠ some Server.mon := by simp [hout, Section.owned]
  obtain ⟨hwritten, hready⟩ := Line.written_setHeap r.buffer h.ready hq d
  apply h.next hg.line
  · have hsame : s'.seen Server.mon = s.seen Server.mon := by
      apply hg.seen_same hth hr
      · intro m hm
        rw [hl] at hm
        cases hm
      · rw [hl, hout]
    rw [hsame, h.mon]
  · rw [ownerLine_congr (fun l : Line C => l.written (r.buffer.setHeap q d)) (hg.owner _) hg.line
      ((Line.written_of_not_owned _ hnot).trans (Line.written_of_not_owned _ hnot').symm)]
    exact hbuffer.trans ((congrArg (·.setHeap q d) h.buffer).trans hwritten.symm)
  · rw [ownerLine_congr (fun l : Line C => l.ready (r.buffer.setHeap q d)) (hg.owner _) hg.line
      (propext (iff_of_true (Line.ready_of_not_owned _ hnot) (Line.ready_of_not_owned _ hnot')))]
    exact hready
  · rfl

end

end RingView

end Sthreads.Server
