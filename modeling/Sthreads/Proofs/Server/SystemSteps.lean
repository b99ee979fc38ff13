/-
What the steps of the whole server do to its parts.

The ring and the lock take steps of their own models, so what is proved of these holds in
the whole server too.  The lemmas here say what a step changes for the consumers: a step on
the ring moves one of them at most, and only a fetch is a call; a body of the lock moves the
owner of its monitor on.
-/
import Sthreads.Proofs.Server.RingOrder
import Sthreads.Proofs.Server.RwAccounting
import Sthreads.Server.System
import Sthreads.Snfs.Answers

namespace Sthreads.Server

variable {K C : Type} [DecidableEq K]

/-! ### The ring -/

namespace Ring

variable {B R : Type}

/-- What a step on the ring that is not the sending of a response does for the consumers. -/
inductive Move (s s' : Ring K C B R) : Prop
  | fetched (k : K) (p : Nat) (d : Req C B) (hk : s.consumer k = .loop)
      (hcons : s'.consumer = Function.update s.consumer k (.serving (some p)))
      (hheap : s'.heap = s.heap) (hd : s.heap p = some d)
      (hevs : s'.events = s.events ++ [.get k (some (p, d))])
  | other (hserving : ∀ k p d, s.consumer k = .serving (some p) → s.heap p = some d →
        s'.consumer k = .serving (some p) ∧ s'.heap p = some d)
      (haway : ∀ k, (∀ r, s.consumer k ≠ .serving r) → ∀ r, s'.consumer k ≠ .serving r)
      (hevs : s'.events = s.events ∨ ∃ e, s'.events = s.events ++ [e] ∧
        (∀ k got, e ≠ .get k got) ∧ ∀ k c res n, e ≠ .send k c res n)

theorem move {res₀ : MsgRes R} {s s' : Ring K C B R} {a : Act K C B R} (h : Order s)
    (ha : ∀ k body res n, a ≠ .answer k body res n) (hs : step res₀ s a = some s') :
    Move s s' := by
  have hord := h.step hs
  -- a step that moves a thread in or out of the monitor
  have quiet : ∀ {k : K} (pc : ConsumerPc), (∀ r, s.consumer k ≠ .serving r) →
      (∀ r, pc ≠ .serving r) → s'.consumer = Function.update s.consumer k pc →
      s'.heap = s.heap → s'.events = s.events → Move s s' := by
    intro k pc hk hpc hcons hheap hevs
    refine .other (fun k' p d hk' hd => ?_) (fun k' hk' r => ?_) (Or.inl hevs)
    · have hne : k' ≠ k := fun he => hk _ (he ▸ hk')
      rw [hcons, hheap, Function.update_of_ne hne]
      exact ⟨hk', hd⟩
    · rw [hcons]
      by_cases hne : k' = k
      · rw [hne, Function.update_self]
        exact hpc r
      · rw [Function.update_of_ne hne]
        exact hk' r
  have same : s'.consumer = s.consumer → s'.heap = s.heap → s'.events = s.events →
      Move s s' := by
    intro hcons hheap hevs
    refine .other (fun k p d hk hd => ?_) (fun k hk r => ?_) (Or.inl hevs)
    · rw [hcons, hheap]
      exact ⟨hk, hd⟩
    · rw [hcons]
      exact hk r
  cases a with
  | answer k body res n => exact absurd rfl (ha k body res n)
  | enterProducer =>
      simp only [step] at hs
      split at hs
      · obtain rfl := Option.some.inj hs
        exact same rfl rfl rfl
      · cases hs
  | enterConsumer k =>
      simp only [step] at hs
      split at hs
      · rename_i hpc
        obtain rfl := Option.some.inj hs
        exact quiet .loop (by simp [hpc]) (by simp) rfl rfl rfl
      · cases hs
  | body =>
      simp only [step] at hs
      split at hs
      · rename_i k ho
        split at hs
        · rename_i hpc
          have hs := (Option.some.inj hs).symm
          unfold consumerBody at hs
          split at hs
          · subst hs
            exact quiet .loop (by simp [hpc]) (by simp) rfl rfl rfl
          · -- what was fetched is what the history says
            have hevs : s'.events = s.events ++ [.get k (s.deref (s.ring s.getPos))] := by
              rw [hs]
              rfl
            have hcons : s'.consumer = Function.update s.consumer k
                (.serving (s.ring s.getPos)) := by
              rw [hs]
              rfl
            have hheap : s'.heap = s.heap := by
              rw [hs]
              rfl
            have hist := hord.history k
            rw [hcons, Function.update_self, hheap] at hist
            obtain ⟨ts, p, d, hp, hd, -⟩ := hist
            have hgot : s.deref (s.ring s.getPos) = some (p, d) := by
              rw [hp, deref, hd]
              rfl
            rw [hgot] at hevs
            rw [hp] at hcons
            exact .fetched k p d hpc hcons hheap hd hevs
        · cases hs
      · split at hs
        · have hs := (Option.some.inj hs).symm
          unfold producerBody at hs
          split at hs
          · subst hs
            exact same rfl rfl rfl
          · subst hs
            exact same rfl rfl rfl
        · cases hs
      · cases hs
  | receive p d =>
      simp only [step] at hs
      split at hs
      · rename_i hpc hp
        have hs := (Option.some.inj hs).symm
        cases d with
        | none =>
            subst hs
            exact same rfl rfl rfl
        | some d =>
            subst hs
            refine .other (fun k q d' hk hd => ⟨hk, ?_⟩) (fun k hk r => hk r)
              (Or.inr ⟨.put p d, rfl, by simp, by simp⟩)
            -- the new descriptor is at a free address
            have hne : q ≠ p := fun he => by rw [he, hp] at hd; cases hd
            exact (Function.update_of_ne hne ..).trans hd
      · cases hs
  | free k =>
      simp only [step] at hs
      split at hs
      · rename_i p hpc
        have hs := (Option.some.inj hs).symm
        subst hs
        refine .other (fun k' q d' hk' hd => ?_) (fun k' hk' r => ?_)
          (Or.inr ⟨.free k p, rfl, by simp, by simp⟩)
        · have hne : k' ≠ k := fun he => by rw [he, hpc] at hk'; cases hk'
          have hq : q ≠ p := fun he => hne (h.heldOnce k' k p (by rw [hk', he]; rfl)
            (by rw [hpc]; rfl))
          exact ⟨(Function.update_of_ne hne ..).trans hk', (Function.update_of_ne hq ..).trans hd⟩
        · change Function.update s.consumer k .idle k' ≠ _
          by_cases hne : k' = k
          · simp [hne]
          · rw [Function.update_of_ne hne]
            exact hk' r
      · cases hs

/-- The sending of a response. -/
theorem answer_move {res₀ : MsgRes R} {s s' : Ring K C B R} {k : K} {p : Nat} {d : Req C B}
    {body : B} {res : MsgRes R} {n : Nat} (h : Order s) (hk : s.consumer k = .serving (some p))
    (hd : s.heap p = some d) (hs : step res₀ s (.answer k body res n) = some s') :
    (∀ r, s'.consumer k ≠ .serving r) ∧
      (∀ k', k' ≠ k → s'.consumer k' = s.consumer k' ∧
        ∀ q d', s.consumer k' = .serving (some q) → s.heap q = some d' → s'.heap q = some d') ∧
      s'.events = s.events ++
        [.send k d.cliaddr (response res₀ d res n).1 (response res₀ d res n).2] := by
  simp only [step, hk, hd, Option.map_some, Option.some.injEq] at hs
  subst hs
  refine ⟨fun r => ?_, fun k' hne => ⟨Function.update_of_ne hne .., fun q d' hq hd' => ?_⟩, rfl⟩
  · simp
  · have hqp : q ≠ p := fun he => hne (h.heldOnce k' k p (by rw [hq, he]; rfl) (by rw [hk]; rfl))
    exact (Function.update_of_ne hqp ..).trans hd'

end Ring

omit [DecidableEq K] in
/-- What an event of the ring adds to the calls. -/
theorem System.calls_snoc {s s' : System K C} {e : Event K C (Snfs.Page 1036) (Snfs.Page 1540)}
    (h : s'.ring.events = s.ring.events ++ [e]) :
    s'.calls = s.calls ++ (System.callEvent? e).toList := by
  rw [System.calls, System.calls, h, List.filterMap_append]
  congr 1

/-! ### The lock -/

/-- In the lock function, for a handler of this row. -/
inductive Pc.Locks (e : Service) : Pc → Prop
  | lock : Locks e (.lock e)
  | waiting : Locks e (.waiting e)

theorem Pc.Locks.unique {e e' : Service} {c : Pc} (h : c.Locks e) (h' : c.Locks e') : e = e' := by
  cases h with
  | lock =>
      cases h'
      rfl
  | waiting =>
      cases h'
      rfl

/-- Past the handler: in the unlock function or out of it. -/
inductive Pc.Past : Pc → Prop
  | unlock (e : Service) : Past (.unlock e)
  | fetch : Past .fetch

/-- Where a body of the lock takes a thread: into the wait loop, to its handler, or out of the
unlock function. -/
inductive Pc.Moves : Pc → Pc → Prop
  | sleeps {c : Pc} {e : Service} (hc : c.Locks e) : Moves c (.waiting e)
  | passes {c : Pc} {e : Service} (hc : c.Locks e) : Moves c (.running e)
  | leaves (e : Service) : Moves (.unlock e) .fetch

theorem Pc.Moves.not_running {c c' : Pc} (h : c.Moves c') (e : Service) : c ≠ .running e := by
  cases h with
  | sleeps hc =>
      rintro rfl
      cases hc
  | passes hc =>
      rintro rfl
      cases hc
  | leaves e => nofun

/-- What a body of the lock does to the monitor and to its owner `t`. -/
inductive BodyMove (s s' : RwLock K) (t : K) : Prop
  | sleeps (e : Service) (hc : (s.pc t).Locks e)
      (hpc : s'.pc = Function.update s.pc t (.waiting e)) (hmon : s'.rwMon = s.rwMon.wait t)
  | passes (e : Service) (hc : (s.pc t).Locks e)
      (hpc : s'.pc = Function.update s.pc t (.running e)) (hmon : s'.rwMon = s.rwMon.exit)
  | leaves (e : Service) (hc : s.pc t = .unlock e)
      (hpc : s'.pc = Function.update s.pc t .fetch)
      (hmon : s'.rwMon = s.rwMon.exit ∨ s'.rwMon = s.rwMon.signal.exit)

theorem rwStep_move {s s' : RwLock K} (hs : rwStep s .body = some s') :
    ∃ t, s.rwMon.owner = some t ∧ BodyMove s s' t := by
  simp only [rwStep] at hs
  split at hs
  · rename_i t ho
    refine ⟨t, ho, ?_⟩
    rw [monitorBody] at hs
    have reads : ∀ e, (s.pc t).Locks e → BodyMove s (rwReadLock s t e) t := by
      intro e hc
      rw [rwReadLock]
      split
      · exact .sleeps e hc rfl rfl
      · exact .passes e hc rfl rfl
    have writes : ∀ (e : Service) (n : Int), (s.pc t).Locks e →
        BodyMove s (rwWriteLockLoop { s with writersWaiting := n } t e) t := by
      intro e n hc
      rw [rwWriteLockLoop]
      split
      · exact .sleeps e hc rfl rfl
      · exact .passes e hc rfl rfl
    split at hs
    · rename_i e hpc
      obtain rfl := Option.some.inj hs
      split
      · exact writes e (s.writersWaiting + 1) (hpc ▸ .lock)
      · exact reads e (hpc ▸ .lock)
    · rename_i e hpc
      obtain rfl := Option.some.inj hs
      split
      · exact writes e s.writersWaiting (hpc ▸ .waiting)
      · exact reads e (hpc ▸ .waiting)
    · rename_i e hpc
      obtain rfl := Option.some.inj hs
      split
      · exact .leaves e hpc rfl (Or.inr rfl)
      · refine .leaves e hpc rfl ?_
        rw [rwReadUnlock]
        dsimp only
        split
        · exact Or.inr rfl
        · exact Or.inl rfl
    · cases hs
  · cases hs

theorem rwStep_body {s s' : RwLock K} (hs : rwStep s .body = some s') :
    ∃ t c, s'.pc = Function.update s.pc t c ∧ (s.pc t).Moves c := by
  obtain ⟨t, -, hmove⟩ := rwStep_move hs
  cases hmove with
  | sleeps e hc hpc hmon => exact ⟨t, _, hpc, .sleeps hc⟩
  | passes e hc hpc hmon => exact ⟨t, _, hpc, .passes hc⟩
  | leaves e hc hpc hmon => exact ⟨t, _, hpc, hc ▸ .leaves e⟩

/-! ### The rows of `Service` -/

/-- A request has a handler if it has a row, and the row says whether the handler reads. -/
theorem findService_ofReq (req : Snfs.Req) :
    (Snfs.Args.ofReq req = none ∧ findService req.type = none) ∨
      ∃ a e, Snfs.Args.ofReq req = some a ∧ findService req.type = some e ∧
        (e.isWrite = false ↔ a.IsRead) := by
  rw [Snfs.Args.ofReq]
  have reads : ∀ {type : Int} {a : Snfs.Args} {e : Service}, req.type = type →
      findService type = some e → e.isWrite = false → a.IsRead →
      ∃ a' e, some a = some a' ∧ findService req.type = some e ∧ (e.isWrite = false ↔ a'.IsRead) :=
    fun htype he hread ha => ⟨_, _, rfl, htype ▸ he, iff_of_true hread ha⟩
  have writes : ∀ {type : Int} {a : Snfs.Args} {e : Service}, req.type = type →
      findService type = some e → e.isWrite = true → ¬ a.IsRead →
      ∃ a' e, some a = some a' ∧ findService req.type = some e ∧ (e.isWrite = false ↔ a'.IsRead) :=
    fun htype he hwrite ha => ⟨_, _, rfl, htype ▸ he, iff_of_false (by simp [hwrite]) ha⟩
  split
  case h_9 h1 h2 h3 h4 h5 h6 h7 h8 =>
    refine Or.inl ⟨rfl, List.find?_eq_none.mpr fun e he => ?_⟩
    have htypes : e.type ∈ serviceTable.map Service.type := List.mem_map_of_mem he
    intro heq
    rw [eq_of_beq heq] at htypes
    simp only [serviceTable, List.map_cons, List.map_nil, List.mem_cons, List.not_mem_nil,
      or_false] at htypes
    rcases htypes with h | h | h | h | h | h | h | h
    · exact h1 h
    · exact h2 h
    · exact h3 h
    · exact h4 h
    · exact h5 h
    · exact h6 h
    · exact h7 h
    · exact h8 h
  case h_1 htype => exact Or.inr (reads htype rfl rfl trivial)
  case h_2 htype => exact Or.inr (reads htype rfl rfl trivial)
  case h_3 htype => exact Or.inr (reads htype rfl rfl trivial)
  case h_4 htype => exact Or.inr (writes htype rfl rfl id)
  case h_5 htype => exact Or.inr (writes htype rfl rfl id)
  case h_6 htype => exact Or.inr (writes htype rfl rfl id)
  case h_7 htype => exact Or.inr (reads htype rfl rfl trivial)
  case h_8 htype => exact Or.inr (writes htype rfl rfl id)

/-! ### The whole server -/

namespace System

variable {s s' : System K C} {a : System.Act K C}

/-- A step of the server is a step of its ring, or leaves it; and it is a step of its lock, or
leaves that. -/
theorem step_parts (hs : s.step a = some s') :
    (s'.ring = s.ring ∨ ∃ a', Ring.step clearedRes s.ring a' = some s'.ring) ∧
      (s'.rw = s.rw ∨ ∃ a', (a' = .body → a = .lock) ∧ rwStep s.rw a' = some s'.rw) := by
  unfold step at hs
  split at hs
  · cases hs
  · split at hs
    · cases hs
    · rename_i a _
      obtain ⟨r, hr, rfl⟩ := Option.map_eq_some_iff.mp hs
      exact ⟨Or.inr ⟨a, hr⟩, Or.inl rfl⟩
    · rw [take] at hs
      split at hs
      · obtain ⟨d, -, hs⟩ := Option.bind_eq_some_iff.mp hs
        obtain ⟨r, hr, rfl⟩ := Option.map_eq_some_iff.mp hs
        exact ⟨Or.inl rfl, Or.inr ⟨.request _ _, nofun, hr⟩⟩
      · cases hs
    · obtain ⟨r, hr, rfl⟩ := Option.map_eq_some_iff.mp hs
      exact ⟨Or.inl rfl, Or.inr ⟨_, fun _ => rfl, hr⟩⟩
    · rw [handle] at hs
      split at hs
      · split at hs
        · obtain ⟨r, hr, rfl⟩ := Option.map_eq_some_iff.mp hs
          exact ⟨Or.inl rfl, Or.inr ⟨.finish _, nofun, hr⟩⟩
        · obtain rfl := Option.some.inj hs
          exact ⟨Or.inl rfl, Or.inl rfl⟩
        · split at hs
          · obtain rfl := Option.some.inj hs
            exact ⟨Or.inl rfl, Or.inl rfl⟩
          · obtain rfl := Option.some.inj hs
            exact ⟨Or.inl rfl, Or.inl rfl⟩
      · cases hs
    · rw [send] at hs
      split at hs
      · obtain ⟨d, -, hs⟩ := Option.bind_eq_some_iff.mp hs
        obtain ⟨r, hr, rfl⟩ := Option.map_eq_some_iff.mp hs
        exact ⟨Or.inr ⟨_, hr⟩, Or.inl rfl⟩
      · cases hs

/-- In every state the server reaches, its ring and its lock are in states that their own models
reach. -/
theorem parts_of_reaches {fs₀ : Snfs.Fs} (h : Reaches step (init fs₀) s) :
    Reaches (Ring.step clearedRes) Ring.init s.ring ∧ Reaches rwStep RwLock.init s.rw :=
  ⟨h.project ring fun _ _ _ hs => (step_parts hs).1,
    h.project rw fun _ _ _ hs => (step_parts hs).2.imp_right fun ⟨a', h'⟩ => ⟨a', h'.2⟩⟩

end System

end Sthreads.Server
