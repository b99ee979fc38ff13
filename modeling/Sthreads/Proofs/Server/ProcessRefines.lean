/-
The process on the scheduler refines the server with atomic monitor sections.

Every step of the process, be it a statement of a thread, a tick or the return from a switch point,
is one step of `Server.System` or none.  So what is proved of all runs of that model holds of the
threads as the library runs them, with every preemption.
-/
import Sthreads.Lib.Simulation
import Sthreads.Proofs.Server.Linearizable
import Sthreads.Proofs.Server.ProcessTurns

namespace Sthreads.Server

open User
open Snfs (Fs)

variable {C : Type}

/-- What the threads share is as in the model. -/
structure Views (s : Process C) (y : System (Fin numTc) C) : Prop where
  ring : RingView s y.ring
  lock : LockView s y.rw
  order : Order y.ring
  fs : y.fs = s.fs
  strtokBy : y.strtokBy = s.strtokBy
  work : ∀ k, y.work k = (s.line (tidOf k)).work
  ended : y.ended = s.ended

/-- The process is as the model. -/
structure Matches (s : Process C) (y : System (Fin numTc) C) : Prop extends Views s y where
  threads : Threads s

/-- The condition on a step: a handler that goes on lists no directory of more than one page, and
is not disturbed by the others if it reads. -/
def Process.Safe (s : Process C) : Process.Act C → Prop
  | .run _ => ∀ t k reqD e th, s.sched.activeThr = some t →
      s.line t = .consumer k (.serving reqD (.handling e th)) →
      s.fs.OnePage th.args ∧ (th.args.IsRead → th.Undisturbed s.fs (s.strtokBy = some k))
  | _ => True

variable {s s' : Process C} {y y' : System (Fin numTc) C} {t : Tid} {l : Line C} {k : Fin numTc}
  {p : Nat} {wl wl' : WorkLine} {i : Input C}

/-! ### What a statement leaves as it is -/

theorem LockView.free {w : RwLock (Fin numTc)} (h : LockView s w)
    (hline : s'.line = Function.update s.line t l) (hseen : s'.seen rwMon = s.seen rwMon)
    (howner : s'.owner rwMon = s.owner rwMon) (hl₀ : (s.line t).Free) (hl : l.Free)
    (hcounters : s'.counters = s.counters) : LockView s' w := by
  have hsame : ∀ {l : Line C}, l.Free → ∀ c, l.done c = c ∧ l.todo c = c := by
    intro l hfree c
    exact Line.done_todo_of_not_owned c fun ho => hfree.place (Section.monitor_of_owned ho)
  apply h.frame hline hseen howner hcounters (hl.pc.trans hl₀.pc.symm)
  · intro c
    rw [(hsame hl c).1, (hsame hl₀ c).1]
  · intro c
    rw [(hsame hl c).2, (hsame hl₀ c).2]

/-- A statement of a consumer outside the lock's functions. -/
theorem LockView.outside {w : RwLock (Fin numTc)} {l₀ : Line C} (h : LockView s w)
    (hth : Threads s) (hr : Runs s t) (hline : s.line t = l₀) (hg : Goes s t l s')
    (hl₀ : l₀.place = .outside) (hl : l.place = .outside) (hpc : l.pc = l₀.pc)
    (hcounters : s'.counters = s.counters) : LockView s' w := by
  subst hline
  have hsame : ∀ {l : Line C}, l.place = .outside → ∀ c, l.done c = c ∧ l.todo c = c := by
    intro l hout c
    exact Line.done_todo_of_not_owned c (by simp [hout, Section.owned])
  apply h.frame hg.line _ (hg.owner rwMon) hcounters hpc
  · intro c
    rw [(hsame hl c).1, (hsame hl₀ c).1]
  · intro c
    rw [(hsame hl c).2, (hsame hl₀ c).2]
  · apply hg.seen_same hth hr
    · intro m hm
      rw [hl] at hm
      cases hm
    · rw [hl, hl₀]

theorem RingView.apart {r : ProcessRing C} (h : RingView s r) (ha : Apart s k p wl' s')
    (hline : s.line (tidOf k) = serving k p wl) : RingView s' r := by
  apply h.frame ha.line ha.seen ha.owner ha.buffer ha.events
  · rw [hline]
    rfl
  · rw [hline]
    rfl
  · rw [hline]
    exact fun _ => rfl
  · rw [hline]
    exact fun _ => rfl

theorem work_kept (h : ∀ k, y.work k = (s.line (tidOf k)).work)
    (hline : s'.line = Function.update s.line t l) (hl : l.work = (s.line t).work) (k : Fin numTc) :
    y.work k = (s'.line (tidOf k)).work := by
  rw [h, hline]
  by_cases hk : tidOf k = t
  · rw [hk, Function.update_self, hl]
  · rw [Function.update_of_ne hk]

theorem work_update (h : ∀ k, y.work k = (s.line (tidOf k)).work)
    (hline : s'.line = Function.update s.line (tidOf k) l) (k' : Fin numTc) :
    Function.update y.work k l.work k' = (s'.line (tidOf k')).work := by
  rw [hline]
  by_cases hk : k' = k
  · rw [hk, Function.update_self, Function.update_self]
  · rw [Function.update_of_ne hk, Function.update_of_ne (fun he => hk (tidOf_inj.mp he)), h]

/-- What a statement of a consumer with a request leads to. -/
theorem Matches.apart (h : Matches s y) (hline : s.line (tidOf k) = serving k p wl)
    (ha : Apart s k p wl' s') (hring : y'.ring = y.ring) (hlock : LockView s' y'.rw)
    (hfs : y'.fs = s'.fs) (hstrtok : y'.strtokBy = s'.strtokBy)
    (hwork : y'.work = Function.update y.work k wl'.work)
    (hended : y'.ended = s'.ended) : Matches s' y' where
  threads := ha.threads
  ring := hring ▸ h.ring.apart ha hline
  lock := hlock
  order := hring ▸ h.order
  fs := hfs
  strtokBy := hstrtok
  work k' := by
    rw [hwork]
    exact work_update h.work ha.line k'
  ended := hended

/-! ### Steps of the model -/

/-- What a step of the process is for the model. -/
def Follows (s : Process C) (y : System (Fin numTc) C) (a : Process.Act C) (s' : Process C) :
    Prop :=
  Matches s' y ∨ ∃ b y', y.step b = some y' ∧ Matches s' y' ∧ (s.Safe a → y.Safe b)

theorem System.step_ring (hend : y.ended = none) {a : Ring.Act (Fin numTc) C _ _}
    {r : ProcessRing C} (ha : ∀ k body res n, a ≠ .answer k body res n)
    (hr : Ring.step clearedRes y.ring a = some r) :
    y.step (.ring a) = some { y with ring := r } := by
  cases a with
  | answer k body res n => exact absurd rfl (ha k body res n)
  | _ => simp [System.step, hend, hr]

theorem System.step_lock (hend : y.ended = none) {w : RwLock (Fin numTc)}
    (hw : rwStep y.rw .body = some w) : y.step .lock = some { y with rw := w } := by
  simp [System.step, hend, hw]

section

variable {d : Descriptor C} {w : RwLock (Fin numTc)} (hend : y.ended = none)
  (hcons : y.ring.consumer k = .serving (some p))

include hend hcons

theorem System.step_take_unknown (stack : Snfs.Stack) (hwork : y.work k = .none)
    (hheap : y.ring.heap p = some d) (hargs : Snfs.Args.ofReq d.req = none)
    (hw : rwStep y.rw (.request k d.req.type) = some w) :
    y.step (.take k stack) = some { y with
      rw := w, work := Function.update y.work k (.answered clearedRes resHeaderSize) } := by
  simp [System.step, hend, System.take, hcons, hwork, hheap, hw, hargs]

theorem System.step_take_known (stack : Snfs.Stack) {args : Snfs.Args} (hwork : y.work k = .none)
    (hheap : y.ring.heap p = some d) (hargs : Snfs.Args.ofReq d.req = some args)
    (hw : rwStep y.rw (.request k d.req.type) = some w) :
    y.step (.take k stack) = some { y with
      rw := w, work := Function.update y.work k (.handling (.start (stack, args))) } := by
  simp [System.step, hend, System.take, hcons, hwork, hheap, hw, hargs]

theorem System.step_send {res : Snfs.Res} {ressz : Nat} {r : ProcessRing C}
    (hpc : y.rw.pc k = .fetch) (hwork : y.work k = .answered res ressz)
    (hheap : y.ring.heap p = some d)
    (hr : Ring.step clearedRes y.ring (.answer k (bodyLeft d.req) res ressz) = some r) :
    y.step (.send k) = some { y with ring := r, work := Function.update y.work k .none } := by
  simp [System.step, hend, System.send, hcons, hpc, hwork, hheap, hr]

end

section

variable {e : Service} {th : Snfs.ReadThread} (hend : y.ended = none)
  (hpc : y.rw.pc k = .running e) (hwork : y.work k = .handling th)

include hend hpc hwork

theorem System.step_ret {x : Option Snfs.Results} (hrest : th.rest = .ret x) :
    y.step (.handle k) = some { y with
      rw := enterRw y.rw k (.unlock e)
      work := Function.update y.work k (.answered (Snfs.respond th.args x).1
        (Snfs.respond th.args x).2) } := by
  simp [System.step, hend, System.handle, hpc, hwork, hrest, rwStep]

theorem System.step_op {o : Snfs.FsOp} {f : o.Res → Snfs.FsM (Option Snfs.Results)} {x : o.Res}
    {fs : Fs} (hrest : th.rest = .op o f) (hres : Fs.handler o y.fs = .ok (x, fs)) :
    y.step (.handle k) = some { y with
      fs := fs
      work := Function.update y.work k (.handling (th.after o x (f x)))
      strtokBy := o.strtokBy k y.strtokBy } := by
  simp [System.step, hend, System.handle, hpc, hwork, hrest, hres]

theorem System.step_error {o : Snfs.FsOp} {f : o.Res → Snfs.FsM (Option Snfs.Results)}
    {x : Snfs.Halt} (hrest : th.rest = .op o f) (hres : Fs.handler o y.fs = .error x) :
    y.step (.handle k) = some { y with ended := some x } := by
  simp [System.step, hend, System.handle, hpc, hwork, hrest, hres]

theorem System.step_halt {x : Snfs.Halt} (hrest : th.rest = .halt x) :
    y.step (.handle k) = some { y with ended := some x } := by
  simp [System.step, hend, System.handle, hpc, hwork, hrest]

end

/-! ### The scheduler's steps -/

/-- A tick, or the return from a switch point. -/
theorem Matches.sched {a : Sched.Act} {sched : Sched} (h : Matches s y) (ha : ∀ c, a ≠ .call c)
    (hs : s.sched.step a = some sched) : Matches { s with sched := sched } y := by
  obtain ⟨t, ht, -⟩ := Sched.step_refines h.threads.inv hs
  have hop : ∀ m, operation s.sched a (.monitor m) = none := by
    intro m
    cases ho : operation s.sched a (.monitor m) with
    | none => rfl
    | some o =>
        have hcall := ((operation_eq_some ht).mp ho).1
        cases a with
        | call c => exact absurd rfl (ha c)
        | tick => cases hcall
        | resume => cases hcall
  have hseen : ∀ m, ({ s with sched := sched } : Process C).seen m = s.seen m := by
    intro m
    exact Sections.seen_quiet (t := t) h.threads.inv hs (fun _ _ => rfl) (hop m) Iff.rfl
  have howner : ∀ m, ({ s with sched := sched } : Process C).owner m = s.owner m := by
    intro m
    have hlock := lockOf_step h.threads.inv hs (.monitor m)
    rw [hop] at hlock
    exact congrArg Monitor.owner hlock
  have hline : s.line = Function.update s.line t (s.line t) := (Function.update_eq_self ..).symm
  refine ⟨⟨?_, ?_, h.order, h.fs, h.strtokBy, h.work, h.ended⟩, h.threads.sched ha hs⟩
  · exact h.ring.frame hline (hseen _) (howner _) rfl rfl rfl rfl (fun _ => rfl) (fun _ => rfl)
  · exact h.lock.frame hline (hseen _) (howner _) rfl rfl (fun _ => rfl) (fun _ => rfl)

/-! ### `main` -/

/-- A line outside the monitors and the consumers. -/
structure Line.Elsewhere (l : Line C) : Prop where
  free : l.Free
  place : l.place = .outside
  consumerPc : l.consumerPc = .idle
  producerPc : l.producerPc = .idle

/-- A statement that concerns the threads only. -/
theorem Views.beside (h : Views s y) (hline : s'.line = Function.update s.line t l)
    (hl₀ : (s.line t).Elsewhere) (hl : l.Elsewhere)
    (hseen : ∀ m, s'.seen m = s.seen m) (howner : ∀ m, s'.owner m = s.owner m)
    (hbuffer : s'.buffer = s.buffer) (hevents : s'.events = s.events)
    (hcounters : s'.counters = s.counters) (hfiles : SameFiles s s') : Views s' y := by
  have hnot : ∀ {l : Line C}, l.Elsewhere → l.place.owned ≠ some mon := by
    intro l hapart
    simp [hapart.place, Section.owned]
  refine ⟨?_, ?_, h.order, h.fs.trans hfiles.fs.symm, h.strtokBy.trans hfiles.strtokBy.symm, ?_,
    h.ended.trans hfiles.ended.symm⟩
  · apply h.ring.frame hline (hseen _) (howner _) hbuffer hevents
      (hl.consumerPc.trans hl₀.consumerPc.symm) (hl.producerPc.trans hl₀.producerPc.symm)
    · intro b
      rw [Line.written_of_not_owned b (hnot hl), Line.written_of_not_owned b (hnot hl₀)]
    · intro b
      exact propext (iff_of_true (Line.ready_of_not_owned b (hnot hl))
        (Line.ready_of_not_owned b (hnot hl₀)))
  · exact h.lock.free hline (hseen _) (howner _) hl₀.free hl.free hcounters
  · exact work_kept h.work hline (hl.free.work.trans hl₀.free.work.symm)

/-- A call of `main`. -/
theorem Calls.beside {c : Sched.Call} (h : Matches s y) (hr : Runs s t) (hg : Calls s t c l s')
    (hl₀ : (s.line t).Elsewhere) (hl : l.Elsewhere)
    (hop : ∀ m o, (Sched.Act.call c).operates t ≠ some (.monitor m, o))
    (hsame : { s with sched := s'.sched, line := s'.line } = s') : Views s' y := by
  apply h.toViews.beside hg.line hl₀ hl
  · intro m
    exact hg.seen_quiet h.threads hr (hop m) (by rw [hl.place, hl₀.place])
  · intro m
    exact hg.owner_quiet h.threads hr (hop m)
  · rw [← hsame]
  · rw [← hsame]
  · rw [← hsame]
  · rw [← hsame]
    exact ⟨rfl, rfl, rfl⟩

/-- `sthread_create` -/
theorem Matches.create {threads : List Tid} {l' : Line C} (h : Matches s y) (hr : Runs s t)
    (hline : s.line t = .main threads) {s₁ : Process C} (hcall : s.call t (.create 7) l = some s₁)
    (hnew : (∃ hlt : threads.length < numTc, l = .main (threads ++ [s.sched.tidGen]) ∧
        l' = .consumer ⟨threads.length, hlt⟩ .idle) ∨
      (numTc ≤ threads.length ∧ l = .join (s.sched.tidGen :: threads) ∧
        l' = .producer .idle)) : Matches (s₁.goto s.sched.tidGen l') y := by
  obtain ⟨sched, hstep, rfl⟩ := Process.call_eq_some hcall
  have hl : l.Elsewhere ∧ l'.Elsewhere := by
    rcases hnew with ⟨hlt, rfl, rfl⟩ | ⟨-, rfl, rfl⟩
    · exact ⟨⟨⟨rfl, rfl, by simp [Line.place, Section.monitor]⟩, rfl, rfl, rfl⟩,
        ⟨.consumer _ (by simp), rfl, rfl, rfl⟩⟩
    · exact ⟨⟨⟨rfl, rfl, by simp [Line.place, Section.monitor]⟩, rfl, rfl, rfl⟩,
        ⟨.producer _, rfl, rfl, rfl⟩⟩
  have hmain : (s.line t).Elsewhere := by
    rw [hline]
    exact ⟨⟨rfl, rfl, by simp [Line.place, Section.monitor]⟩, rfl, rfl, rfl⟩
  have hg : Calls s t (.create 7) l { s.goto t l with sched := sched } := ⟨hstep, rfl⟩
  have hviews : Views { s.goto t l with sched := sched } y :=
    hg.beside h hr hmain hl.1 (by simp [Sched.Act.operates]) rfl
  -- the new thread had no line
  have hne : s.sched.tidGen ≠ t := by
    intro he
    have hunborn := h.threads.unborn t (Nat.le_of_eq he)
    rw [hline] at hunborn
    cases hunborn
  have hunborn : ({ s.goto t l with sched := sched } : Process C).line s.sched.tidGen =
      .unborn := by
    show Function.update s.line t l s.sched.tidGen = _
    rw [Function.update_of_ne hne, h.threads.unborn _ (Nat.le_refl _)]
  have hborn : (({ s.goto t l with sched := sched } : Process C).line
      s.sched.tidGen).Elsewhere := by
    rw [hunborn]
    exact ⟨⟨rfl, rfl, by simp [Line.place, Section.monitor]⟩, rfl, rfl, rfl⟩
  refine ⟨hviews.beside rfl hborn hl.2 ?_ (fun _ => rfl) rfl rfl rfl ⟨rfl, rfl, rfl⟩, ?_⟩
  · intro m
    rw [Process.seen, Process.seen]
    congr 1
    funext u
    show (Function.update (Function.update s.line t l) s.sched.tidGen l' u).place = _
    by_cases hu : u = s.sched.tidGen
    · rw [hu, Function.update_self, hl.2.place, hborn.place]
    · rw [Function.update_of_ne hu]
      rfl
  · exact h.threads.create hr.active hline hstep rfl hnew

/-- `main` -/
theorem Matches.main {threads : List Tid} (h : Matches s y) (hr : Runs s t)
    (hline : s.line t = .main threads) (hs : s.main t threads = some s') : Matches s' y := by
  unfold Process.main at hs
  dsimp only at hs
  split at hs
  · rename_i hlt
    obtain ⟨s₁, hcall, rfl⟩ := Option.map_eq_some_iff.mp hs
    exact h.create hr hline hcall (Or.inl ⟨hlt, rfl, rfl⟩)
  · rename_i hge
    obtain ⟨s₁, hcall, rfl⟩ := Option.map_eq_some_iff.mp hs
    exact h.create hr hline hcall (Or.inr ⟨Nat.le_of_not_lt hge, rfl, rfl⟩)

/-- `sthread_join` -/
theorem Matches.join {u : Tid} {threads : List Tid} (h : Matches s y) (hr : Runs s t)
    (hline : s.line t = .join (u :: threads)) (hs : s.call t (.join u) (.join threads) = some s') :
    Matches s' y := by
  obtain ⟨sched, hstep, rfl⟩ := Process.call_eq_some hs
  have hg : Calls s t (.join u) (.join threads) { s.goto t (.join threads) with sched := sched } :=
    ⟨hstep, rfl⟩
  have hjoin : ∀ threads, (Line.join threads : Line C).Elsewhere := by
    intro threads
    exact ⟨⟨rfl, rfl, by simp [Line.place, Section.monitor]⟩, rfl, rfl, rfl⟩
  refine ⟨hg.beside h hr (hline ▸ hjoin _) (hjoin _) (by simp [Sched.Act.operates]) rfl, ?_⟩
  apply h.threads.calls hr hg (by simp)
  · rw [hline]
    exact trivial
  · rw [hline]
    exact .quiet _ rfl

/-! ### The ring -/

/-- A statement of the ring. -/
theorem RingStep.follows {r : ProcessRing C} (h : Matches s y) (hend : y.ended = none)
    (hring : y.ring = r) (hl₀ : (s.line t).Free) (hs : RingStep s t l r s')
    (a : Process.Act C) : Follows s y a s' := by
  subst hring
  have hlock := h.lock.free hs.line hs.seen hs.owner hl₀ hs.free hs.counters
  have hwork := work_kept h.work hs.line (hs.free.work.trans hl₀.work.symm)
  rcases hs.view with hview | ⟨b, r, hb, hr, hview⟩
  · exact Or.inl ⟨⟨hview, hlock, h.order, h.fs.trans hs.files.fs.symm,
      h.strtokBy.trans hs.files.strtokBy.symm, hwork, h.ended.trans hs.files.ended.symm⟩,
      hs.threads⟩
  · exact Or.inr ⟨.ring b, _, System.step_ring hend hb hr, ⟨⟨hview, hlock, h.order.step hr,
      h.fs.trans hs.files.fs.symm, h.strtokBy.trans hs.files.strtokBy.symm, hwork,
      h.ended.trans hs.files.ended.symm⟩, hs.threads⟩, fun _ => trivial⟩

/-! ### Requests -/

/-- The consumer's request, in the process and in the model. -/
theorem Matches.request (h : Matches s y) (hline : s.line (tidOf k) = serving k p wl) :
    y.ring.consumer k = .serving (some p) ∧ y.rw.pc k = wl.pc ∧ y.work k = wl.work ∧
      ∀ d, s.buffer.heap p = some d → y.ring.heap p = some d := by
  have hcons : y.ring.consumer k = .serving (some p) := by
    rw [h.ring.consumer, hline]
    rfl
  refine ⟨hcons, ?_, ?_, ?_⟩
  · rw [h.lock.pc, hline]
    rfl
  · rw [h.work, hline]
    rfl
  · intro d hd
    have hlive : y.ring.heap p ≠ none := h.order.heldLive k p (by rw [hcons]; rfl)
    rw [h.ring.buffer, Line.written_heap _ h.ring.ready hlive] at hd
    exact hd

/-- A statement in the lock's functions. -/
theorem LockStep.follows (h : Matches s y) (hend : y.ended = none)
    (hline : s.line (tidOf k) = serving k p wl) (hs : LockStep s k p wl' y.rw s')
    (hwork : wl'.work = wl.work) (a : Process.Act C) : Follows s y a s' := by
  have hsame : y.work = Function.update y.work k wl'.work := by
    rw [hwork, ← (h.request hline).2.2.1, Function.update_eq_self]
  rcases hs.view with hview | ⟨w, hw, hview⟩
  · exact Or.inl (h.apart hline hs.apart rfl hview (h.fs.trans hs.files.fs.symm)
      (h.strtokBy.trans hs.files.strtokBy.symm) hsame (h.ended.trans hs.files.ended.symm))
  · exact Or.inr ⟨.lock, _, System.step_lock hend hw, h.apart hline hs.apart rfl hview
      (h.fs.trans hs.files.fs.symm) (h.strtokBy.trans hs.files.strtokBy.symm) hsame
      (h.ended.trans hs.files.ended.symm), fun _ => trivial⟩

/-- The request is looked up, and the lock function called. -/
theorem Matches.fetched (h : Matches s y) (hend : y.ended = none) (hr : Runs s (tidOf k))
    (hline : s.line (tidOf k) = serving k p .fetched)
    (hs : s.work (tidOf k) k p i .fetched = some s') (a : Process.Act C) : Follows s y a s' := by
  obtain ⟨hcons, hpc, hwork, hheap⟩ := h.request hline
  cases i with
  | stack stack =>
      obtain ⟨d, hd, hs⟩ := Option.bind_eq_some_iff.mp hs
      rcases findService_ofReq d.req with ⟨hargs, hnone⟩ | ⟨args, e, hargs, hsome, -⟩
      · simp only [hnone] at hs
        obtain rfl := Option.some.inj hs
        have hg : Goes s (tidOf k) (serving k p (.answered clearedRes resHeaderSize))
            (s.goto (tidOf k) (serving k p (.answered clearedRes resHeaderSize))) := ⟨rfl, rfl⟩
        have hapart : Apart s k p (.answered clearedRes resHeaderSize)
            (s.goto (tidOf k) (serving k p (.answered clearedRes resHeaderSize))) :=
          .of_goes h.threads hr hline hg (fun m hm => hm) rfl rfl
        have hw : rwStep y.rw (.request k d.req.type) = some y.rw := by
          rw [rwStep, hpc, hnone]
          rfl
        refine Or.inr ⟨.take k stack, _, System.step_take_unknown hend hcons stack hwork
          (hheap d hd) hargs hw, ?_, fun _ => trivial⟩
        refine h.apart hline hapart ?_ ?_ h.fs h.strtokBy ?_ h.ended
        · rfl
        · exact h.lock.outside h.threads hr hline hg rfl rfl rfl rfl
        · rfl
      · simp only [hsome, hargs, Option.bind_some] at hs
        obtain ⟨sched, hstep, rfl⟩ := Process.call_eq_some hs
        have hg : Calls s (tidOf k) (.monitorEnter rwMon)
            (serving k p (.locking e (.start (stack, args)) .entering))
            { s.goto (tidOf k) (serving k p (.locking e (.start (stack, args)) .entering)) with
              sched := sched } := ⟨hstep, rfl⟩
        have hw : rwStep y.rw (.request k d.req.type) = some (enterRw y.rw k (.lock e)) := by
          rw [rwStep, hpc, hsome]
          rfl
        refine Or.inr ⟨.take k stack, _, System.step_take_known hend hcons stack hwork
          (hheap d hd) hargs hw, ?_, fun _ => trivial⟩
        refine h.apart hline (.of_calls h.threads hr hline hg (by simp) (.enter rwMon)
          (by simp [Sched.Act.operates, mon, rwMon]) rfl rfl) ?_ ?_ h.fs h.strtokBy ?_ h.ended
        · rfl
        · exact h.lock.enters h.threads hr hg rfl (by rw [hline]; rfl) rfl
        · rfl
  | none => cases hs
  | again => cases hs
  | datagram q d => cases hs

/-- The process ends. -/
theorem Matches.ends (h : Matches s y) (x : Snfs.Halt) :
    Matches { s with ended := some x } { y with ended := some x } :=
  ⟨⟨⟨h.ring.mon, h.ring.consumer, h.ring.producer, h.ring.buffer, h.ring.ready, h.ring.events⟩,
    ⟨h.lock.mon, h.lock.pc, h.lock.counters⟩, h.order, h.fs, h.strtokBy, h.work,
    rfl⟩,
    ⟨h.threads.inv, h.threads.sections, h.threads.consumer, h.threads.producer, h.threads.main,
      h.threads.unborn⟩⟩

/-- An operation of a handler, or its return. -/
theorem Matches.handling (h : Matches s y) (hend : y.ended = none) (hr : Runs s (tidOf k))
    {e : Service} {th : Snfs.ReadThread} (hline : s.line (tidOf k) = serving k p (.handling e th))
    (hs : s.work (tidOf k) k p i (.handling e th) = some s') :
    ∃ y', y.step (.handle k) = some y' ∧ Matches s' y' := by
  obtain ⟨-, hpc, hwork, -⟩ := h.request hline
  unfold Process.work at hs
  dsimp only at hs
  cases hrest : th.rest with
  | ret x =>
      simp only [hrest] at hs
      obtain ⟨sched, hstep, rfl⟩ := Process.call_eq_some hs
      have hg : Calls s (tidOf k) (.monitorEnter rwMon)
          (serving k p (.unlocking e (Snfs.respond th.args x).1 (Snfs.respond th.args x).2
            .entering))
          { s.goto (tidOf k) (serving k p (.unlocking e (Snfs.respond th.args x).1
            (Snfs.respond th.args x).2 .entering)) with sched := sched } := ⟨hstep, rfl⟩
      refine ⟨_, System.step_ret hend hpc hwork hrest, ?_⟩
      refine h.apart hline (.of_calls h.threads hr hline hg (by simp) (.enter rwMon)
        (by simp [Sched.Act.operates, mon, rwMon]) rfl rfl) ?_ ?_ h.fs h.strtokBy ?_ h.ended
      · rfl
      · exact h.lock.enters h.threads hr hg rfl (by rw [hline]; rfl) rfl
      · rfl
  | halt x =>
      simp only [hrest] at hs
      obtain rfl := Option.some.inj hs
      exact ⟨_, System.step_halt hend hpc hwork hrest, h.ends x⟩
  | op o f =>
      simp only [hrest] at hs
      cases hres : Fs.handler o s.fs with
      | error x =>
          simp only [hres] at hs
          obtain rfl := Option.some.inj hs
          exact ⟨_, System.step_error hend hpc hwork hrest (by rw [h.fs, hres]), h.ends x⟩
      | ok r =>
          obtain ⟨x, fs⟩ := r
          simp only [hres] at hs
          obtain rfl := Option.some.inj hs
          have hg : Goes s (tidOf k) (serving k p (.handling e (th.after o x (f x))))
              ({ s with fs := fs, strtokBy := o.strtokBy k s.strtokBy }.goto (tidOf k)
                (serving k p (.handling e (th.after o x (f x))))) := ⟨rfl, rfl⟩
          refine ⟨_, System.step_op hend hpc hwork hrest (by rw [h.fs, hres]), ?_⟩
          refine h.apart hline (.of_goes h.threads hr hline hg (fun m hm => hm) rfl rfl) ?_ ?_ ?_ ?_
            ?_ h.ended
          · rfl
          · exact h.lock.outside h.threads hr hline hg rfl rfl rfl rfl
          · rfl
          · exact congrArg (o.strtokBy k) h.strtokBy
          · rfl

/-- `srv_send_response` -/
theorem Matches.answered (h : Matches s y) (hend : y.ended = none) (hr : Runs s (tidOf k))
    {res : Snfs.Res} {ressz : Nat} (hline : s.line (tidOf k) = serving k p (.answered res ressz))
    (hs : s.work (tidOf k) k p i (.answered res ressz) = some s') (a : Process.Act C) :
    Follows s y a s' := by
  obtain ⟨hcons, hpc, hwork, hheap⟩ := h.request hline
  obtain ⟨d, hd, hs⟩ := Option.map_eq_some_iff.mp hs
  dsimp only at hs
  have hg : Goes s (tidOf k) (.consumer k (.sent p)) s' := by
    rw [← hs]
    exact ⟨rfl, rfl⟩
  have hidle : Idle s s' := by
    rw [← hs]
    exact ⟨rfl, rfl, rfl, rfl⟩
  have hlive : y.ring.heap p ≠ none := by
    rw [hheap d hd]
    simp
  have hout : (s.line (tidOf k)).place = .outside := by
    rw [hline]
    rfl
  have hview := h.ring.writes (x := .consumer k) h.threads hr hg hout rfl hlive
    (d := some { d with req := { d.req with body := bodyLeft d.req } }) (by rw [← hs]; rfl)
  have hevents : s'.events = y.ring.events ++ [.send k d.cliaddr
      (Ring.response clearedRes d res ressz).1 (Ring.response clearedRes d res ressz).2] := by
    rw [← hs, h.ring.events]
    rfl
  rw [hevents] at hview
  obtain ⟨r, hanswer, hview⟩ : ∃ r, Ring.step clearedRes y.ring
      (.answer k (bodyLeft d.req) res ressz) = some r ∧ RingView s' r := by
    refine ⟨_, ?_, hview⟩
    rw [Ring.step, hcons]
    simp only [hheap d hd, Option.map_some]
    rfl
  refine Or.inr ⟨.send k, _, System.step_send hend hcons hpc hwork (hheap d hd) hanswer,
    ⟨⟨hview, ?_, h.order.step hanswer, h.fs.trans hidle.files.fs.symm,
      h.strtokBy.trans hidle.files.strtokBy.symm, ?_, h.ended.trans hidle.files.ended.symm⟩, ?_⟩,
    fun _ => trivial⟩
  · exact h.lock.outside h.threads hr hline hg rfl rfl rfl hidle.counters
  · intro k'
    exact work_update h.work hg.line k'
  · apply h.threads.goes hr hg
    · rw [hline]
      exact rfl
    · intro m hm
      cases hm

/-- The statements of a consumer with a request. -/
theorem Matches.working (h : Matches s y) (hend : y.ended = none) (hr : Runs s (tidOf k))
    (hline : s.line (tidOf k) = serving k p wl) (hs : s.work (tidOf k) k p i wl = some s') :
    Follows s y (.run i) s' := by
  cases wl with
  | fetched => exact h.fetched hend hr hline hs _
  | locking e th pt =>
      cases he : e.isWrite with
      | true =>
          rw [Process.work, if_pos he] at hs
          obtain ⟨wl, hstep, hwork⟩ := rwWriteLock_step h.lock h.threads hr he hline hs
          exact hstep.follows h hend hline hwork _
      | false =>
          rw [Process.work, if_neg (by simp [he])] at hs
          obtain ⟨wl, hstep, hwork⟩ := rwReadLock_step h.lock h.threads hr he hline hs
          exact hstep.follows h hend hline hwork _
  | handling e th =>
      obtain ⟨y', hstep, hmatches⟩ := h.handling hend hr hline hs
      refine Or.inr ⟨.handle k, y', hstep, hmatches, fun hsafe th' hth' => ?_⟩
      obtain rfl : th = th' := by
        have hwork := (h.request hline).2.2.1
        exact Work.handling.inj (hwork.symm.trans hth')
      rw [h.fs, h.strtokBy]
      exact hsafe _ _ _ _ _ hr.active hline
  | unlocking e res ressz pt =>
      cases he : e.isWrite with
      | true =>
          rw [Process.work, if_pos he] at hs
          obtain ⟨wl, hstep, hwork⟩ := rwWriteUnlock_step h.lock h.threads hr he hline hs
          exact hstep.follows h hend hline hwork _
      | false =>
          rw [Process.work, if_neg (by simp [he])] at hs
          obtain ⟨wl, hstep, hwork⟩ := rwReadUnlock_step h.lock h.threads hr he hline hs
          exact hstep.follows h hend hline hwork _
  | answered res ressz => exact h.answered hend hr hline hs _

/-! ### Runs -/

theorem Matches.init (fs : Fs) : Matches (Process.init fs : Process C) (System.init fs) := by
  have hline : ∀ t, (Process.init fs : Process C).line t = .unborn ∨
      (Process.init fs : Process C).line t = .main [] := by
    intro t
    by_cases ht : t = 1
    · simp [Process.init, ht]
    · simp [Process.init, ht]
  have howner : ∀ m, (Process.init fs : Process C).ownerLine m = .unborn := fun _ => rfl
  refine ⟨⟨⟨rfl, ?_, ?_, rfl, ?_, rfl⟩, ⟨rfl, ?_, rfl⟩, Order.init, rfl, rfl, ?_, rfl⟩,
    .init fs⟩
  · intro k
    rcases hline (tidOf k) with hl | hl <;> rw [hl] <;> rfl
  · rcases hline producerTid with hl | hl <;> rw [hl] <;> rfl
  · rw [howner]
    exact trivial
  · intro k
    rcases hline (tidOf k) with hl | hl <;> rw [hl] <;> rfl
  · intro k
    rcases hline (tidOf k) with hl | hl <;> rw [hl] <;> rfl

theorem Matches.statement (h : Matches s y) (hend : y.ended = none) (hr : Runs s t)
    (hs : s.statement t i = some s') : Follows s y (.run i) s' := by
  cases hline : s.line t with
  | unborn =>
      simp only [Process.statement, hline] at hs
      cases hs
  | main threads =>
      simp only [Process.statement, hline] at hs
      exact Or.inl (h.main hr hline hs)
  | join threads =>
      cases threads with
      | nil =>
          simp only [Process.statement, hline] at hs
          cases hs
      | cons u threads =>
          simp only [Process.statement, hline] at hs
          exact Or.inl (h.join hr hline hs)
  | consumer k c =>
      obtain rfl := h.threads.consumer t k c hline
      simp only [Process.statement, hline] at hs
      cases c with
      | serving reqD w =>
          cases reqD with
          | none => cases hs
          | some p => exact h.working hend hr hline hs
      | _ =>
          obtain ⟨l, hstep⟩ := consumer_step h.ring h.threads hr h.order hline (by simp) hs
          exact hstep.follows h hend rfl (hline ▸ .consumer k (by simp)) _
  | producer c =>
      obtain rfl := h.threads.producer t c hline
      simp only [Process.statement, hline] at hs
      obtain ⟨l, hstep⟩ := producer_step h.ring h.threads hr hline hs
      exact hstep.follows h hend rfl (hline ▸ .producer c) _

/-- Every step of the process is one step of the model, or none. -/
theorem Matches.step {a : Process.Act C} (h : Matches s y) (hs : s.step a = some s') :
    Follows s y a s' := by
  unfold Process.step at hs
  split at hs
  · cases hs
  · rename_i hrunning
    have hend : y.ended = none := by
      rw [h.ended]
      simpa using hrunning
    cases a with
    | run i =>
        dsimp only at hs
        cases ht : s.sched.activeThr with
        | none =>
            rw [ht] at hs
            cases hs
        | some t =>
            rw [ht] at hs
            dsimp only at hs
            split at hs
            · rename_i huser
              exact h.statement hend ⟨ht, huser⟩ hs
            · cases hs
    | tick =>
        obtain ⟨sched, hstep, rfl⟩ := Option.map_eq_some_iff.mp hs
        exact Or.inl (h.sched (by simp) hstep)
    | resume =>
        obtain ⟨sched, hstep, rfl⟩ := Option.map_eq_some_iff.mp hs
        exact Or.inl (h.sched (by simp) hstep)

end Sthreads.Server
