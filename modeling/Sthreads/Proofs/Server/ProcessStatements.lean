/-
The next statement of a server thread.

A statement calls nothing of the library but the functions of the monitors and `sthread_yield`,
and leads to a line of the same function.  A thread that runs user code has a next statement: the
line fits its function, and no call of the library fails.  What a consumer reads through a pointer
has to be there.
-/
import Sthreads.Proofs.Server.ProcessThreads
import Sthreads.Proofs.Server.SystemSteps
import Sthreads.Proofs.User.MonitorCalls

namespace Sthreads.Server

open User

variable {C : Type} {s s₁ s' : Process C} {t : Tid} {l : Line C} {k : Fin numTc} {p : Nat}
  {i : Input C}

/-- Only a writer counts itself as waiting. -/
def WorkLine.Fits : WorkLine → Prop
  | locking e _ .counted => e.isWrite = true
  | locking e _ .uncounted => e.isWrite = true
  | _ => True

/-- The line is one of its function. -/
def Line.Fits : Line C → Prop
  | consumer _ (.serving _ w) => w.Fits
  | _ => True

/-- The line of a consumer or of the producer. -/
def Line.isServer : Line C → Bool
  | consumer .. => true
  | producer _ => true
  | _ => false

/-! ### What a statement does for the threads -/

/-- The thread goes on to this line, and may call the library. -/
structure Executes (s : Process C) (t : Tid) (l : Line C) (s' : Process C) : Prop where
  line : s'.line = Function.update s.line t l
  fits : l.Fits
  sched : s'.sched = s.sched ∨ ∃ c, Uses c l.place ∧ s.sched.step (.call c) = some s'.sched

namespace Executes

theorem goto (hline : s₁.line = s.line) (hsched : s₁.sched = s.sched) (hl : l.Fits) :
    Executes s t l (s₁.goto t l) where
  line := by rw [← hline]; rfl
  fits := hl
  sched := Or.inl hsched

theorem call {c : Sched.Call} (h : s.call t c l = some s') (hc : Uses c l.place) (hl : l.Fits) :
    Executes s t l s' := by
  obtain ⟨sched, hstep, rfl⟩ := Process.call_eq_some h
  exact ⟨rfl, hl, Or.inr ⟨c, hc, hstep⟩⟩

section

variable {here : LockAt → Line C} {after : Line C} {pt : LockAt}

theorem rwReadLock (hs : s.rwReadLock t here after pt = some s')
    (hhere : ∀ pt, pt ≠ .counted → pt ≠ .uncounted → (here pt).Fits) (hafter : after.Fits)
    (hwait : (here .waiting).place = .comes rwMon) : ∃ l, Executes s t l s' := by
  have loop : s.rwReadLoop t here = some s' → ∃ l, Executes s t l s' := by
    intro hs
    unfold Process.rwReadLoop at hs
    split at hs
    · exact ⟨_, call hs (hwait ▸ .wait rwMon) (hhere _ (by simp) (by simp))⟩
    · rw [← Option.some.inj hs]
      exact ⟨_, goto rfl rfl (hhere _ (by simp) (by simp))⟩
  cases pt with
  | entering => exact loop hs
  | waiting => exact loop hs
  | past =>
      rw [← Option.some.inj hs]
      exact ⟨_, goto rfl rfl (hhere _ (by simp) (by simp))⟩
  | leaving => exact ⟨_, call hs (.exit rwMon _) hafter⟩
  | counted => cases hs
  | uncounted => cases hs

theorem rwWriteLock (hs : s.rwWriteLock t here after pt = some s') (hhere : ∀ pt, (here pt).Fits)
    (hafter : after.Fits) (hwait : (here .waiting).place = .comes rwMon) :
    ∃ l, Executes s t l s' := by
  have loop : s.rwWriteLoop t here = some s' → ∃ l, Executes s t l s' := by
    intro hs
    unfold Process.rwWriteLoop at hs
    split at hs
    · exact ⟨_, call hs (hwait ▸ .wait rwMon) (hhere _)⟩
    · rw [← Option.some.inj hs]
      exact ⟨_, goto rfl rfl (hhere _)⟩
  cases pt with
  | counted => exact loop hs
  | waiting => exact loop hs
  | leaving => exact ⟨_, call hs (.exit rwMon _) hafter⟩
  | _ =>
      rw [← Option.some.inj hs]
      exact ⟨_, goto rfl rfl (hhere _)⟩

end

section

variable {here : UnlockAt → Line C} {after : Line C} {pt : UnlockAt}

theorem rwReadUnlock (hs : s.rwReadUnlock t here after pt = some s')
    (hhere : ∀ pt, (here pt).Fits) (hafter : after.Fits) : ∃ l, Executes s t l s' := by
  cases pt with
  | entering =>
      rw [← Option.some.inj hs]
      exact ⟨_, goto rfl rfl (hhere _)⟩
  | released =>
      unfold Process.rwReadUnlock at hs
      dsimp only at hs
      split at hs
      · exact ⟨_, call hs (.signal rwMon _) (hhere _)⟩
      · exact ⟨_, call hs (.exit rwMon _) hafter⟩
  | leaving => exact ⟨_, call hs (.exit rwMon _) hafter⟩

theorem rwWriteUnlock (hs : s.rwWriteUnlock t here after pt = some s')
    (hhere : ∀ pt, (here pt).Fits) (hafter : after.Fits) : ∃ l, Executes s t l s' := by
  cases pt with
  | entering =>
      rw [← Option.some.inj hs]
      exact ⟨_, goto rfl rfl (hhere _)⟩
  | released => exact ⟨_, call hs (.signal rwMon _) (hhere _)⟩
  | leaving => exact ⟨_, call hs (.exit rwMon _) hafter⟩

end

theorem work {wl : WorkLine} (hline : s.line t = serving k p wl) (hfits : wl.Fits)
    (hs : s.work t k p i wl = some s') : ∃ l, Executes s t l s' := by
  -- where the process ends, the thread stays at its line
  have ends : ∀ e, Executes s t (serving k p wl) { s with ended := some e } := by
    intro e
    refine ⟨?_, hfits, Or.inl rfl⟩
    rw [← hline, Function.update_eq_self]
  cases wl with
  | fetched =>
      cases i with
      | stack stack =>
          obtain ⟨d, -, hs⟩ := Option.bind_eq_some_iff.mp hs
          rcases findService_ofReq d.req with ⟨-, hnone⟩ | ⟨args, e, hargs, hsome, -⟩
          · simp only [hnone] at hs
            rw [← Option.some.inj hs]
            exact ⟨_, goto rfl rfl trivial⟩
          · simp only [hsome, hargs, Option.bind_some] at hs
            exact ⟨_, call hs (.enter rwMon) trivial⟩
      | none => cases hs
      | again => cases hs
      | datagram q d => cases hs
  | locking e th pt =>
      cases he : e.isWrite with
      | true =>
          rw [Process.work, if_pos he] at hs
          apply rwWriteLock hs _ trivial rfl
          intro pt
          cases pt with
          | counted => exact he
          | uncounted => exact he
          | _ => exact trivial
      | false =>
          rw [Process.work, if_neg (by simp [he])] at hs
          apply rwReadLock hs _ trivial rfl
          intro pt hcounted huncounted
          cases pt with
          | counted => exact absurd rfl hcounted
          | uncounted => exact absurd rfl huncounted
          | _ => exact trivial
  | handling e th =>
      unfold Process.work at hs
      dsimp only at hs
      split at hs
      · exact ⟨_, call hs (.enter rwMon) trivial⟩
      · rw [← Option.some.inj hs]
        exact ⟨_, ends _⟩
      · split at hs
        · rw [← Option.some.inj hs]
          exact ⟨_, goto rfl rfl trivial⟩
        · rw [← Option.some.inj hs]
          exact ⟨_, ends _⟩
  | unlocking e res ressz pt =>
      unfold Process.work at hs
      dsimp only at hs
      split at hs
      · exact rwWriteUnlock hs (fun _ => trivial) trivial
      · exact rwReadUnlock hs (fun _ => trivial) trivial
  | answered res ressz =>
      obtain ⟨d, -, rfl⟩ := Option.map_eq_some_iff.mp hs
      exact ⟨_, goto rfl rfl trivial⟩

theorem threadConsumer {c : ConsumerLine} (hline : s.line t = .consumer k c)
    (hfits : (s.line t).Fits) (hs : s.threadConsumer t k i c = some s') :
    ∃ l, Executes s t l s' := by
  cases c with
  | idle => exact ⟨_, call hs (.enter mon) trivial⟩
  | loop =>
      unfold Process.threadConsumer at hs
      dsimp only at hs
      split at hs
      · exact ⟨_, call hs (.wait mon) trivial⟩
      · rw [← Option.some.inj hs]
        exact ⟨_, goto rfl rfl trivial⟩
  | found =>
      rw [← Option.some.inj hs]
      exact ⟨_, goto rfl rfl trivial⟩
  | got reqD =>
      rw [← Option.some.inj hs]
      exact ⟨_, goto rfl rfl trivial⟩
  | taken reqD =>
      obtain ⟨s₁, hcall, rfl⟩ := Option.map_eq_some_iff.mp hs
      have hex := call hcall (.signal mon _) trivial
      exact ⟨_, hex.line, hex.fits, hex.sched⟩
  | signalled reqD => exact ⟨_, call hs (.exit mon _) trivial⟩
  | serving reqD w =>
      cases reqD with
      | none => cases hs
      | some p =>
          rw [hline] at hfits
          exact work hline hfits hs
  | sent p =>
      rw [← Option.some.inj hs]
      exact ⟨_, goto rfl rfl trivial⟩
  | yielding => exact ⟨_, call hs (.yield _) trivial⟩

theorem threadProducer {c : ProducerLine C} (hs : s.threadProducer t i c = some s') :
    ∃ l, Executes s t l s' := by
  cases c with
  | idle => exact ⟨_, call hs (.enter mon) trivial⟩
  | loop =>
      unfold Process.threadProducer at hs
      dsimp only at hs
      split at hs
      · exact ⟨_, call hs (.wait mon) trivial⟩
      · rw [← Option.some.inj hs]
        exact ⟨_, goto rfl rfl trivial⟩
  | receiving =>
      unfold Process.threadProducer at hs
      dsimp only at hs
      split at hs
      · exact ⟨_, call hs (.yield _) trivial⟩
      · split at hs
        · rw [← Option.some.inj hs]
          exact ⟨_, goto rfl rfl trivial⟩
        · rw [← Option.some.inj hs]
          exact ⟨_, goto rfl rfl trivial⟩
        · cases hs
      · cases hs
  | received p d =>
      rw [← Option.some.inj hs]
      exact ⟨_, goto rfl rfl trivial⟩
  | put p d =>
      rw [← Option.some.inj hs]
      exact ⟨_, goto rfl rfl trivial⟩
  | counted p d =>
      obtain ⟨s₁, hcall, rfl⟩ := Option.map_eq_some_iff.mp hs
      have hex := call hcall (.signal mon _) trivial
      exact ⟨_, hex.line, hex.fits, hex.sched⟩
  | signalled => exact ⟨_, call hs (.exit mon _) trivial⟩
  | empty p => exact ⟨_, call hs (.exit mon _) trivial⟩
  | yielding => exact ⟨_, call hs (.yield _) trivial⟩

end Executes

/-! ### The next statement -/

/-- A call of the library by a running thread is executed. -/
theorem Process.call_isSome (hinv : s.sched.Inv) (hr : Runs s t) {c : Sched.Call}
    {x : Section} (hc : Uses c x) (l : Line C) : ∃ s', s.call t c l = some s' := by
  obtain ⟨sched, hcall⟩ := User.call_isSome (t := t) hinv hc
  have hstep : s.sched.step (.call c) = some sched := by
    simp only [Sched.step, hr.active, hr.user, if_pos]
    exact hcall
  exact ⟨_, by rw [Process.call, hstep]; rfl⟩

section

variable (hinv : s.sched.Inv) (hr : Runs s t)

include hinv hr

theorem rwReadLock_isSome (here : LockAt → Line C) (after : Line C) {pt : LockAt}
    (hcounted : pt ≠ .counted) (huncounted : pt ≠ .uncounted) :
    ∃ s', s.rwReadLock t here after pt = some s' := by
  have loop : ∃ s', s.rwReadLoop t here = some s' := by
    unfold Process.rwReadLoop
    split
    · exact Process.call_isSome hinv hr (.wait rwMon) _
    · exact ⟨_, rfl⟩
  cases pt with
  | entering => exact loop
  | waiting => exact loop
  | past => exact ⟨_, rfl⟩
  | leaving => exact Process.call_isSome hinv hr (.exit rwMon .outside) _
  | counted => exact absurd rfl hcounted
  | uncounted => exact absurd rfl huncounted

theorem rwWriteLock_isSome (here : LockAt → Line C) (after : Line C) (pt : LockAt) :
    ∃ s', s.rwWriteLock t here after pt = some s' := by
  have loop : ∃ s', s.rwWriteLoop t here = some s' := by
    unfold Process.rwWriteLoop
    split
    · exact Process.call_isSome hinv hr (.wait rwMon) _
    · exact ⟨_, rfl⟩
  cases pt with
  | counted => exact loop
  | waiting => exact loop
  | leaving => exact Process.call_isSome hinv hr (.exit rwMon .outside) _
  | _ => exact ⟨_, rfl⟩

theorem rwReadUnlock_isSome (here : UnlockAt → Line C) (after : Line C) (pt : UnlockAt) :
    ∃ s', s.rwReadUnlock t here after pt = some s' := by
  cases pt with
  | entering => exact ⟨_, rfl⟩
  | released =>
      unfold Process.rwReadUnlock
      dsimp only
      split
      · exact Process.call_isSome hinv hr (.signal rwMon .outside) _
      · exact Process.call_isSome hinv hr (.exit rwMon .outside) _
  | leaving => exact Process.call_isSome hinv hr (.exit rwMon .outside) _

theorem rwWriteUnlock_isSome (here : UnlockAt → Line C) (after : Line C) (pt : UnlockAt) :
    ∃ s', s.rwWriteUnlock t here after pt = some s' := by
  cases pt with
  | entering => exact ⟨_, rfl⟩
  | released => exact Process.call_isSome hinv hr (.signal rwMon .outside) _
  | leaving => exact Process.call_isSome hinv hr (.exit rwMon .outside) _

/-- A consumer whose request is in the heap goes on with it. -/
theorem work_isSome {wl : WorkLine} (hfits : wl.Fits) {d : Descriptor C}
    (hd : s.buffer.heap p = some d) : ∃ i s', s.work t k p i wl = some s' := by
  cases wl with
  | fetched =>
      refine ⟨.stack ⟨fun _ => 0, 0⟩, ?_⟩
      unfold Process.work
      rcases findService_ofReq d.req with ⟨-, hnone⟩ | ⟨args, e, hargs, hsome, -⟩
      · simp only [hd, hnone, Option.bind_some]
        exact ⟨_, rfl⟩
      · simp only [hd, hsome, hargs, Option.bind_some]
        exact Process.call_isSome hinv hr (.enter rwMon) _
  | locking e th pt =>
      refine ⟨.none, ?_⟩
      cases he : e.isWrite with
      | true =>
          rw [Process.work, if_pos he]
          exact rwWriteLock_isSome hinv hr _ _ pt
      | false =>
          rw [Process.work, if_neg (by simp [he])]
          apply rwReadLock_isSome hinv hr
          · intro hpt
            subst hpt
            exact absurd (he.symm.trans hfits) (by simp)
          · intro hpt
            subst hpt
            exact absurd (he.symm.trans hfits) (by simp)
  | handling e th =>
      refine ⟨.none, ?_⟩
      unfold Process.work
      dsimp only
      split
      · exact Process.call_isSome hinv hr (.enter rwMon) _
      · exact ⟨_, rfl⟩
      · split
        · exact ⟨_, rfl⟩
        · exact ⟨_, rfl⟩
  | unlocking e res ressz pt =>
      refine ⟨.none, ?_⟩
      unfold Process.work
      dsimp only
      split
      · exact rwWriteUnlock_isSome hinv hr _ _ pt
      · exact rwReadUnlock_isSome hinv hr _ _ pt
  | answered res ressz =>
      refine ⟨.none, ?_⟩
      unfold Process.work
      simp only [hd, Option.map_some]
      exact ⟨_, rfl⟩

theorem threadProducer_isSome (c : ProducerLine C) :
    ∃ s', s.threadProducer t .again c = some s' := by
  cases c with
  | idle => exact Process.call_isSome hinv hr (.enter mon) _
  | loop =>
      unfold Process.threadProducer
      dsimp only
      split
      · exact Process.call_isSome hinv hr (.wait mon) _
      · exact ⟨_, rfl⟩
  | receiving => exact Process.call_isSome hinv hr (.yield .outside) _
  | received p d => exact ⟨_, rfl⟩
  | put p d => exact ⟨_, rfl⟩
  | counted p d =>
      obtain ⟨s', hs⟩ := Process.call_isSome hinv hr (.signal mon .outside) (.producer .signalled)
      exact ⟨_, by rw [Process.threadProducer, hs]; rfl⟩
  | signalled => exact Process.call_isSome hinv hr (.exit mon .outside) _
  | empty p => exact Process.call_isSome hinv hr (.exit mon .outside) _
  | yielding => exact Process.call_isSome hinv hr (.yield .outside) _

/-- A consumer goes on, if what it holds is a descriptor. -/
theorem threadConsumer_isSome {c : ConsumerLine}
    (hholds : ∀ reqD w, c = .serving reqD w →
      w.Fits ∧ ∃ p d, reqD = some p ∧ s.buffer.heap p = some d) :
    ∃ i s', s.threadConsumer t k i c = some s' := by
  cases c with
  | idle => exact ⟨.none, Process.call_isSome hinv hr (.enter mon) _⟩
  | loop =>
      refine ⟨.none, ?_⟩
      unfold Process.threadConsumer
      dsimp only
      split
      · exact Process.call_isSome hinv hr (.wait mon) _
      · exact ⟨_, rfl⟩
  | found => exact ⟨.none, _, rfl⟩
  | got reqD => exact ⟨.none, _, rfl⟩
  | taken reqD =>
      obtain ⟨s', hs⟩ := Process.call_isSome hinv hr (.signal mon .outside)
        (.consumer k (.signalled reqD))
      exact ⟨.none, _, by rw [Process.threadConsumer, hs]; rfl⟩
  | signalled reqD => exact ⟨.none, Process.call_isSome hinv hr (.exit mon .outside) _⟩
  | serving reqD w =>
      obtain ⟨hfits, p, d, rfl, hd⟩ := hholds reqD w rfl
      exact work_isSome hinv hr hfits hd
  | sent p => exact ⟨.none, _, rfl⟩
  | yielding => exact ⟨.none, Process.call_isSome hinv hr (.yield .outside) _⟩

end

end Sthreads.Server
