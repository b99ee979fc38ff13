/-
The threads of the server process and their program points.

`main` creates the consumers first and the producer after them, so their identifiers are known,
and each of them stays in its function.  A line says in which section of which monitor its thread
is, and every statement keeps to the rules of sections; so the thread that executes a line of a
section owns its monitor.
-/
import Sthreads.Proofs.User.Sections
import Sthreads.Server.Process

namespace Sthreads.Server

open User

variable {C : Type}

/-- The thread with this index in `threads` of `main`. -/
def tidOf (k : Fin numTc) : Tid := k.val + 2

def producerTid : Tid := numTc + 2

theorem tidOf_inj {k k' : Fin numTc} : tidOf k = tidOf k' ↔ k = k' := by
  simp [tidOf, Fin.ext_iff]

/-- The index that a thread has if it is a consumer. -/
def index (t : Tid) : Fin numTc := ⟨(t - 2) % numTc, Nat.mod_lt _ (by decide)⟩

@[simp] theorem index_tidOf (k : Fin numTc) : index (tidOf k) = k :=
  Fin.ext (Nat.mod_eq_of_lt k.isLt)

theorem tidOf_ne_producerTid (k : Fin numTc) : tidOf k ≠ producerTid := by
  intro h
  have hk : k.val = numTc := Nat.add_right_cancel h
  exact absurd k.isLt (by rw [hk]; exact Nat.lt_irrefl _)

/-! ### Sections of lines -/

/-- The section of a line of a lock function; past the loop the model has taken it. -/
def LockAt.place : LockAt → Section
  | entering => .comes rwMon
  | counted => .inside rwMon
  | waiting => .comes rwMon
  | past => .past rwMon
  | uncounted => .past rwMon
  | leaving => .past rwMon

def UnlockAt.place : UnlockAt → Section
  | entering => .comes rwMon
  | released => .inside rwMon
  | leaving => .past rwMon

def WorkLine.place : WorkLine → Section
  | locking _ _ pt => pt.place
  | unlocking _ _ _ pt => pt.place
  | _ => .outside

def ConsumerLine.place : ConsumerLine → Section
  | loop => .comes mon
  | found => .inside mon
  | got _ => .inside mon
  | taken _ => .inside mon
  | signalled _ => .past mon
  | serving _ w => w.place
  | _ => .outside

def ProducerLine.place : ProducerLine C → Section
  | loop => .comes mon
  | receiving => .inside mon
  | received .. => .inside mon
  | put .. => .inside mon
  | counted .. => .inside mon
  | signalled => .past mon
  | empty _ => .inside mon
  | _ => .outside

namespace Line

def place : Line C → Section
  | consumer _ c => c.place
  | producer c => c.place
  | _ => .outside

/-- The lines of the same thread, after its creation and but for the creations of `main`. -/
def SameThread : Line C → Line C → Prop
  | consumer k _, consumer k' _ => k = k'
  | producer _, producer _ => True
  | join _, join _ => True
  | _, _ => False

theorem SameThread.born {l l' : Line C} (h : l.SameThread l') : l ≠ .unborn := by
  intro hl
  subst hl
  exact h

end Line

/-! ### What a statement does to the threads -/

/-- The thread executes user code. -/
structure Runs (s : Process C) (t : Tid) : Prop where
  active : s.sched.activeThr = some t
  user : s.sched.point t = .user

/-- A statement without a call: the thread goes on to this line. -/
structure Goes (s : Process C) (t : Tid) (l : Line C) (s' : Process C) : Prop where
  sched : s'.sched = s.sched
  line : s'.line = Function.update s.line t l

/-- A call of the library, after which the thread is at this line. -/
structure Calls (s : Process C) (t : Tid) (c : Sched.Call) (l : Line C) (s' : Process C) :
    Prop where
  sched : s.sched.step (.call c) = some s'.sched
  line : s'.line = Function.update s.line t l

theorem Process.call_eq_some {s s' : Process C} {t : Tid} {c : Sched.Call} {l : Line C}
    (h : s.call t c l = some s') :
    ∃ sched, s.sched.step (.call c) = some sched ∧ s' = { s.goto t l with sched := sched } := by
  obtain ⟨sched, hs, rfl⟩ := Option.map_eq_some_iff.mp h
  exact ⟨sched, hs, rfl⟩

/-! ### The threads -/

/-- The threads are where their lines say. -/
structure Threads (s : Process C) : Prop where
  inv : s.sched.Inv
  sections : Sections s.sched fun t => (s.line t).place
  consumer : ∀ t k c, s.line t = .consumer k c → t = tidOf k
  producer : ∀ t c, s.line t = .producer c → t = producerTid
  main : ∀ t threads, s.line t = .main threads →
    t = 1 ∧ s.sched.tidGen = threads.length + 2 ∧ threads.length ≤ numTc
  unborn : ∀ t, s.sched.tidGen ≤ t → s.line t = .unborn

namespace Threads

variable {s s' : Process C} {t : Tid} {l : Line C}

theorem init (fs : Snfs.Fs) : Threads (Process.init fs : Process C) where
  inv := Sched.Inv.init
  sections := by
    apply Sections.init
    intro t
    by_cases ht : t = 1
    · simp [Process.init, ht, Line.place]
    · simp [Process.init, ht, Line.place]
  consumer t k c h := by
    by_cases ht : t = 1
    · simp [Process.init, ht] at h
    · simp [Process.init, ht] at h
  producer t c h := by
    by_cases ht : t = 1
    · simp [Process.init, ht] at h
    · simp [Process.init, ht] at h
  main t threads h := by
    by_cases ht : t = 1
    · obtain rfl : [] = threads := by simpa [Process.init, ht] using h
      exact ⟨ht, rfl, Nat.zero_le _⟩
    · simp [Process.init, ht] at h
  unborn t ht := by
    have hne : t ≠ 1 := by
      intro h1
      subst h1
      exact absurd (show 2 ≤ 1 from ht) (by decide)
    simp [Process.init, hne]

/-- A step of the scheduler after which no line is another. -/
theorem sched {a : Sched.Act} {sched : Sched} (h : Threads s) (ha : ∀ c, a ≠ .call c)
    (hs : s.sched.step a = some sched) : Threads { s with sched := sched } := by
  obtain ⟨t, ht, -⟩ := Sched.step_refines h.inv hs
  have hop : a.operates t = none := by
    cases a with
    | call c => exact absurd rfl (ha c)
    | _ => rfl
  have hgen : sched.tidGen = s.sched.tidGen := tidGen_step h.inv (fun p => ha _) hs
  refine ⟨h.inv.step hs, ?_, h.consumer, h.producer, ?_, ?_⟩
  · exact h.sections.step h.inv ht hs (fun u _ => rfl) (.quiet _ hop)
  · intro t threads hl
    rw [show sched.tidGen = _ from hgen]
    exact h.main t threads hl
  · intro t hlt
    exact h.unborn t (hgen ▸ hlt)

/-- The thread goes on to another line of its function. -/
theorem moved (h : Threads s) (hinv : s'.sched.Inv)
    (hsections : Sections s'.sched fun t => (s'.line t).place)
    (hgen : s'.sched.tidGen = s.sched.tidGen) (hline : s'.line = Function.update s.line t l)
    (hsame : (s.line t).SameThread l) : Threads s' := by
  have hold : ∀ u, u ≠ t → s'.line u = s.line u := by
    intro u hu
    rw [hline, Function.update_of_ne hu]
  have hnew : s'.line t = l := by rw [hline, Function.update_self]
  refine ⟨hinv, hsections, ?_, ?_, ?_, ?_⟩
  · intro u k c hu
    by_cases hut : u = t
    · subst hut
      rw [hnew] at hu
      subst hu
      cases hl : s.line u with
      | consumer k' c' =>
          rw [hl] at hsame
          obtain rfl : k' = k := hsame
          exact h.consumer u k' c' hl
      | _ =>
          rw [hl] at hsame
          exact hsame.elim
    · exact h.consumer u k c (hold u hut ▸ hu)
  · intro u c hu
    by_cases hut : u = t
    · subst hut
      rw [hnew] at hu
      subst hu
      cases hl : s.line u with
      | producer c' => exact h.producer u c' hl
      | _ =>
          rw [hl] at hsame
          exact hsame.elim
    · exact h.producer u c (hold u hut ▸ hu)
  · intro u threads hu
    by_cases hut : u = t
    · subst hut
      rw [hnew] at hu
      subst hu
      cases hl : s.line u with
      | _ =>
          rw [hl] at hsame
          exact hsame.elim
    · rw [hgen]
      exact h.main u threads (hold u hut ▸ hu)
  · intro u hlt
    have hunborn := h.unborn u (hgen ▸ hlt)
    by_cases hut : u = t
    · subst hut
      exact absurd hunborn hsame.born
    · rw [hold u hut, hunborn]

theorem goes (h : Threads s) (hr : Runs s t) (hg : Goes s t l s')
    (hsame : (s.line t).SameThread l)
    (hplace : ∀ m, l.place.monitor = some m → (s.line t).place.monitor = some m) :
    Threads s' := by
  apply h.moved (by rw [hg.sched]; exact h.inv) _ (by rw [hg.sched]) hg.line hsame
  rw [hg.sched]
  apply h.sections.statement hr.user
  · intro u hut
    show (s'.line u).place = _
    rw [hg.line, Function.update_of_ne hut]
  · intro m hm
    apply hplace
    rw [hg.line, Function.update_self] at hm
    exact hm

theorem calls {c : Sched.Call} (h : Threads s) (hr : Runs s t) (hg : Calls s t c l s')
    (hc : ∀ p, c ≠ .create p) (hsame : (s.line t).SameThread l)
    (hmoves : Moves t (.call c) (s.line t).place l.place) : Threads s' := by
  have hgen : s'.sched.tidGen = s.sched.tidGen :=
    tidGen_step h.inv (fun p hp => hc p (Sched.Act.call.inj hp)) hg.sched
  apply h.moved (h.inv.step hg.sched) _ hgen hg.line hsame
  apply h.sections.step h.inv hr.active hg.sched
  · intro u hut
    show (s'.line u).place = _
    rw [hg.line, Function.update_of_ne hut]
  · show Moves t _ _ (s'.line t).place
    rw [hg.line, Function.update_self]
    exact hmoves

/-- `main` creates the next thread. -/
theorem create {threads : List Tid} {l' : Line C} (h : Threads s)
    (ht : s.sched.activeThr = some t) (hl : s.line t = .main threads)
    (hstep : s.sched.step (.call (.create 7)) = some s'.sched)
    (hline : s'.line = Function.update (Function.update s.line t l) s.sched.tidGen l')
    (hnew : (∃ hlt : threads.length < numTc, l = .main (threads ++ [s.sched.tidGen]) ∧
        l' = .consumer ⟨threads.length, hlt⟩ .idle) ∨
      (numTc ≤ threads.length ∧ l = .join (s.sched.tidGen :: threads) ∧
        l' = .producer .idle)) : Threads s' := by
  obtain ⟨ht1, hgen, hle⟩ := h.main t threads hl
  have hgen' : s'.sched.tidGen = s.sched.tidGen + 1 := by
    have hc := (step_call ht hstep).2
    rw [← Option.some.inj hc]
    rfl
  have hne : t ≠ s.sched.tidGen := by
    intro he
    rw [h.unborn t (Nat.le_of_eq he.symm)] at hl
    cases hl
  have hself : s'.line t = l := by
    rw [hline, Function.update_of_ne hne, Function.update_self]
  have hfresh : s'.line s.sched.tidGen = l' := by rw [hline, Function.update_self]
  have hold : ∀ u, u ≠ t → u ≠ s.sched.tidGen → s'.line u = s.line u := by
    intro u hut hun
    rw [hline, Function.update_of_ne hun, Function.update_of_ne hut]
  have hplace : ∀ u, (s'.line u).place = (s.line u).place := by
    intro u
    by_cases hun : u = s.sched.tidGen
    · rw [hun, hfresh, h.unborn _ (Nat.le_refl _)]
      rcases hnew with ⟨_, -, rfl⟩ | ⟨-, -, rfl⟩ <;> rfl
    · by_cases hut : u = t
      · rw [hut, hself, hl]
        rcases hnew with ⟨_, rfl, -⟩ | ⟨-, rfl, -⟩ <;> rfl
      · rw [hold u hut hun]
  refine ⟨h.inv.step hstep, ?_, ?_, ?_, ?_, ?_⟩
  · have hsec : (fun u => (s'.line u).place) = fun u => (s.line u).place := funext hplace
    rw [hsec]
    exact h.sections.step h.inv ht hstep (fun _ _ => rfl) (.quiet _ rfl)
  · intro u k c hu
    by_cases hun : u = s.sched.tidGen
    · rw [hun, hfresh] at hu
      rcases hnew with ⟨hlt, -, rfl⟩ | ⟨-, -, rfl⟩
      · obtain ⟨rfl, -⟩ := Line.consumer.inj hu
        rw [hun, hgen]
        rfl
      · cases hu
    · by_cases hut : u = t
      · rw [hut, hself] at hu
        rcases hnew with ⟨_, rfl, -⟩ | ⟨-, rfl, -⟩ <;> cases hu
      · exact h.consumer u k c (hold u hut hun ▸ hu)
  · intro u c hu
    by_cases hun : u = s.sched.tidGen
    · rw [hun, hfresh] at hu
      rcases hnew with ⟨hlt, -, rfl⟩ | ⟨hlen, -, rfl⟩
      · cases hu
      · rw [hun, hgen, Nat.le_antisymm hle hlen]
        rfl
    · by_cases hut : u = t
      · rw [hut, hself] at hu
        rcases hnew with ⟨_, rfl, -⟩ | ⟨-, rfl, -⟩ <;> cases hu
      · exact h.producer u c (hold u hut hun ▸ hu)
  · intro u threads' hu
    by_cases hun : u = s.sched.tidGen
    · rw [hun, hfresh] at hu
      rcases hnew with ⟨_, -, rfl⟩ | ⟨-, -, rfl⟩ <;> cases hu
    · by_cases hut : u = t
      · rw [hut, hself] at hu
        rcases hnew with ⟨hlt, rfl, -⟩ | ⟨-, rfl, -⟩
        · obtain rfl := Line.main.inj hu
          rw [hgen', hgen, List.length_append]
          exact ⟨hut.trans ht1, rfl, hlt⟩
        · cases hu
      · have hu1 := (h.main u threads' (hold u hut hun ▸ hu)).1
        exact absurd (hu1.trans ht1.symm) hut
  · intro u hlt
    rw [hgen'] at hlt
    have hun : u ≠ s.sched.tidGen := Nat.ne_of_gt hlt
    have hunborn := h.unborn u (Nat.le_of_succ_le hlt)
    have hut : u ≠ t := by
      intro he
      rw [he, hl] at hunborn
      cases hunborn
    rw [hold u hut hun, hunborn]

end Threads

end Sthreads.Server
