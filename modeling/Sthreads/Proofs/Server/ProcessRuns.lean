/-
What holds of the server process in all its runs on the scheduler.

The states that a run visits are matched by states of the server with atomic sections, so what was
proved of that server carries over: requests are answered as by a file system that serves them one
at a time, a handler that writes is alone, and each request is fetched once and in order.  A tick
may fall between any two statements and a thread may be preempted inside a call; neither is a
condition here.  What is left of conditions, that no reading handler is disturbed, is about the
handlers and not about the threads.
-/
import Sthreads.Proofs.Server.ProcessRefines

namespace Sthreads.Server

open User
open Snfs (Fs)

variable {C : Type} {fs₀ : Fs} {s : Process C} {y : System (Fin numTc) C}
  {tr : List (Process C × Process.Act C)}

/-- The process and the model show the same: what was fetched, sent and freed, the file system and
how the process has ended. -/
structure Shows (s : Process C) (y : System (Fin numTc) C) : Prop where
  events : y.ring.events = s.events
  fs : y.fs = s.fs
  ended : y.ended = s.ended

theorem Matches.shows (h : Matches s y) : Shows s y := ⟨h.ring.events, h.fs, h.ended⟩

theorem matches_simulates :
    Simulates (Process.step (C := C)) System.step Matches := by
  intro s a s' y h hs
  rcases h.step hs with hmatches | ⟨b, y', hstep, hmatches, -⟩
  · exact ⟨y, Or.inl rfl, hmatches⟩
  · exact ⟨y', Or.inr ⟨b, hstep⟩, hmatches⟩

/-! ### Two runs -/

/-- A thread goes on from its switch point and executes `n` statements. -/
def Process.go (n : Nat) : List (Process.Act Nat) :=
  .resume :: List.replicate n (.run (.stack ⟨fun _ => 0, 0⟩))

/-- `main` creates the threads, and the consumers come to the ring and wait. -/
def Process.started : List (Process.Act Nat) := (go 7).tail ++ (List.replicate 5 (go 2)).flatten

/-- The producer receives a datagram and executes `n` statements more. -/
def Process.receive (p : Nat) (d : Descriptor Nat) (n : Nat) : List (Process.Act Nat) :=
  .run (.datagram p (some d)) :: (go n).tail

/-- One datagram is received; there are `n` statements from the return of the consumer that the
producer signals. -/
def Process.oneRequest (d : Descriptor Nat) (n : Nat) : List (Process.Act Nat) :=
  started ++ go 2 ++ receive 0 d 4 ++ go n

/-! ### Refinement -/

/-- The handler that goes on, if one does, lists no directory and is not disturbed. -/
def Process.calm (s : Process C) : Process.Act C → Bool
  | .run _ =>
      match s.sched.activeThr with
      | none => true
      | some t =>
          match s.line t with
          | .consumer k (.serving _ (.handling _ th)) =>
              !th.args.lists && decide (th.Undisturbed s.fs (s.strtokBy = some k))
          | _ => true
  | _ => true

theorem Process.safe_of_calm {a : Process.Act C} (h : s.calm a = true) : s.Safe a := by
  cases a with
  | run i =>
      intro t k reqD e th ht hl
      simp only [calm, ht, hl, Bool.and_eq_true, Bool.not_eq_true', decide_eq_true_eq] at h
      exact ⟨Snfs.Fs.onePage_of_not_lists h.1, fun _ => h.2⟩
  | _ => trivial

/-- Where the model is when the process has come to `s`. -/
theorem Process.reaches_model (h : Reaches Process.step (.init fs₀) s) :
    ∃ y, Matches s y ∧ Order y.ring ∧ Accounting y.rw := by
  obtain ⟨y, hmatches, hy⟩ := matches_simulates.reaches (Matches.init fs₀) h
  exact ⟨y, hmatches, hmatches.order, accounting_of_reaches (System.parts_of_reaches hy).2⟩

/-- In every state that the process reaches, a thread that is past the lock function with a handler
that writes is the only one that is past its lock function. -/
theorem process_excludes (h : Reaches Process.step (.init fs₀) s) {t u : Tid} {e f : Service}
    (ht : (s.line t).pc = .running e) (he : e.isWrite = true) (hu : (s.line u).pc = .running f) :
    u = t := by
  obtain ⟨y, hmatches, -, hacc⟩ := Process.reaches_model h
  -- a thread at such a line is a consumer
  have hconsumer : ∀ {t : Tid} {e : Service}, (s.line t).pc = .running e →
      ∃ k, t = tidOf k ∧ y.rw.pc k = .running e := by
    intro t e hpc
    cases hl : s.line t with
    | consumer k c =>
        refine ⟨k, hmatches.threads.consumer t k c hl, ?_⟩
        rw [hmatches.lock.pc, ← hmatches.threads.consumer t k c hl, hpc]
    | _ =>
        rw [hl] at hpc
        cases hpc
  obtain ⟨k, rfl, hk⟩ := hconsumer ht
  obtain ⟨k', rfl, hk'⟩ := hconsumer hu
  rw [hacc.write_alone hk he hk']

/-- A consumer runs `snfs_create`. -/
theorem process_excludes_create :
    ∃ s : Process Nat, (s.line 2).pc = .running ⟨5, .snfsCreate, true⟩ ∧
      ∀ u f, (s.line u).pc = .running f → u = 2 := by
  obtain ⟨fs, -, hfacts⟩ := Snfs.on_started 12 (fun i => 7 * i)
    (fun fs => (runTrace Process.step (.init fs)
      (Process.oneRequest ⟨⟨5, 8, fun _ => 0⟩, 41, 26⟩ 11)).map fun r => (r.2.line 2).pc)
    (x := some (.running ⟨5, .snfsCreate, true⟩)) (by decide +kernel)
  obtain ⟨⟨tr, s⟩, htr, hpc⟩ := Option.map_eq_some_iff.mp hfacts
  exact ⟨s, hpc, fun u f hu => process_excludes ⟨tr, run_of_runTrace _ .nil htr⟩ hpc rfl hu⟩

/-- In every state that the process reaches, the calls of `get_req` have returned what the first
calls of `put_req` were given, in order; a request that is not fetched is in its descriptor as it
was received; and every consumer fetched, answered the sender and freed, in turns. -/
theorem process_requests (h : Reaches Process.step (.init fs₀) s) :
    s.gets = (s.puts.take s.gets.length).map some ∧
    (∀ r ∈ s.puts.drop s.gets.length, s.buffer.heap r.1 = some r.2) ∧
    ∀ k, ∃ ts : List (Turn C _ _), s.doneBy k <+: ts.flatMap (Turn.events k) := by
  obtain ⟨y, hmatches, horder, -⟩ := Process.reaches_model h
  have hevents := hmatches.ring.events
  have hgets : y.ring.gets = s.gets := by rw [Ring.gets, Process.gets, hevents]
  have hputs : y.ring.puts = s.puts := by rw [Ring.puts, Process.puts, hevents]
  refine ⟨?_, ?_, ?_⟩
  · rw [← hgets, ← hputs]
    exact horder.inOrder
  · intro r hr
    rw [← hgets, ← hputs] at hr
    have hlive : y.ring.heap r.1 = some r.2 := horder.live r hr
    have hne : y.ring.buffer.heap r.1 ≠ none := by
      show y.ring.heap r.1 ≠ none
      rw [hlive]
      simp
    rw [hmatches.ring.buffer, Line.written_heap _ hmatches.ring.ready hne]
    exact hlive
  · intro k
    obtain ⟨ts, hts⟩ := horder.turns clearedRes k
    rw [Ring.doneBy, hevents] at hts
    exact ⟨ts, hts⟩

/-- A `REQ_PING` is fetched by one of the consumers. -/
theorem process_requests_ping :
    ∃ s : Process Nat, s.gets.length = 1 ∧ s.gets = (s.puts.take 1).map some := by
  obtain ⟨fs, -, hfacts⟩ := Snfs.on_started 12 (fun i => 7 * i)
    (fun fs => (runTrace Process.step (.init fs)
      (Process.oneRequest ⟨⟨1, 7, fun _ => 0⟩, 40, 264⟩ 14)).map fun r => r.2.gets.length)
    (x := some 1) (by decide +kernel)
  obtain ⟨⟨tr, s⟩, htr, hlen⟩ := Option.map_eq_some_iff.mp hfacts
  have hgets := (process_requests ⟨tr, run_of_runTrace _ .nil htr⟩).1
  rw [show s.gets.length = 1 from hlen] at hgets
  exact ⟨s, hlen, hgets⟩

end Sthreads.Server
