/-
Read handlers that `rw_read_lock` lets run at the same time.

The threads share the file system, and with it the slots of the inode cache and the
position that `strtok` keeps.  A step is one operation of one thread: a call of a cache's
function, following a pointer, a read of a bitmap, a call of `strtok`.

`strtok` keeps a pointer into the string of the thread that called it last, and the model keeps
the text that is left there.  The text does not tell whose string it is, and a string of another
thread is gone when its handler returns; so `strtokBy` records the thread.  It and `got`, what a
thread remembers of its own calls of `ic_get`, are for the statements only.
-/
import Sthreads.Snfs.Answers

namespace Sthreads.Snfs

/-- A thread in a handler. -/
structure ReadThread where
  stack : Stack
  args : Args
  /-- What is left of the handler. -/
  rest : FsM (Option Results)
  /-- The inode that the thread's last `ic_get` with this result was for. -/
  got : Nat → Option Nat

/-- The file system and the threads that read it. -/
structure ReadPool where
  fs : Fs
  threads : List ReadThread
  /-- The thread that called `strtok` last. -/
  strtokBy : Option Nat

/-- The thread that called `strtok` last, when `i` has done this operation. -/
def FsOp.strtokBy {T : Type} (o : FsOp) (i : T) (before : Option T) : Option T :=
  match o with
  | .strtok _ => some i
  | _ => before

namespace ReadThread

/-- A thread at the beginning of a handler. -/
def start (q : Stack × Args) : ReadThread := ⟨q.1, q.2, q.2.handler q.1, fun _ => none⟩

/-- What the handler has returned, or how it has ended the process. -/
def outcome (th : ReadThread) : Option (Except Halt (Option Results)) :=
  match th.rest with
  | .ret a => some (.ok a)
  | .halt e => some (.error e)
  | .op _ _ => none

/-- The thread after an operation with this result. -/
def after (th : ReadThread) : (o : FsOp) → o.Res → FsM (Option Results) → ReadThread
  | .icGet id, p, rest => { th with got := Function.update th.got p (some id), rest := rest }
  | _, _, rest => { th with rest := rest }

/-- The pointer that the thread follows next. -/
def pointer (th : ReadThread) : Option Nat :=
  match th.rest with
  | .op (.inode p) _ => some p
  | _ => none

/-- The thread calls `strtok(NULL, _)` next. -/
def goesOn (th : ReadThread) : Bool :=
  match th.rest with
  | .op (.strtok none) _ => true
  | _ => false

/-- The next operation of the thread is not disturbed by others: a pointer that it follows points
to a slot that holds the inode it was got for, and `strtok` goes on in the thread's own string. -/
def Undisturbed (th : ReadThread) (fs : Fs) (own : Prop) : Prop :=
  (∀ p ∈ th.pointer, (fs.icache (Fs.slot p)).valid = true ∧
    th.got p = some (fs.icache (Fs.slot p)).key) ∧
  (th.goesOn = true → own)

instance (th : ReadThread) (fs : Fs) (own : Prop) [Decidable own] :
    Decidable (th.Undisturbed fs own) :=
  inferInstanceAs (Decidable (_ ∧ _))

end ReadThread

namespace ReadPool

/-- The handlers of these requests begin. -/
def start (fs : Fs) (reqs : List (Stack × Args)) : ReadPool :=
  ⟨fs, reqs.map ReadThread.start, none⟩

/-- Some handler has ended the process. -/
def isEnded (s : ReadPool) : Bool :=
  s.threads.any fun th =>
    match th.outcome with
    | some (.error _) => true
    | _ => false

/-- The `i`-th thread does its next operation. -/
def step (s : ReadPool) (i : Nat) : Option ReadPool :=
  if s.isEnded then none
  else
    match s.threads[i]? with
    | none => none
    | some th =>
        match th.rest with
        | .ret _ => none
        | .halt _ => none
        | .op o k =>
            match Fs.handler o s.fs with
            | .ok (r, fs') =>
                some ⟨fs', s.threads.set i (th.after o r (k r)), o.strtokBy i s.strtokBy⟩
            | .error e => some { s with threads := s.threads.set i { th with rest := .halt e } }

/-- The next operation of the `i`-th thread is not disturbed by the others. -/
def Undisturbed (s : ReadPool) (i : Nat) : Prop :=
  ∀ th ∈ s.threads[i]?, th.Undisturbed s.fs (s.strtokBy = some i)

instance (s : ReadPool) (i : Nat) : Decidable (s.Undisturbed i) :=
  inferInstanceAs (Decidable (∀ th ∈ s.threads[i]?, _))

end ReadPool

/-- The outcome of a handler that is run alone. -/
def alone (fs : Fs) (q : Stack × Args) : Except Halt (Option Results) :=
  (Prog.run Fs.handler (q.2.handler q.1) fs).map Prod.fst

end Sthreads.Snfs
