/-
When read handlers do not disturb each other.

They do when the slot a pointer points to is reused before the pointer is followed, and when
two of them split paths with `strtok`.  As long as neither happens every thread reads the
tree, so its outcome is that of the handler run alone.

What a thread knows is the reader that its own operations make.  The view that the shared
caches are changes under its feet, but only in what reading changes.
-/
import Sthreads.Client.Api
import Sthreads.Proofs.Snfs.Exits
import Sthreads.Snfs.ReadPool

namespace Sthreads.Snfs

open Prog Sthreads.Snfs.Tree

/-- The reader after an operation with this result, which left the position there. -/
def Reader.after (r : Reader) (position : List UInt8) : (o : FsOp) → o.Res → Reader
  | .icGet id, p => r.setPtr p id
  | .strtok _, _ => { r with strtokRest := position }
  | _, _ => r

theorem ReadThread.after_reader (th : ReadThread) {o : FsOp} (ho : ∀ s, o ≠ .strtok s) (x : o.Res)
    (rest : FsM (Option Results)) (position position' : List UInt8) :
    (⟨(th.after o x rest).got, position⟩ : Reader) =
      Reader.after ⟨th.got, position⟩ position' o x := by
  cases o with
  | strtok s => exact absurd rfl (ho s)
  | _ => rfl

theorem ReadThread.mem_pointer {th : ReadThread} {p : Nat} {k : Inode → FsM (Option Results)}
    (h : th.rest = .op (.inode p) k) : p ∈ th.pointer := by
  rw [ReadThread.pointer, h]
  rfl

theorem ReadThread.goesOn_of_rest {th : ReadThread} {k : _ → FsM (Option Results)}
    (h : th.rest = .op (.strtok none) k) : th.goesOn = true := by
  rw [ReadThread.goesOn, h]

theorem ReadThread.after_rest (th : ReadThread) (o : FsOp) (x : o.Res)
    (rest : FsM (Option Results)) : (th.after o x rest).rest = rest := by
  cases o <;> rfl

/-! ### Who called `strtok` last -/

theorem FsOp.strtokBy_of_ne {T : Type} {o : FsOp} (ho : ∀ s, o ≠ .strtok s) (i : T)
    (last : Option T) : o.strtokBy i last = last := by
  cases o with
  | strtok s => exact absurd rfl (ho s)
  | _ => rfl

/-- Where another thread called `strtok` last after an operation, it was that thread before. -/
theorem FsOp.strtokBy_other {T : Type} {o : FsOp} {i j : T} {last : Option T} (hij : j ≠ i)
    {fs fs' : Fs} (hkept : (∀ s, o ≠ .strtok s) → fs'.strtokRest = fs.strtokRest)
    (h : o.strtokBy i last = some j) : last = some j ∧ fs'.strtokRest = fs.strtokRest := by
  cases o with
  | strtok s => exact absurd (Option.some.inj h).symm hij
  | _ => exact ⟨h, hkept (by simp)⟩

section

variable {numBlocks : Nat} {A₀ : View} {t : Tree} {fs : Fs}

/-- The file system is still the one that the handlers began with, but for what reading
changes. -/
def Reads (A₀ : View) (t : Tree) (fs : Fs) : Prop :=
  ∃ A, CachedRel fs A ∧ SameTree A₀ A ∧ Rep A t

/-- What one operation of a reader does: the reader's own pointers do not matter but for the one
it follows. -/
theorem Reads.step (h : Reads A₀ t fs) (heq : A₀.ino = A₀.tab) {G : Nat → Prop} {r : Reader}
    {o : FsOp} {Q : o.Res → Reader → Prop} (hspec : readSpec A₀ G o Q r)
    (hptr : ∀ p, o = .inode p → (fs.icache (Fs.slot p)).valid = true ∧
      r.ptr p = some (fs.icache (Fs.slot p)).key)
    (hpos : o = .strtok none → fs.strtokRest = r.strtokRest) :
    ∃ x fs', Fs.handler o fs = .ok (x, fs') ∧ Reads A₀ t fs' ∧
      Q x (r.after fs'.strtokRest o x) ∧
      ((∀ s, o ≠ .strtok s) → fs'.strtokRest = fs.strtokRest) := by
  obtain ⟨A, hrel, hsame, hrep⟩ := h
  by_cases hinode : ∃ p, o = .inode p
  · -- the slot still holds the inode
    obtain ⟨p, rfl⟩ := hinode
    obtain ⟨hvalid, hp⟩ := hptr p rfl
    obtain ⟨id, hp', hQ⟩ := hspec
    have hkey : (fs.icache (Fs.slot p)).key = id := Option.some.inj (hp.symm.trans hp')
    have hheld := hrel.inodes.held _ hvalid
    rw [hkey, hsame.2.2.2.2.1] at hheld
    exact ⟨_, fs, handler_ok rfl rfl hrel.wild, ⟨A, hrel, hsame, hrep⟩, hQ _ hheld, fun _ => rfl⟩
  · have hone : wp (readSpec A₀ G) (fun _ : Halt => False) (perform o : FsM o.Res)
        (fun x r' => Q x (r.after r'.strtokRest o x) ∧
          ((∀ s, o ≠ .strtok s) → r'.strtokRest = A.strtokRest))
        ⟨fun _ => none, A.strtokRest⟩ := by
      have hrest := hrel.strtokRest
      cases o with
      | icGet id => exact ⟨hspec.1, hspec.2.1, fun p => ⟨hspec.2.2 p, fun _ => rfl⟩⟩
      | inode p => exact absurd ⟨p, rfl⟩ hinode
      | bcRead b buf => exact ⟨hspec.1, hspec.2, fun _ => rfl⟩
      | dcRead dir b page => exact ⟨hspec.1, hspec.2, fun _ => rfl⟩
      | inodeBmap => exact ⟨hspec, fun _ => rfl⟩
      | strtok s =>
          refine ⟨?_, fun ho => absurd rfl (ho s)⟩
          cases s with
          | some w => exact hspec
          | none =>
              change Q (strtok A.strtokRest).1 { r with strtokRest := (strtok A.strtokRest).2 }
              rw [← hrest, hpos rfl]
              exact hspec
      | _ => exact hspec.elim
    have hknows : Knows ⟨fun _ => none, A.strtokRest⟩ A := ⟨nofun, rfl⟩
    have hwp := wp_of_read (perform o) hrep hsame heq hknows hone
    obtain ⟨x, fs', A', hrun, hrel', r', ⟨hQ, hkept⟩, hknows, hafter⟩ :=
      cached_sound o fs A _ hrel hwp
    have hrest : fs'.strtokRest = r'.strtokRest := hrel'.strtokRest.trans hknows.2.symm
    refine ⟨x, fs', hrun, ⟨A', hrel', hsame.trans hafter.same, hafter.rep⟩, ?_, fun ho => ?_⟩
    · rw [hrest]
      exact hQ
    · rw [hrest, hkept ho, hrel.strtokRest]

/-! ### A thread -/

/-- The thread reads the tree; if it called `strtok` last, it knows where `strtok` goes on. -/
def ReadThread.Ok (A₀ : View) (t : Tree) (fs : Fs) (own : Prop) (th : ReadThread) : Prop :=
  ∃ position, (own → fs.strtokRest = position) ∧
    wp (readSpec A₀ (· ≤ t.nodes.length)) (fun e => t.answer th.stack th.args = .error e) th.rest
      (fun x _ => t.answer th.stack th.args = .ok x) ⟨th.got, position⟩

/-- The request a thread is for. -/
def ReadThread.request (th : ReadThread) : Stack × Args := (th.stack, th.args)

theorem ReadThread.after_request (th : ReadThread) (o : FsOp) (x : o.Res)
    (rest : FsM (Option Results)) : (th.after o x rest).request = th.request := by
  cases o <;> rfl

namespace ReadThread.Ok

variable {T : Type} {th : ReadThread} {o : FsOp} {k : o.Res → FsM (Option Results)} {i : T}
  {last : Option T}

/-- At the beginning of a handler that reads. -/
theorem start (hrep : Rep A₀ t) {q : Stack × Args} (hread : q.2.IsRead) (hpage : q.2.OnePage t)
    (own : Prop) : (ReadThread.start q).Ok A₀ t fs own :=
  ⟨fs.strtokRest, fun _ => rfl, read_handler hrep (fun _ h => h) q.1 hread hpage⟩

/-- An operation of the thread. -/
theorem step (h : th.Ok A₀ t fs (last = some i)) (hreads : Reads A₀ t fs) (heq : A₀.ino = A₀.tab)
    (hrest : th.rest = .op o k) (hok : th.Undisturbed fs (last = some i)) :
    ∃ x fs', Fs.handler o fs = .ok (x, fs') ∧ Reads A₀ t fs' ∧
      ((∀ s, o ≠ .strtok s) → fs'.strtokRest = fs.strtokRest) ∧
      (th.after o x (k x)).Ok A₀ t fs' (o.strtokBy i last = some i) := by
  obtain ⟨position, hpos, hwp⟩ := h
  rw [hrest] at hwp
  obtain ⟨x, fs', hrun, hreads', hQ, hkept⟩ := hreads.step heq hwp
    (fun p hp => by subst hp; exact hok.1 p (mem_pointer hrest))
    (fun hp => by subst hp; exact hpos (hok.2 (goesOn_of_rest hrest)))
  refine ⟨x, fs', hrun, hreads', hkept, ?_⟩
  have hreq := th.after_request o x (k x)
  rw [ReadThread.request, ReadThread.request, Prod.mk.injEq] at hreq
  rw [ReadThread.Ok, hreq.1, hreq.2, ReadThread.after_rest]
  by_cases ho : ∀ s, o ≠ .strtok s
  · refine ⟨position, fun hown => ?_, ?_⟩
    · rw [FsOp.strtokBy_of_ne ho] at hown
      rw [hkept ho, hpos hown]
    · rw [th.after_reader ho x (k x) position fs'.strtokRest]
      exact hQ
  · simp only [ne_eq, not_forall, not_not] at ho
    obtain ⟨s, rfl⟩ := ho
    exact ⟨fs'.strtokRest, fun _ => rfl, hQ⟩

/-- What the caches do does not matter, and the position only to the thread that called `strtok`
last. -/
theorem frame {own own' : Prop} {fs' : Fs} (h : th.Ok A₀ t fs own)
    (hown : own' → own ∧ fs'.strtokRest = fs.strtokRest) : th.Ok A₀ t fs' own' := by
  obtain ⟨position, hpos, hwp⟩ := h
  refine ⟨position, fun ho => ?_, hwp⟩
  obtain ⟨hold, hrest⟩ := hown ho
  rw [hrest, hpos hold]

/-- The outcome of a thread is what the tree says. -/
theorem outcome {own : Prop} (h : th.Ok A₀ t fs own) {out : Except Halt (Option Results)}
    (hout : th.outcome = some out) : out = t.answer th.stack th.args := by
  obtain ⟨position, -, hwp⟩ := h
  rw [ReadThread.outcome] at hout
  split at hout
  · rename_i a hrest
    rw [hrest] at hwp
    exact (Option.some.inj hout).symm.trans (Eq.symm hwp)
  · rename_i e hrest
    rw [hrest] at hwp
    exact (Option.some.inj hout).symm.trans (Eq.symm hwp)
  · cases hout

end ReadThread.Ok

/-! ### The pool -/

/-- Every thread reads the tree. -/
structure ReadPool.Ok (A₀ : View) (t : Tree) (s : ReadPool) : Prop where
  reads : Reads A₀ t s.fs
  threads : ∀ (j : Nat) (th : ReadThread), s.threads[j]? = some th →
    th.Ok A₀ t s.fs (s.strtokBy = some j)

variable {s s' : ReadPool} {i : Nat}

/-- What a step is: an operation of one thread. -/
theorem ReadPool.step_cases (hs : s.step i = some s') :
    ∃ th o k, s.threads[i]? = some th ∧ th.rest = .op o k ∧
      match Fs.handler o s.fs with
      | .ok (x, fs') => s' = ⟨fs', s.threads.set i (th.after o x (k x)), o.strtokBy i s.strtokBy⟩
      | .error e => s' = { s with threads := s.threads.set i { th with rest := .halt e } } := by
  rw [ReadPool.step] at hs
  split at hs
  · cases hs
  · split at hs
    · cases hs
    · rename_i th hth
      split at hs
      · cases hs
      · cases hs
      · rename_i o k hrest
        refine ⟨th, o, k, hth, hrest, ?_⟩
        cases hrun : Fs.handler o s.fs with
        | ok p =>
            rw [hrun] at hs
            exact (Option.some.inj hs).symm
        | error e =>
            rw [hrun] at hs
            exact (Option.some.inj hs).symm

theorem ReadPool.step_requests (hs : s.step i = some s') :
    s'.threads.map ReadThread.request = s.threads.map ReadThread.request := by
  obtain ⟨th, o, k, hth, -, hs⟩ := step_cases hs
  have hset : ∀ th', th'.request = th.request →
      (s.threads.set i th').map ReadThread.request = s.threads.map ReadThread.request := by
    intro th' hreq
    obtain ⟨hi, hget⟩ := List.getElem?_eq_some_iff.mp hth
    have hi' : i < (s.threads.map ReadThread.request).length := by simpa using hi
    have hmap : (s.threads.map ReadThread.request)[i] = th.request := by
      rw [List.getElem_map, hget]
    rw [List.map_set, hreq, ← hmap, List.set_getElem_self]
  split at hs
  · subst hs
    exact hset _ (th.after_request o _ _)
  · subst hs
    exact hset _ rfl

theorem ReadPool.Ok.step (h : s.Ok A₀ t) (heq : A₀.ino = A₀.tab) (hok : s.Undisturbed i)
    (hs : s.step i = some s') : s'.Ok A₀ t := by
  obtain ⟨th, o, k, hth, hrest, hs⟩ := step_cases hs
  obtain ⟨x, fs', hrun, hreads, hkept, hafter⟩ :=
    (h.threads i th hth).step h.reads heq hrest (hok th hth)
  rw [hrun] at hs
  subst hs
  refine ⟨hreads, fun j th' hth' => ?_⟩
  by_cases hij : j = i
  · subst hij
    obtain ⟨hlt, -⟩ := List.getElem?_eq_some_iff.mp hth
    rw [List.getElem?_set_self hlt] at hth'
    obtain rfl := Option.some.inj hth'
    exact hafter
  · rw [List.getElem?_set_ne (Ne.symm hij)] at hth'
    exact (h.threads j th' hth').frame (FsOp.strtokBy_other hij hkept)

/-- So is that of the handler run alone. -/
theorem alone_eq {numBlocks : Nat} (ht : IsTree CachedRel numBlocks fs t) {q : Stack × Args}
    (hread : q.2.IsRead) (hpage : q.2.OnePage t) : alone fs q = t.answer q.1 q.2 := by
  rw [alone]
  rcases isTree_read cached_sound cached_forgets ht (p := q.2.handler q.1) (x := t.answer q.1 q.2)
    (fun A r hrep => read_handler hrep (fun _ h => h) q.1 hread hpage) with
    ⟨a, s', hans, hrun, -⟩ | ⟨e, hans, hrun⟩
  · rw [hans, hrun]
    rfl
  · rw [hans, hrun]
    rfl

end

/-- Read handlers that are admitted together, in any state the server reaches: as long as no
thread is disturbed and no listing takes more than one page, each of them ends as it does when
it is run alone. -/
theorem readers_as_alone {numBlocks : Nat} (hn : 10 ≤ numBlocks) {readings : Nat → Int}
    {s₀ : ServerState} (hinit : snfsInit numBlocks readings = .ok s₀)
    {tr₀ : List (ServerState × (Stack × Req))} {fs : Fs}
    (hreach : Run ServerState.step s₀ tr₀ (.up fs)) (hsafe : ∀ p ∈ tr₀, p.1.Safe p.2)
    {reqs : List (Stack × Args)} (hread : ∀ q ∈ reqs, q.2.IsRead)
    (hpage : ∀ q ∈ reqs, fs.OnePage q.2) {tr : List (ReadPool × Nat)} {s : ReadPool}
    (h : Run ReadPool.step (.start fs reqs) tr s) (hok : ∀ p ∈ tr, p.1.Undisturbed p.2) :
    ∀ x ∈ visited tr s, x.threads.map ReadThread.request = reqs ∧
      ∀ th ∈ x.threads, ∀ out, th.outcome = some out → out = alone fs th.request := by
  obtain ⟨t, ht⟩ := hreach.invariant_of (ServerState.Sane numBlocks) ServerState.Safe
    (Sane.init hn hinit) (fun _ _ _ h hok hs => Sane.step h hok hs) hsafe
  obtain ⟨A₀, hrel, hrep, heq, -⟩ := id ht
  have hbegin : (ReadPool.start fs reqs).Ok A₀ t ∧
      (ReadPool.start fs reqs).threads.map ReadThread.request = reqs := by
    refine ⟨⟨⟨A₀, hrel, SameTree.refl A₀, hrep⟩, fun j th hth => ?_⟩, ?_⟩
    · obtain ⟨q, hq, rfl⟩ := List.mem_map.mp (List.mem_of_getElem? hth)
      exact .start hrep (hread q hq) ((hpage q hq).tree ht) _
    · rw [ReadPool.start, List.map_map]
      exact List.map_id reqs
  intro x hx
  obtain ⟨hthreads, hreqs⟩ := h.visited_of
    (fun s => s.Ok A₀ t ∧ s.threads.map ReadThread.request = reqs) ReadPool.Undisturbed hbegin
    (fun _ _ _ h hok hs => ⟨h.1.step heq hok hs, (ReadPool.step_requests hs).trans h.2⟩) hok x hx
  refine ⟨hreqs, fun th hth out hout => ?_⟩
  have hq : th.request ∈ reqs := hreqs ▸ List.mem_map_of_mem hth
  obtain ⟨j, hj⟩ := List.mem_iff_getElem?.mp hth
  rw [(hthreads.threads j th hj).outcome hout,
    alone_eq ht (hread _ hq) ((hpage _ hq).tree ht)]
  rfl

/-- A request that looks no path up and lists no directory. -/
theorem ServerState.safe_of_type {req : Req} (hlookup : req.type ≠ 2) (hreaddir : req.type ≠ 7)
    (s : ServerState) (stack : Stack) : s.Safe (stack, req) := by
  cases s with
  | ended e => trivial
  | up fs =>
      intro a ha
      rw [Args.ofReq] at ha
      split at ha
      case h_2 htype => exact absurd htype hlookup
      case h_7 htype => exact absurd htype hreaddir
      case h_9 => cases ha
      all_goals
        obtain rfl := Option.some.inj ha
        exact ⟨trivial, fun file hfile => by cases hfile⟩

/-- Four files are created in the root, and something is written to the last two. -/
def fourFiles : List (Stack × Req) :=
  ([.create 1 ⟨[97], by decide⟩, .create 1 ⟨[98], by decide⟩, .create 1 ⟨[99], by decide⟩,
    .create 1 ⟨[100], by decide⟩, .write 5 0 1 fun _ => 65, .write 4 0 1 fun _ => 66] :
      List Client.ApiCall).map fun c => (⟨fun _ => 0, 0⟩, c.request 0)

/-- Two of the files are looked up, while one of them is read. -/
def lookupsAndRead : List (Stack × Args) :=
  [(⟨fun _ => 0, 0⟩, .lookup ⟨[47, 100], by decide⟩), (⟨fun _ => 0, 0⟩, .read 5 0 1),
    (⟨fun _ => 0, 0⟩, .lookup ⟨[47, 99], by decide⟩)]

/-- Three handlers go on in turns, to their ends; the second lookup splits its path when the first
is through with its own. -/
theorem readers_as_alone_three :
    ∃ s₀ fs s, snfsInit 14 (fun i => 7 * i) = .ok s₀ ∧ Reaches ServerState.step s₀ (.up fs) ∧
      Reaches ReadPool.step (.start fs lookupsAndRead) s ∧
      s.threads.length = 3 ∧ ∀ th ∈ s.threads, th.outcome = some (alone fs th.request) := by
  let sched : List Nat := [0, 1, 0, 1, 0, 1, 0, 1, 0, 0, 0, 0, 0, 2, 0, 2, 0, 2, 0, 1] ++
    List.replicate 9 2
  have hfacts : (snfsInit 14 (fun i => 7 * i)).map (fun s₀ =>
      (runTrace ServerState.step s₀ fourFiles).bind fun r₀ => r₀.2.fs?.bind fun fs =>
        (runTrace ReadPool.step (.start fs lookupsAndRead) sched).map fun r =>
          (r₀.1.all fun p => decide (p.2.2.type ≠ 2 ∧ p.2.2.type ≠ 7),
            r.1.all fun p => decide (p.1.Undisturbed p.2),
            r.2.threads.map fun th => th.outcome.isSome)) =
      .ok (some (true, true, [true, true, true])) := by
    decide +kernel
  obtain ⟨s₀, hs, hfacts⟩ := except_map_ok hfacts
  obtain ⟨⟨tr₀, s₁⟩, htr₀, hfacts⟩ := Option.bind_eq_some_iff.mp hfacts
  obtain ⟨fs, hfs, hfacts⟩ := Option.bind_eq_some_iff.mp hfacts
  obtain rfl := ServerState.eq_of_fs? hfs
  obtain ⟨⟨tr, s⟩, htr, hval⟩ := Option.map_eq_some_iff.mp hfacts
  simp only [Prod.mk.injEq, List.all_eq_true, decide_eq_true_eq] at hval
  obtain ⟨hsafe, hok, hended⟩ := hval
  have hreach : Run ServerState.step s₀ tr₀ (.up fs) := run_of_runTrace _ .nil htr₀
  have hrun : Run ReadPool.step (.start fs lookupsAndRead) tr s := run_of_runTrace _ .nil htr
  have hlen : s.threads.length = 3 := by
    rw [← List.length_map (f := fun th : ReadThread => th.outcome.isSome), hended]
    rfl
  refine ⟨s₀, fs, s, hs, ⟨tr₀, hreach⟩, ⟨tr, hrun⟩, hlen, fun th hth => ?_⟩
  have hall := readers_as_alone (by decide) hs hreach
    (fun p hp => ServerState.safe_of_type (hsafe p hp).1 (hsafe p hp).2 p.1 p.2.1)
    (by simp [lookupsAndRead, Args.IsRead]) (by simp [lookupsAndRead, Fs.OnePage]) hrun hok s
    (by simp [visited])
  have hout : th.outcome.isSome = true := by
    have hmem : th.outcome.isSome ∈ s.threads.map fun th => th.outcome.isSome :=
      List.mem_map_of_mem (f := fun th : ReadThread => th.outcome.isSome) hth
    rw [hended] at hmem
    simpa using hmem
  obtain ⟨out, hout⟩ := Option.isSome_iff_exists.mp hout
  rw [hout, hall.2 th hth out hout]

/-! ### Readers that disturb each other -/

/-- The last file is read while the root is listed. -/
def readAndList : List (Stack × Args) :=
  [(⟨fun _ => 0, 0⟩, .read 5 0 1), (⟨fun _ => 0, 0⟩, .readdir 1 64)]

/-- The bytes that a handler has read -/
def dataRead : Option (Except Halt (Option Results)) → Option (List UInt8)
  | some (.ok (some (.read data _))) => some data
  | _ => none

/-- The listing takes the slot that the pointer of `fs_read` is into, and another file is read. -/
theorem read_of_another_file :
    ∃ s₀ fs s, snfsInit 14 (fun i => 7 * i) = .ok s₀ ∧ Reaches ServerState.step s₀ (.up fs) ∧
      Reaches ReadPool.step (.start fs readAndList) s ∧
      (s.threads[0]?.bind fun th => dataRead th.outcome) = some [66] ∧
      dataRead (some (alone fs (⟨fun _ => 0, 0⟩, .read 5 0 1))) = some [65] := by
  let sched : List Nat := [0, 0] ++ List.replicate 12 1 ++ [0, 0, 0]
  have hfacts : (snfsInit 14 (fun i => 7 * i)).map (fun s₀ =>
      ((runActs ServerState.step s₀ fourFiles).bind ServerState.fs?).bind fun fs =>
        (runActs ReadPool.step (.start fs readAndList) sched).map fun s =>
          (s.threads[0]?.bind fun th => dataRead th.outcome,
            dataRead (some (alone fs (⟨fun _ => 0, 0⟩, .read 5 0 1))))) =
      .ok (some (some [66], some [65])) := by
    decide +kernel
  obtain ⟨s₀, hs, hfacts⟩ := except_map_ok hfacts
  obtain ⟨fs, hfs, hfacts⟩ := Option.bind_eq_some_iff.mp hfacts
  obtain ⟨s₁, hs₁, hfs⟩ := Option.bind_eq_some_iff.mp hfs
  obtain rfl := ServerState.eq_of_fs? hfs
  obtain ⟨s, hrun, hval⟩ := Option.map_eq_some_iff.mp hfacts
  obtain ⟨hother, halone⟩ := Prod.mk.inj hval
  exact ⟨s₀, fs, s, hs, reaches_runActs _ hs₁, reaches_runActs _ hrun, hother, halone⟩

end Sthreads.Snfs
