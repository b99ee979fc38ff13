/-
What `my_write` returns, and what it has done.

A buffer of more than 1024 bytes is written with several requests.  When one of them fails
`my_write` returns -1, and the bytes that were written before stay in the file, with the
descriptor behind them.  So -1 means that nothing has changed only if the first request has
failed.
-/
import Sthreads.Proofs.Client.Sessions

namespace Sthreads.Client

open Snfs Prog

/-- What `my_write` has returned says what it has done: the first `r` bytes of the buffer are in the
file, from the old offset on, and everything else is as before; or nothing has changed. -/
structure Reported (fileId : Nat) (buffer : Nat → UInt8) (d : FileDesc) (r : Int)
    (s s' : Session) : Prop where
  value : 0 ≤ r ∨ r = -1
  written : 0 ≤ r →
    (∀ j, (s'.server.fs.fileBytes fileId)[j]? =
      if d.writeOffset ≤ j ∧ j < d.writeOffset + r.toNat then some (buffer (j - d.writeOffset))
      else (s.server.fs.fileBytes fileId)[j]?) ∧
    (∀ id, id ≠ fileId → s.server.fs.Used id → SameObject s.server.fs s'.server.fs id) ∧
    ∃ d', s'.lib.get fileId = some d' ∧ d'.writeOffset = d.writeOffset + r.toNat
  failed : r = -1 →
    (∀ id, s.server.fs.Used id → SameObject s.server.fs s'.server.fs id) ∧
    s'.lib.get fileId = some d

/-- A file of so many bytes may be, and there are the blocks for it. -/
def Session.Room (numBlocks : Nat) (s : Session) (file size : Nat) : Prop :=
  offsetToBlocks size ≤ min 10 (offsetToBlocks (s.server.fs.inodeOf file).size +
    freeCount s.server.fs.blkBmap numBlocks)

instance decidableRoom (numBlocks : Nat) (s : Session) (file size : Nat) :
    Decidable (s.Room numBlocks file size) := Nat.decLe ..

section

variable {numBlocks : Nat} {s s' : Session} {t t' : Tree} {fileId offset count room : Nat}
variable {bytes : List UInt8} {buffer : Nat → UInt8} {d : FileDesc}

theorem fits_iff (hfile : FileIs t fileId bytes room) (hoff : offset ≤ bytes.length) :
    Fits bytes room offset count ↔ offsetToBlocks (offset + count) ≤ min 10 room := by
  have hroom := hfile.room
  have hsize := hfile.size
  rw [offsetToBlocks_eq] at hroom ⊢
  constructor
  · rintro ⟨-, hend, hblocks⟩
    rw [offsetToBlocks_eq] at hblocks
    omega
  · intro h
    refine ⟨hoff, by omega, ?_⟩
    rw [offsetToBlocks_eq]
    omega

theorem fits_iff_room (hn : numBlocks < 2 ^ 32) (ht : s.server.IsTree numBlocks t)
    (hnode : t.node fileId = some (.file bytes)) (hoff : offset ≤ bytes.length) :
    Fits bytes (offsetToBlocks bytes.length + t.free) offset count ↔
      s.Room numBlocks fileId (offset + count) := by
  rw [fits_iff (fileIs_of_wf (isTree_wf ht) hnode) hoff, Session.Room,
    (isTree_shows ht).size fileId _ hnode, isTree_free ht hn hnode]
  rfl

/-- Objects that the write has not been of -/
theorem Wrote.others_same (h : Wrote t t' fileId bytes offset count buffer)
    (ht : s.server.IsTree numBlocks t) (ht' : s'.server.IsTree numBlocks t') {id : Nat}
    (hid : id ≠ fileId) (hused : s.server.fs.Used id) :
    SameObject s.server.fs s'.server.fs id :=
  (isTree_shows ht).sameObject (isTree_shows ht') hused (h.others id hid)

/-- Where nothing is written everything is as before. -/
theorem Wrote.all_same (h : Wrote t t' fileId bytes offset 0 buffer)
    (hnode : t.node fileId = some (.file bytes)) (ht : s.server.IsTree numBlocks t)
    (ht' : s'.server.IsTree numBlocks t') {id : Nat} (hused : s.server.fs.Used id) :
    SameObject s.server.fs s'.server.fs id := by
  by_cases hid : id = fileId
  · refine (isTree_shows ht).sameObject (isTree_shows ht') hused ?_
    rw [hid, h.node, hnode, overwrite_zero]
  · exact h.others_same ht ht' hid hused

theorem Wrote.getElem (h : Wrote t t' fileId bytes offset count buffer)
    (hnode : t.node fileId = some (.file bytes)) (hoff : offset ≤ bytes.length)
    (ht : s.server.IsTree numBlocks t) (ht' : s'.server.IsTree numBlocks t') (j : Nat) :
    (s'.server.fs.fileBytes fileId)[j]? =
      if offset ≤ j ∧ j < offset + count then some (buffer (j - offset))
      else (s.server.fs.fileBytes fileId)[j]? := by
  rw [(isTree_shows ht').file fileId _ h.node, (isTree_shows ht).file fileId _ hnode,
    getElem?_overwrite hoff]

/-- `my_write` of no bytes -/
theorem call_write_zero (hd : s.lib.get fileId = some d) :
    s.call (.write fileId buffer 0) = .ok ((0, []), s) := by
  have hprog : UserCall.prog s.lib (.write fileId buffer 0) =
      Prog.ret (ε := Halt) ((0, []), s.lib.assign d) := by
    rw [UserCall.prog, myWrite, hd]
    rfl
  rw [Session.call, hprog, Lib.assign_self hd]
  rfl

theorem reported_nothing (hd : s.lib.get fileId = some d) : Reported fileId buffer d 0 s s := by
  refine ⟨Or.inl (Int.le_refl 0), fun _ => ⟨fun j => ?_, fun _ _ _ => ⟨rfl, rfl, fun _ => rfl,
    fun _ => rfl⟩, d, hd, rfl⟩, fun h => by cases h⟩
  rw [if_neg (by simp)]

/-- `my_write` of what is not a file -/
theorem call_write_other (buffer : Nat → UInt8) (hs : s.Sane numBlocks t) (hd : s.lib.get fileId = some d)
    (hnode : ∀ bytes, t.node fileId ≠ some (.file bytes)) {n : Nat} (hn : n ≠ 0) :
    ∃ s', s.call (.write fileId buffer n) = .ok ((-1, []), s') ∧ s'.lib = s.lib ∧
      s'.server.IsTree numBlocks t := by
  obtain ⟨rfl, hsmall, hdesc⟩ := describes_get (isTree_wf hs.isTree) hs.descs hd
  have hoff := hdesc.writeOffset
  have hwp : wp Answered (fun _ => False) (UserCall.prog s.lib (.write d.fileId buffer n))
      (fun x t' => x = ((-1, []), s.lib) ∧ t' = t) t := by
    rw [UserCall.prog, wp_bind answered_mono, myWrite, hd]
    dsimp only
    rw [wp_bind answered_mono]
    refine answered_writeLoop_other hsmall hnode (by omega) (by omega) (Nat.le_refl _) ?_
    rw [wp_pure, if_neg hn, Lib.assign_self hd]
    exact ⟨rfl, rfl⟩
  rcases run_sound answered_sound _ hs.isTree hwp with
    ⟨x, server, t', hrun, ht', rfl, rfl⟩ | ⟨e, -, hno⟩
  · exact ⟨⟨s.lib, server⟩, Session.call_eq hrun, rfl, ht'⟩
  · exact hno.elim

/-- `my_write` of a file: how much of the buffer is written, and what is returned -/
theorem call_write_file (buffer : Nat → UInt8) (hs : s.Sane numBlocks t) (hd : s.lib.get fileId = some d)
    (hnode : t.node fileId = some (.file bytes)) (hlt : numBlocks < 2 ^ 32) (n : Nat) :
    ∃ m r s' t', s.call (.write fileId buffer n) = .ok ((r, []), s') ∧
      s'.server.IsTree numBlocks t' ∧ Wrote t t' fileId bytes d.writeOffset m buffer ∧
      s'.lib.get fileId = some (d.wrote bytes m) ∧
      (r = n ∧ m = n ∧ s.Room numBlocks fileId (d.writeOffset + n) ∨
        r = -1 ∧ ¬ s.Room numBlocks fileId (d.writeOffset + n) ∧
          (m = 0 ↔ ¬ s.Room numBlocks fileId (d.writeOffset + min n 1024))) := by
  obtain ⟨rfl, hsmall, hdesc⟩ := describes_get (isTree_wf hs.isTree) hs.descs hd
  have hoff := (hdesc.inFile bytes hnode).2
  have hroom : ∀ count, Fits bytes (offsetToBlocks bytes.length + t.free) d.writeOffset count ↔
      s.Room numBlocks d.fileId (d.writeOffset + count) := fun count =>
    fits_iff_room hlt hs.isTree hnode hoff
  have hwp : wp Answered (fun _ => False) (UserCall.prog s.lib (.write d.fileId buffer n))
      (fun x t' => ∃ m r, x = ((r, []), s.lib.assign (d.wrote bytes m)) ∧
        Wrote t t' d.fileId bytes d.writeOffset m buffer ∧
        (r = n ∧ m = n ∧ s.Room numBlocks d.fileId (d.writeOffset + n) ∨
          r = -1 ∧ ¬ s.Room numBlocks d.fileId (d.writeOffset + n) ∧
            (m = 0 ↔ ¬ s.Room numBlocks d.fileId (d.writeOffset + min n 1024)))) t := by
    rw [UserCall.prog, wp_bind answered_mono]
    refine answered_myWrite_file (fileIs_of_wf (isTree_wf hs.isTree) hnode) hd hoff
      fun m r t' hwrote hfits hr => ⟨m, r, rfl, hwrote, ?_⟩
    rcases hr with ⟨hr, rfl, -⟩ | ⟨hr, hno, hfirst⟩
    · exact Or.inl ⟨hr, rfl, (hroom m).mp hfits⟩
    · exact Or.inr ⟨hr, fun h => hno ((hroom n).mpr h), by rw [hfirst, hroom]⟩
  rcases run_sound answered_sound _ hs.isTree hwp with
    ⟨x, server, t', hrun, ht', m, r, rfl, hwrote, hr⟩ | ⟨e, -, hno⟩
  · exact ⟨m, r, ⟨_, server⟩, t', Session.call_eq hrun, ht', hwrote, Lib.get_assign hd rfl, hr⟩
  · exact hno.elim

end

/-- What `my_write` returns says what it has done exactly if all of the buffer fits in the file, or
not even the first 1024 bytes of it do. -/
theorem write_reported_iff {numBlocks : Nat} (hn : 10 ≤ numBlocks) (hn' : numBlocks < 2 ^ 32)
    {readings : Nat → Int} {server : Server}
    (hinit : snfsInit numBlocks readings = .ok (.up server.fs))
    {tr : List (Session × SessionAct)} {s : Session}
    (hreach : Run Session.step (Session.start server) tr s) (hpages : ∀ p ∈ tr, p.1.OnePage p.2)
    {fileId : Nat} {d : FileDesc} (hd : s.lib.get fileId = some d) (buffer : Nat → UInt8)
    (numBytes : Nat) :
    ∃ r s', s.call (.write fileId buffer numBytes) = .ok ((r, []), s') ∧
      (Reported fileId buffer d r s s' ↔ ((s.server.fs.inodeOf fileId).itype = 2 →
        s.Room numBlocks fileId (d.writeOffset + numBytes) ∨
          ¬ s.Room numBlocks fileId (d.writeOffset + min numBytes 1024))) := by
  obtain ⟨t, hs⟩ := Session.sane_of_run hn hinit hreach hpages
  have hshows := isTree_shows hs.isTree
  obtain ⟨rfl, hsmall, hdesc⟩ := describes_get (isTree_wf hs.isTree) hs.descs hd
  obtain ⟨n, hn⟩ := Tree.node_of_le hdesc.pos hdesc.le
  have htype := hshows.itype _ _ hn
  cases n with
  | dir es =>
      refine (?_ : ∃ r s', s.call (.write d.fileId buffer numBytes) = .ok ((r, []), s') ∧
        Reported d.fileId buffer d r s s').imp fun r => Exists.imp fun s' h =>
          ⟨h.1, iff_of_true h.2 fun hfile => ?_⟩
      · by_cases hzero : numBytes = 0
        · subst hzero
          exact ⟨0, s, call_write_zero hd, reported_nothing hd⟩
        · obtain ⟨s', hcall, hlib, ht'⟩ := call_write_other buffer hs hd
            (by rw [hn]; simp) hzero
          refine ⟨-1, s', hcall, Or.inr rfl, fun h => by omega, fun _ => ⟨fun id hused => ?_, ?_⟩⟩
          · exact hshows.sameObject (isTree_shows ht') hused rfl
          · rw [hlib, hd]
      · rw [htype] at hfile
        cases hfile
  | file bytes =>
      have hoff := (hdesc.inFile bytes hn).2
      obtain ⟨m, r, s', t', hcall, ht', hwrote, hget, hr⟩ :=
        call_write_file buffer hs hd hn hn' numBytes
      refine ⟨r, s', hcall, ?_⟩
      rcases hr with ⟨rfl, rfl, hroom⟩ | ⟨rfl, hno, hfirst⟩
      · refine iff_of_true ⟨Or.inl (Int.natCast_nonneg m), fun _ => ⟨fun j => ?_, fun id hid hused => ?_,
          _, hget, rfl⟩, fun h => by omega⟩ fun _ => Or.inl hroom
        · exact hwrote.getElem hn hoff hs.isTree ht' j
        · exact hwrote.others_same hs.isTree ht' hid hused
      · by_cases hzero : m = 0
        · subst hzero
          refine iff_of_true ⟨Or.inr rfl, fun h => by omega, fun _ => ⟨fun id hused => ?_, hget⟩⟩
            fun _ => Or.inr (hfirst.mp rfl)
          exact hwrote.all_same hn hs.isTree ht' hused
        · -- the first piece is written, and -1 is returned
          refine iff_of_false (fun h => hzero ?_) fun h => ?_
          · have hsame := hget.symm.trans (h.failed rfl).2
            have hwo := congrArg FileDesc.writeOffset (Option.some.inj hsame)
            change d.writeOffset + m = d.writeOffset at hwo
            omega
          · rcases h htype with hall | hnone
            · exact hno hall
            · exact hzero (hfirst.mpr hnone)

/-- Three blocks are left for the new file, and 1500 bytes are written to it, in two pieces. -/
theorem write_reported_iff_two_pieces :
    ∃ s d r s', s.lib.get 2 = some d ∧ s.call (.write 2 (fun _ => 65) 1500) = .ok ((r, []), s') ∧
      Reported 2 (fun _ => 65) d r s s' := by
  -- `/f`
  let newFile : SessionAct := .call (.openFile ⟨[47, 102], by decide⟩ 1)
  obtain ⟨server, hinit, hval⟩ := session_of_bind 14 (fun i => 7 * i)
    (g := fun s₀ => (s₀.step newFile).map fun s : Session =>
      (s.lib.get 2, decide (s.Room 14 2 1500)))
    (x := (some ⟨2, 0, 0, 0⟩, true)) (by decide +kernel)
  obtain ⟨s, hstep, hval⟩ := Option.map_eq_some_iff.mp hval
  obtain ⟨hd, hroom⟩ := Prod.mk.inj hval
  obtain ⟨r, s', hcall, hiff⟩ := write_reported_iff (by decide) (by decide) hinit
    (Run.nil.snoc hstep) (by simp [newFile, Session.OnePage]) hd (fun _ => 65) 1500
  exact ⟨s, _, r, s', hd, hcall, hiff.mpr fun _ => Or.inl (of_decide_eq_true hroom)⟩

/-- Two blocks are left for the new file, and 1025 bytes are written to it: -1 is returned, and the
descriptor is behind the first 1024. -/
theorem failed_write_moves_offset :
    ∃ server s s' d, snfsInit 13 (fun i => 7 * i) = .ok (.up server.fs) ∧
      Reaches Session.step (Session.start server) s ∧ s.lib.get 2 = some d ∧
      s.call (.write 2 (fun _ => 65) 1025) = .ok ((-1, []), s') ∧
      ¬ Reported 2 (fun _ => 65) d (-1) s s' := by
  -- `/f`
  let newFile : SessionAct := .call (.openFile ⟨[47, 102], by decide⟩ 1)
  obtain ⟨server, hinit, hval⟩ := session_of_bind 13 (fun i => 7 * i)
    (g := fun s₀ => (s₀.step newFile).map fun s : Session =>
      (s.lib.get 2, (s.call (.write 2 (fun _ => 65) 1025)).toOption.map fun x =>
        (x.1, x.2.lib.get 2)))
    (x := (some ⟨2, 0, 0, 0⟩, some ((-1, []), some ⟨2, 1024, 0, 1024⟩))) (by decide +kernel)
  obtain ⟨s, hstep, hval⟩ := Option.map_eq_some_iff.mp hval
  obtain ⟨hd, hval⟩ := Prod.mk.inj hval
  obtain ⟨x, hcall, hx⟩ := Option.map_eq_some_iff.mp hval
  obtain ⟨hr, hget⟩ := Prod.mk.inj hx
  refine ⟨server, s, x.2, _, hinit, ⟨_, Run.nil.snoc hstep⟩, hd, ?_, fun h => ?_⟩
  · rw [← hr]
    cases hc : s.call (.write 2 (fun _ => 65) 1025) with
    | error e =>
        rw [hc] at hcall
        cases hcall
    | ok y =>
        rw [hc] at hcall
        exact congrArg Except.ok (Option.some.inj hcall)
  · have hsame := (h.failed rfl).2
    rw [hget] at hsame
    cases hsame

end Sthreads.Client
