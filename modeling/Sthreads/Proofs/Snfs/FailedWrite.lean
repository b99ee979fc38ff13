/-
A write that fails changes nothing, unless it has run out of blocks on the way.

`fs_write` marks the blocks that it allocates one by one.  If the last of them cannot be
had, those before it stay marked, and no inode has them.  So a write that fails has changed
nothing exactly if it had not begun to allocate, or if no block was free; and otherwise no
block is left.
-/
import Sthreads.Proofs.Snfs.InodeCache
import Sthreads.Proofs.Snfs.Unchanged

namespace Sthreads.Snfs

open Prog

namespace Fs

/-- The number of blocks that the bitmap has as free. -/
def freeBlocks (fs : Fs) : Nat := freeCount fs.blkBmap (asInt fs.blocks.blockNumBlocks).toNat

/-- `blks_req` of `fs_write` -/
def blksReq (fs : Fs) (file offset count : Nat) : Nat :=
  let size := (fs.inodeOf file).size
  max (offsetToBlocks ((min offset size + count) % 2 ^ 32)) (offsetToBlocks size) -
    offsetToBlocks size

/-- The write gets as far as to allocate blocks. -/
structure Allocates (fs : Fs) (file offset count : Nat) : Prop where
  used : file < 64 ∧ fs.Used file
  itype : (fs.inodeOf file).itype = 2
  room : fs.blksReq file offset count ≤ 10 - offsetToBlocks (fs.inodeOf file).size

end Fs

section

variable {s s' : Fs} {x : Seen}

/-! ### Getting an inode -/

/-- States with the same inodes, up to the blocks not in use, and the same blocks. -/
theorem Settled.unchanged {x' : Seen} (h : Settled s x) (h' : Settled s' x')
    (hino : x'.ino = x.ino) (hframe : InodeFrame s s') : Unchanged s s' := by
  obtain ⟨hblocks, hbc, hdc, hibm, hbbm, -⟩ := hframe
  have huses : ∀ id, Uses (s'.inodeOf id) (s.inodeOf id) := fun id => by
    have hid := h'.inodeOf id
    rw [hino] at hid
    exact hid.trans (h.inodeOf id).symm
  have hpage : ∀ b, s'.blockPage b = s.blockPage b := fun b => by
    rw [Fs.blockPage, Fs.blockPage, hbc, hblocks]
  have hdir : ∀ dir b, s'.dirPage dir b = s.dirPage dir b := fun dir b => by
    rw [Fs.dirPage, Fs.dirPage, hdc, hpage]
  refine ⟨hibm, hbbm, fun id _ => ?_⟩
  obtain ⟨htype, hsize, hblks⟩ := huses id
  refine ⟨⟨htype, hsize, fun _ => ?_, fun _ => ?_⟩, hblks⟩
  · rw [Fs.fileBytes, Fs.fileBytes, hsize]
    refine List.map_congr_left fun j hj => ?_
    have hj := List.mem_range.mp hj
    rw [hblks (j / 512) (by rw [offsetToBlocks_eq]; omega), hpage]
  · rw [Fs.dirEntries, Fs.dirEntries, hsize]
    refine List.map_congr_left fun j hj => ?_
    have hj := List.mem_range.mp hj
    rw [hblks (j / 32) (by rw [offsetToBlocks_eq]; omega), hdir]

/-! ### Allocating -/

/-- A search that finds nothing has seen only marked blocks. -/
theorem findFreeFrom_none {bmap : Page 512} {left i : Nat}
    (h : findFreeFrom bmap left i = .ok none) :
    ∀ b, i ≤ b → b < i + left → bmapIsset bmap b = true := by
  induction left generalizing i with
  | zero => exact fun b hb hb' => absurd hb' (by omega)
  | succ left ih =>
      rw [findFreeFrom] at h
      split at h
      · cases h
      · split at h
        · rename_i hset
          intro b hb hb'
          rcases Nat.eq_or_lt_of_le hb with rfl | hlt
          · exact hset
          · exact ih h b hlt (by omega)
        · cases h

theorem findFreeFrom_some {bmap : Page 512} {left i b : Nat}
    (h : findFreeFrom bmap left i = .ok (some b)) :
    b < i + left ∧ bmapIsset bmap b = false := by
  induction left generalizing i with
  | zero => cases h
  | succ left ih =>
      rw [findFreeFrom] at h
      split at h
      · cases h
      · split at h
        · have := ih h
          exact ⟨by omega, this.2⟩
        · rename_i hset
          obtain rfl := Option.some.inj (Except.ok.inj h)
          exact ⟨by omega, by simpa using hset⟩

/-- An operation that has returned, and what follows it. -/
theorem run_exec {β : Type} {o : FsOp} {f : o.Res → FsM β} {b : β}
    (h : run Fs.handler (.perform o >>= f) s = .ok (b, s')) :
    run Fs.handler (f (Fs.exec o s).1) (Fs.exec o s).2 = .ok (b, s') := by
  obtain ⟨r, s₁, hop, hrest⟩ := run_op_ok h
  rw [exec_of_handler hop]
  exact hrest

section

variable {β : Type} {b : β}

theorem run_inodeBmap {f : Page 512 → FsM β}
    (h : run Fs.handler (inodeBmap >>= f) s = .ok (b, s')) :
    run Fs.handler (f s.inodeBmap) s = .ok (b, s') := run_exec h

theorem run_blkBmap {f : Page 512 → FsM β} (h : run Fs.handler (blkBmap >>= f) s = .ok (b, s')) :
    run Fs.handler (f s.blkBmap) s = .ok (b, s') := run_exec h

theorem run_blockNumBlocks {f : Nat → FsM β}
    (h : run Fs.handler (blockNumBlocks >>= f) s = .ok (b, s')) :
    run Fs.handler (f s.blocks.blockNumBlocks) s = .ok (b, s') := run_exec h

theorem run_icGet {id : Nat} {f : Nat → FsM β}
    (h : run Fs.handler (icGet id >>= f) s = .ok (b, s')) :
    run Fs.handler (f (s.icGet id).1) (s.icGet id).2 = .ok (b, s') := run_exec h

theorem run_inode {p : Nat} {f : Inode → FsM β}
    (h : run Fs.handler (inode p >>= f) s = .ok (b, s')) :
    run Fs.handler (f (s.icache (Fs.slot p)).data) s = .ok (b, s') := run_exec h

theorem run_setBlkBmap {num : Nat} {f : Unit → FsM β}
    (h : run Fs.handler (setBlkBmap num >>= f) s = .ok (b, s')) :
    run Fs.handler (f ()) { s with blkBmap := bmapSet s.blkBmap num } = .ok (b, s') := run_exec h

end

/-- The search for a free block reads the bitmap. -/
theorem run_findFreeBlk {found : Option Nat} (h : run Fs.handler findFreeBlk s = .ok (found, s')) :
    s' = s ∧ findFreeFrom s.blkBmap (asInt s.blocks.blockNumBlocks).toNat 0 = .ok found := by
  rw [findFreeBlk] at h
  have h := run_blockNumBlocks (run_blkBmap h)
  rw [fsiBmapFindFree] at h
  split at h
  · rename_i r hr
    obtain ⟨rfl, rfl⟩ := Prod.mk.inj (Except.ok.inj h)
    exact ⟨rfl, hr⟩
  · cases h

theorem run_setBlock {p i b : Nat} {u : Unit} (h : run Fs.handler (setBlock p i b) s = .ok (u, s')) :
    s'.blocks = s.blocks := by
  rw [setBlock] at h
  split at h
  · obtain ⟨-, rfl⟩ := Prod.mk.inj (Except.ok.inj (run_exec (f := pure) h))
    rfl
  · cases h

/-- When the loop that allocates blocks fails, none is left; if there was none to begin with, it
has done nothing. -/
theorem run_allocBlocks {p : Nat} :
    ∀ (left i : Nat) {s s' : Fs}, run Fs.handler (allocBlocks p left i) s = .ok (false, s') →
      s'.blocks = s.blocks ∧ s'.freeBlocks = 0 ∧ (s.freeBlocks = 0 → s' = s) := by
  intro left
  induction left with
  | zero =>
      intro i s s' h
      obtain ⟨hval, -⟩ := Prod.mk.inj (Except.ok.inj h)
      cases hval
  | succ left ih =>
      intro i s s' h
      rw [allocBlocks] at h
      obtain ⟨found, s₁, hfind, h⟩ := run_bind_ok h
      obtain ⟨rfl, hres⟩ := run_findFreeBlk hfind
      cases found with
      | none =>
          obtain ⟨-, rfl⟩ := Prod.mk.inj (Except.ok.inj h)
          have hall := findFreeFrom_none hres
          exact ⟨rfl, freeCount_eq_zero.mpr fun b hb => hall b (Nat.zero_le b) (by omega),
            fun _ => rfl⟩
      | some b =>
          obtain ⟨hlt, hfree⟩ := findFreeFrom_some hres
          obtain ⟨u, s₂, hset, h⟩ := run_bind_ok h
          obtain ⟨hblocks, hzero, -⟩ := ih (i + 1) (run_setBlkBmap h)
          have hset : s₂.blocks = s₁.blocks := run_setBlock hset
          refine ⟨hblocks.trans hset, hzero, fun hnone => ?_⟩
          rw [freeCount_eq_zero.mp hnone b (by omega)] at hfree
          cases hfree

/-! ### Writing -/

/-- What is left of `fs_write` when the blocks have been allocated does not return -1. -/
theorem always_writeData (junk : Page 512) (ifile file offset count blksUsed blksReq : Nat)
    (buffer : Nat → UInt8) :
    Always (· = 0) (writeData junk ifile file offset count blksUsed blksReq buffer) := by
  rw [writeData]
  refine always_bind (fun r _ => always_bind (fun num _ => ?_) (Always.trivial _))
    (Always.trivial _)
  split
  · trivial
  · exact fun _ _ _ _ => rfl

/-- A write that fails has not got as far as to allocate blocks and has only got the inode, or it
has found too few of them and left none. -/
theorem run_fsWrite_fails (h : Settled s x) {junk : Page 512} {file offset count : Nat}
    {buffer : Nat → UInt8}
    (hrun : run Fs.handler (fsWrite junk file offset count buffer) s = .ok (-1, s')) :
    (Unchanged s s' ∧ ¬ (s.Allocates file offset count ∧ 0 < s.freeBlocks)) ∨
      (s.Allocates file offset count ∧ 0 < s.freeBlocks ∧ s'.blocks = s.blocks ∧
        s'.freeBlocks = 0) := by
  have hsame : Unchanged s s := h.unchanged h rfl ⟨rfl, rfl, rfl, rfl, rfl, rfl⟩
  rw [fsWrite] at hrun
  by_cases h64 : file ≥ 64
  · rw [if_pos h64] at hrun
    obtain ⟨-, rfl⟩ := Prod.mk.inj (Except.ok.inj hrun)
    exact Or.inl ⟨hsame, fun hall => absurd hall.1.used.1 (by omega)⟩
  rw [if_neg h64] at hrun
  have hrun := run_inodeBmap hrun
  by_cases hused : bmapIsset s.inodeBmap file = true
  swap
  · rw [if_pos (by simpa using hused)] at hrun
    obtain ⟨-, rfl⟩ := Prod.mk.inj (Except.ok.inj hrun)
    exact Or.inl ⟨hsame, fun hall => hused hall.1.used.2⟩
  rw [if_neg (by simpa using hused)] at hrun
  have hrun := run_inode (run_icGet hrun)
  obtain ⟨-, hget, hframe⟩ := h.1.icGet file
  have h₁ : Settled (s.icGet file).2 (x.setPtr (s.icGet file).1 file) := ⟨hget, h.2⟩
  have hsame₁ : Unchanged s (s.icGet file).2 := h.unchanged h₁ rfl hframe
  -- what the pointer points to is what is looked up
  have hn : Uses ((s.icGet file).2.icache (Fs.slot (s.icGet file).1)).data (s.inodeOf file) := by
    have hslot := (hget.slot (p := (s.icGet file).1) (Function.update_self ..)).2.2
    refine (hslot.resolve_left fun he => ?_).trans (h.inodeOf file).symm
    rw [h₁.2] at he
    cases he
  generalize ((s.icGet file).2.icache (Fs.slot (s.icGet file).1)).data = n at hn hrun
  obtain ⟨htype, hsize, -⟩ := hn
  generalize (s.icGet file).1 = p at hrun
  have hblocks : (s.icGet file).2.freeBlocks = s.freeBlocks := by
    rw [Fs.freeBlocks, hframe.1, hframe.2.2.2.2.1]
    rfl
  generalize (s.icGet file).2 = s₁ at hrun hsame₁ hframe hblocks
  by_cases hfile : n.itype = 2
  swap
  · rw [if_pos hfile] at hrun
    obtain ⟨-, rfl⟩ := Prod.mk.inj (Except.ok.inj hrun)
    exact Or.inl ⟨hsame₁, fun hall => hfile (htype.trans hall.1.itype)⟩
  rw [if_neg (by simpa using hfile), hsize] at hrun
  dsimp only at hrun
  have hreq : max (offsetToBlocks ((min offset (s.inodeOf file).size + count) % 2 ^ 32))
      (offsetToBlocks (s.inodeOf file).size) - offsetToBlocks (s.inodeOf file).size =
        s.blksReq file offset count := rfl
  rw [hreq] at hrun
  by_cases hroom : s.blksReq file offset count > 10 - offsetToBlocks (s.inodeOf file).size
  · rw [if_pos hroom] at hrun
    obtain ⟨-, rfl⟩ := Prod.mk.inj (Except.ok.inj hrun)
    exact Or.inl ⟨hsame₁, fun hall => absurd hall.1.room (by omega)⟩
  rw [if_neg hroom] at hrun
  have halloc : s.Allocates file offset count :=
    ⟨⟨by omega, hused⟩, htype.symm.trans hfile, by omega⟩
  obtain ⟨ok, s₂, hloop, hrun⟩ := run_bind_ok hrun
  cases ok with
  | true =>
      have hzero := (always_writeData ..).run hrun
      cases hzero
  | false =>
      obtain ⟨-, rfl⟩ := Prod.mk.inj (Except.ok.inj hrun)
      obtain ⟨hb, hzero, hnothing⟩ := run_allocBlocks _ _ hloop
      rcases Nat.eq_zero_or_pos s.freeBlocks with hfree | hfree
      · obtain rfl := hnothing (hblocks.trans hfree)
        exact Or.inl ⟨hsame₁, fun hall => absurd hall.2 (by omega)⟩
      · exact Or.inr ⟨halloc, hfree, hb.trans hframe.1, hzero⟩

end

/-- A write that fails changes nothing exactly if it has not begun to allocate blocks or no block
was free. -/
theorem failed_write_iff {numBlocks : Nat} {s s' : Fs} (h : FsReached numBlocks s)
    (junk : Page 512) (file offset count : Nat) (buffer : Nat → UInt8)
    (hrun : run Fs.handler (fsWrite junk file offset count buffer) s = .ok (-1, s')) :
    Unchanged s s' ↔ ¬ (s.Allocates file offset count ∧ 0 < s.freeBlocks) := by
  obtain ⟨x, hx⟩ := h.settled
  rcases run_fsWrite_fails hx hrun with ⟨hsame, hno⟩ | ⟨halloc, hfree, hblocks, hzero⟩
  · simp only [hsame, hno, not_false_eq_true]
  · refine ⟨fun hsame => ?_, fun hno => absurd ⟨halloc, hfree⟩ hno⟩
    have hcount : s'.freeBlocks = s.freeBlocks := by
      rw [Fs.freeBlocks, Fs.freeBlocks, hblocks, hsame.blkBmap]
    omega

/-- On a full device a write fails and changes nothing. -/
theorem failed_write_iff_full_device :
    ∃ s s', Fs.session 12 (fun i => 7 * i) (fun _ _ => 0)
        [.create 1 ⟨[102], by decide⟩, .write 2 0 512 (fun _ => 65)] = .ok s ∧
      run Fs.handler (fsWrite (fun _ => 0) 2 512 1 (fun _ => 66)) s = .ok (-1, s') ∧
      Unchanged s s' := by
  have hfacts : (Fs.session 12 (fun i => 7 * i) (fun _ _ => 0)
      [.create 1 ⟨[102], by decide⟩, .write 2 0 512 (fun _ => 65)]).map (fun s =>
        (s.freeBlocks,
          (run Fs.handler (fsWrite (fun _ => 0) 2 512 1 (fun _ => 66)) s).map (·.1))) =
      .ok (0, .ok (-1)) := by
    decide +kernel
  cases hs : Fs.session 12 (fun i => 7 * i) (fun _ _ => 0)
      [.create 1 ⟨[102], by decide⟩, .write 2 0 512 (fun _ => 65)] with
  | error e =>
      rw [hs] at hfacts
      cases hfacts
  | ok s =>
      rw [hs] at hfacts
      obtain ⟨hfree, hfails⟩ := Prod.mk.inj (Except.ok.inj hfacts)
      cases hrun : run Fs.handler (fsWrite (fun _ => 0) 2 512 1 (fun _ => 66)) s with
      | error e =>
          rw [hrun] at hfails
          cases hfails
      | ok p =>
          rw [hrun] at hfails
          have hminus := Except.ok.inj hfails
          obtain ⟨status, s'⟩ := p
          obtain rfl : status = -1 := hminus
          have hreached : FsReached 12 s := (Reached.session (by simp [Call.Ok]) hs).fsReached
          exact ⟨s, s', rfl, hrun, (failed_write_iff hreached _ 2 512 1 _ hrun).mpr
            fun hall => absurd hall.2 (by omega)⟩

/-- With one block free, a write that needs two fails and takes it: a write of one byte that would
have been done before is refused afterwards. -/
theorem failed_write_takes_block :
    ∃ s s', Fs.session 12 (fun i => 7 * i) (fun _ _ => 0) [.create 1 ⟨[102], by decide⟩] = .ok s ∧
      FsReached 12 s ∧
      run Fs.handler (fsWrite (fun _ => 0) 2 0 1024 (fun _ => 65)) s = .ok (-1, s') ∧
      ¬ Unchanged s s' ∧ s.freeBlocks = 1 ∧ s'.freeBlocks = 0 ∧
      (run Fs.handler (fsWrite (fun _ => 0) 2 0 1 (fun _ => 65)) s).map (·.1) = .ok 0 ∧
      (run Fs.handler (fsWrite (fun _ => 0) 2 0 1 (fun _ => 65)) s').map (·.1) = .ok (-1) := by
  have hbefore : (Fs.session 12 (fun i => 7 * i) (fun _ _ => 0)
      [.create 1 ⟨[102], by decide⟩]).map (fun s => (s.freeBlocks,
        bmapIsset s.blkBmap 11, (run Fs.handler (fsWrite (fun _ => 0) 2 0 1 (fun _ => 65)) s).map (·.1))) =
      .ok (1, false, .ok 0) := by
    decide +kernel
  have hafter : (Fs.session 12 (fun i => 7 * i) (fun _ _ => 0)
      [.create 1 ⟨[102], by decide⟩]).map (fun s =>
        (run Fs.handler (fsWrite (fun _ => 0) 2 0 1024 (fun _ => 65)) s).map (fun p =>
          (p.1, p.2.freeBlocks, bmapIsset p.2.blkBmap 11,
            (run Fs.handler (fsWrite (fun _ => 0) 2 0 1 (fun _ => 65)) p.2).map (·.1)))) =
      .ok (.ok (-1, 0, true, .ok (-1))) := by
    decide +kernel
  cases hs : Fs.session 12 (fun i => 7 * i) (fun _ _ => 0) [.create 1 ⟨[102], by decide⟩] with
  | error e =>
      rw [hs] at hbefore
      cases hbefore
  | ok s =>
      rw [hs] at hbefore hafter
      have hval := Except.ok.inj hbefore
      simp only [Prod.mk.injEq] at hval
      obtain ⟨hfree, hclear, hone⟩ := hval
      have hafter := Except.ok.inj hafter
      dsimp only at hafter
      have hreached : FsReached 12 s := (Reached.session (by simp [Call.Ok]) hs).fsReached
      cases hrun : run Fs.handler (fsWrite (fun _ => 0) 2 0 1024 (fun _ => 65)) s with
      | error e =>
          rw [hrun] at hafter
          cases hafter
      | ok p =>
          rw [hrun] at hafter
          obtain ⟨status, s'⟩ := p
          have hval := Except.ok.inj hafter
          simp only [Prod.mk.injEq] at hval
          obtain ⟨rfl, hnone, hset, hrefused⟩ := hval
          refine ⟨s, s', rfl, hreached, hrun, fun hsame => ?_, hfree, hnone, hone, hrefused⟩
          rw [hsame.blkBmap, hclear] at hset
          cases hset

end Sthreads.Snfs
