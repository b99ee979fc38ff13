/-
`fs_format` makes a new file system of one that has nothing but the root.

It writes zeros to all blocks and sets the bits of the first inodes and of the first blocks,
but it clears no bit and drops nothing from the caches.  So it makes a new file system
exactly of one in which no other bit is set.  Such a file system is bare: since marks are
never taken away it has never had another object or a block of data, so `bcache` and
`dcache` are empty and what `icache` holds is what a new file system has.
-/
import Sthreads.Snfs.Interface
import Sthreads.Proofs.Snfs.Marks
import Sthreads.Proofs.Snfs.Handles

namespace Sthreads.Snfs

open Prog Cache

/-- What a new file system has in its first inodes. -/
def First (id : Nat) (n : Inode) : Prop :=
  (id = 0 → Agrees n ⟨0, 0, []⟩) ∧ (id = 1 → Agrees n ⟨1, 0, []⟩)

/-- What the inode table has of them. -/
def Behind (s : Fs) (id : Nat) (n : Inode) : Prop := (id = 1 → s.Used 1) → First id n

/-- No object has been created and no block of data has been used. -/
structure Bare (numBlocks : Nat) (s : Fs) : Prop where
  count : s.blocks.numBlocks = numBlocks
  allocated : s.blocks.allocated = numBlocks * 512 % 2 ^ 32
  inside : ∀ b, b < 10 → Blocks.address 512 b + 512 ≤ s.blocks.allocated
  wild : s.blocks.wild = false
  few : s.FirstMarks
  /-- The root is marked by `fs_format` only. -/
  formatted : ∀ id, s.Used id → ∀ b, b < 10 → bmapIsset s.blkBmap b = true
  slots : Coherent id (· ≤ 1) First (Behind s) s.icache s.inodeTab
  bcache : ∀ i, (s.bcache i).valid = false ∧ (s.bcache i).dirty = false
  dcache : ∀ i, (s.dcache i).valid = false ∧ (s.dcache i).dirty = false

section

variable {numBlocks k : Nat} {s s' : Fs} {α : Type} {v : α}

theorem First.behind {n : Inode} (h : First k n) : Behind s k n := fun _ => h

theorem Behind.first {n : Inode} (h : Behind s k n) (hused : s.Used k) : First k n :=
  h fun h1 => h1 ▸ hused

theorem Bare.represents (h : Bare numBlocks s) : Represents id (· ≤ 1) (Table s) First
    (Behind s) s.inodeTab (s.icache, s) :=
  ⟨s.inodeTab, ⟨⟨rfl, rfl, rfl, rfl, rfl, rfl⟩, rfl⟩, h.slots, fun _ _ => rfl⟩

/-! ### What a bare file system does -/

/-- The pointer is to the inode of this number. -/
def Fs.PointsTo (s : Fs) (p id : Nat) : Prop :=
  p < 4 ∧ (s.icache (Fs.slot p)).valid = true ∧ (s.icache (Fs.slot p)).key = id

theorem Bare.pointsTo (h : Bare numBlocks s) {p : Nat} (hp : s.PointsTo p k) :
    First k (s.icache (Fs.slot p)).data := by
  obtain ⟨-, hvalid, hkey⟩ := hp
  exact hkey ▸ h.slots.held _ hvalid

/-- Getting a marked inode. -/
theorem Bare.icGet (h : Bare numBlocks s) (hused : s.Used k) :
    Bare numBlocks (s.icGet k).2 ∧ (s.icGet k).2.Used k ∧
      (s.icGet k).2.PointsTo (s.icGet k).1 k ∧ ∀ p, s.PointsTo p k → (s.icGet k).1 = p := by
  obtain ⟨⟨tab, ⟨hframe, rfl⟩, hc, -⟩, hvalid, hkey, hhit, -⟩ :=
    represents_fetch (table_spec s (· ≤ 1)) (fun _ _ _ _ h => h) (fun _ _ hn => hn.behind)
      Fs.writebackInterval (h.few.1 k hused) (fun _ hn => hn.first hused) h.represents
  have hslot : ∀ i : Fin 4, Fs.slot i.val = i := fun i => Fin.ext (Nat.mod_eq_of_lt i.isLt)
  have hpoints : (s.icGet k).2.PointsTo (s.icGet k).1 k := by
    refine ⟨Fin.isLt _, ?_⟩
    have hfin : Fs.slot (s.icGet k).1 = _ := hslot _
    rw [hfin]
    exact ⟨hvalid, hkey⟩
  have hsame : ∀ p, s.PointsTo p k → (s.icGet k).1 = p := by
    rintro p ⟨hp, hv, hk⟩
    refine (congrArg Fin.val (hhit (Fs.slot p) hv hk)).symm.trans ?_
    exact Nat.mod_eq_of_lt hp
  obtain ⟨hblocks, hbc, hdc, hibm, hbbm, -⟩ : InodeFrame s (s.icGet k).2 := hframe
  have hiff : ∀ id, (s.icGet k).2.Used id ↔ s.Used id := fun id => by
    rw [Fs.Used, Fs.Used, hibm]
  refine ⟨⟨?_, ?_, ?_, ?_, ⟨?_, ?_⟩, ?_, ?_, ?_, ?_⟩, (hiff k).mpr hused, hpoints, hsame⟩
  · rw [hblocks]
    exact h.count
  · rw [hblocks]
    exact h.allocated
  · rw [hblocks]
    exact h.inside
  · rw [hblocks]
    exact h.wild
  · exact fun id hid => h.few.1 id ((hiff id).mp hid)
  · rw [hbbm]
    exact h.few.2
  · rw [hbbm]
    exact fun id hid => h.formatted id ((hiff id).mp hid)
  · exact hc.mono (fun _ hD => hD) (fun _ _ _ hn => hn)
      (fun _ _ _ hn hif => hn fun h1 => (hiff 1).mp (hif h1)) fun _ hD hnD => absurd hD hnD
  · rw [hbc]
    exact h.bcache
  · rw [hdc]
    exact h.dcache

/-- The position of `strtok` is no part of it. -/
theorem Bare.strtok (h : Bare numBlocks s) (left : List UInt8) :
    Bare numBlocks { s with strtokRest := left } :=
  ⟨h.count, h.allocated, h.inside, h.wild, h.few, h.formatted, h.slots, h.bcache, h.dcache⟩

/-- Only the root passes the checks of an inode number, and only for a directory. -/
theorem Bare.guarded (h : Bare numBlocks s) {ty id : Nat} (hty : ty = 1 ∨ ty = 2) {fail : α}
    {rest : Nat → Inode → FsM α}
    (hrun : run Fs.handler (Snfs.guarded ty id fail rest) s = .ok (v, s')) :
    Bare numBlocks s' ∨ (id = 1 ∧ ty = 1 ∧ ∃ p s₁, Bare numBlocks s₁ ∧ s₁.Used 1 ∧
      s₁.PointsTo p 1 ∧ run Fs.handler (rest p (s₁.icache (Fs.slot p)).data) s₁ = .ok (v, s')) := by
  rw [Snfs.guarded] at hrun
  have hrun := run_inodeBmap hrun
  by_cases hused : bmapIsset s.inodeBmap id = true
  swap
  · rw [if_pos (by simpa using hused)] at hrun
    obtain ⟨-, rfl⟩ := Prod.mk.inj (Except.ok.inj hrun)
    exact Or.inl h
  · rw [if_neg (by simpa using hused)] at hrun
    have hrun := run_inode (run_icGet hrun)
    obtain ⟨hbare, hused', hpoints, -⟩ := h.icGet (k := id) hused
    obtain ⟨hzero, hroot⟩ := hbare.pointsTo hpoints
    split at hrun
    · obtain ⟨-, rfl⟩ := Prod.mk.inj (Except.ok.inj hrun)
      exact Or.inl hbare
    · rename_i htype
      have hle := h.few.1 id hused
      rcases Nat.eq_zero_or_pos id with h0 | hpos
      · have h0 : ((s.icGet id).2.icache (Fs.slot (s.icGet id).1)).data.itype = 0 := (hzero h0).1
        omega
      · obtain rfl : id = 1 := by omega
        have h1 : ((s.icGet 1).2.icache (Fs.slot (s.icGet 1).1)).data.itype = 1 := (hroot rfl).1
        exact Or.inr ⟨rfl, by omega, _, _, hbare, hused', hpoints, hrun⟩

theorem Bare.getAttrs (h : Bare numBlocks s) {file : Nat} {v : Int × Option Attrs}
    (hrun : run Fs.handler (fsGetAttrs file) s = .ok (v, s')) : Bare numBlocks s' := by
  rw [fsGetAttrs] at hrun
  split at hrun
  · obtain ⟨-, rfl⟩ := Prod.mk.inj (Except.ok.inj hrun)
    exact h
  · have hrun := run_inodeBmap hrun
    split at hrun
    · obtain ⟨-, rfl⟩ := Prod.mk.inj (Except.ok.inj hrun)
      exact h
    · rename_i hset
      have hused : bmapIsset s.inodeBmap file = true := by simpa using hset
      have hrun := run_inode (run_icGet hrun)
      obtain ⟨hbare, -⟩ := h.icGet hused
      split at hrun
      · obtain ⟨-, rfl⟩ := Prod.mk.inj (Except.ok.inj hrun)
        exact hbare
      · split at hrun
        · obtain ⟨-, rfl⟩ := Prod.mk.inj (Except.ok.inj hrun)
          exact hbare
        · cases hrun

/-- The root has no entries to search. -/
theorem Bare.dirSearch (h : Bare numBlocks s) (hused : s.Used 1) {junk : Page 512}
    {file : List UInt8} {found : Option Nat}
    (hrun : run Fs.handler (fsiDirSearch junk 1 file) s = .ok (found, s')) :
    found = none ∧ Bare numBlocks s' ∧ s'.Used 1 ∧ ∀ p, s.PointsTo p 1 → s'.PointsTo p 1 := by
  rw [fsiDirSearch] at hrun
  have hrun := run_inode (run_icGet hrun)
  obtain ⟨hbare, hused', hpoints, hsame⟩ := h.icGet hused
  rw [((hbare.pointsTo hpoints).2 rfl).2.1] at hrun
  obtain ⟨rfl, rfl⟩ := Prod.mk.inj (Except.ok.inj hrun)
  exact ⟨rfl, hbare, hused', fun p hp => hsame p hp ▸ hpoints⟩

/-- Every path leads to nothing, or has no component. -/
theorem Bare.lookupTokens (h : Bare numBlocks s) {junk : Page 512} {left : Nat}
    {token : Option (List UInt8)} {v : Int × Option Nat}
    (hrun : run Fs.handler (Snfs.lookupTokens junk left token 1 none) s = .ok (v, s')) :
    Bare numBlocks s' := by
  cases token with
  | none =>
      cases left <;>
        obtain ⟨-, rfl⟩ := Prod.mk.inj (Except.ok.inj hrun) <;>
        exact h
  | some token =>
      cases left with
      | zero => cases hrun
      | succ left =>
          rw [Snfs.lookupTokens] at hrun
          have hrun := run_inodeBmap hrun
          split at hrun
          · obtain ⟨-, rfl⟩ := Prod.mk.inj (Except.ok.inj hrun)
            exact h
          · rename_i hset
            have hused : bmapIsset s.inodeBmap 1 = true := by simpa using hset
            have hrun := run_inode (run_icGet hrun)
            obtain ⟨hbare, hused', -⟩ := h.icGet hused
            split at hrun
            · obtain ⟨-, rfl⟩ := Prod.mk.inj (Except.ok.inj hrun)
              exact hbare
            · obtain ⟨found, s₂, hsearch, hrest⟩ := run_bind_ok hrun
              obtain ⟨rfl, hbare₂, -⟩ := hbare.dirSearch hused' hsearch
              obtain ⟨-, rfl⟩ := Prod.mk.inj (Except.ok.inj hrest)
              exact hbare₂

theorem Bare.lookup (h : Bare numBlocks s) {junk : Page 512} {file : CStr}
    {v : Int × Option Nat} (hrun : run Fs.handler (fsLookup junk file) s = .ok (v, s')) :
    Bare numBlocks s' := by
  rw [fsLookup] at hrun
  split at hrun
  · obtain ⟨-, rfl⟩ := Prod.mk.inj (Except.ok.inj hrun)
    exact h
  · split at hrun
    · cases hrun
    · have hrun := run_exec (o := .strtok (some file.chars)) hrun
      have hbare : Bare numBlocks (Fs.exec (.strtok (some file.chars)) s).2 := h.strtok _
      generalize (Fs.exec (.strtok (some file.chars)) s).2 = s₁ at hrun hbare
      change run Fs.handler (Snfs.lookupTokens junk _ _ 1 none) s₁ = _ at hrun
      exact hbare.lookupTokens hrun

theorem Bare.read (h : Bare numBlocks s) {junk : Page 512} {file offset count : Nat}
    {v : Int × Option Nat × List UInt8}
    (hrun : run Fs.handler (fsRead junk file offset count) s = .ok (v, s')) :
    Bare numBlocks s' := by
  obtain ⟨rest, -, heq⟩ := fsRead_guarded junk file offset count
  rw [heq] at hrun
  split at hrun
  · obtain ⟨-, rfl⟩ := Prod.mk.inj (Except.ok.inj hrun)
    exact h
  · exact (h.guarded (Or.inr rfl) hrun).resolve_right fun hroot => absurd hroot.2.1 (by decide)

theorem Bare.write (h : Bare numBlocks s) {junk : Page 512} {file offset count : Nat}
    {buffer : Nat → UInt8} {v : Int}
    (hrun : run Fs.handler (fsWrite junk file offset count buffer) s = .ok (v, s')) :
    Bare numBlocks s' := by
  obtain ⟨rest, heq⟩ := fsWrite_guarded junk file offset count buffer
  rw [heq] at hrun
  split at hrun
  · obtain ⟨-, rfl⟩ := Prod.mk.inj (Except.ok.inj hrun)
    exact h
  · exact (h.guarded (Or.inr rfl) hrun).resolve_right fun hroot => absurd hroot.2.1 (by decide)

theorem Bare.readdir (h : Bare numBlocks s) {junk : Page 512} {dir : Nat} {maxentries : Int}
    {v : Int × Option (List (List UInt8 × Nat))}
    (hrun : run Fs.handler (fsReaddir junk dir maxentries) s = .ok (v, s')) :
    Bare numBlocks s' := by
  rw [fsReaddir] at hrun
  split at hrun
  · obtain ⟨-, rfl⟩ := Prod.mk.inj (Except.ok.inj hrun)
    exact h
  · rcases h.guarded (Or.inl (rfl : 1 = 1)) hrun with
      hbare | ⟨-, -, p, s₁, hbare, -, hpoints, hrest⟩
    · exact hbare
    · dsimp only at hrest
      rw [((hbare.pointsTo hpoints).2 rfl).2.1, Nat.zero_div, Nat.zero_min] at hrest
      obtain ⟨-, rfl⟩ := Prod.mk.inj (Except.ok.inj hrest)
      exact hbare

/-- Creating needs a block for the first entry, and marks it. -/
theorem Bare.createOf (h : Bare numBlocks s) {itype : Nat} {junk : Page 512} {dir : Nat}
    {file : CStr} {v : Int × Option Nat} (hfew : s'.FirstMarks)
    (hrun : run Fs.handler (fsCreateOf itype junk dir file) s = .ok (v, s')) :
    Bare numBlocks s' := by
  rw [fsCreateOf] at hrun
  split at hrun
  · obtain ⟨-, rfl⟩ := Prod.mk.inj (Except.ok.inj hrun)
    exact h
  · split at hrun
    · obtain ⟨-, rfl⟩ := Prod.mk.inj (Except.ok.inj hrun)
      exact h
    · rcases h.guarded (Or.inl (rfl : 1 = 1)) hrun with
        hbare | ⟨rfl, -, p, s₁, hbare, hused, hp, hrest⟩
      · exact hbare
      · obtain ⟨found, s₂, hsearch, hrest⟩ := run_bind_ok hrest
        obtain ⟨rfl, hbare₂, hused₂, hsame⟩ := hbare.dirSearch hused hsearch
        obtain ⟨finode, s₃, hfind, hrest⟩ := run_bind_ok hrest
        have hs₃ : s₃ = s₂ := by
          rw [findFreeInode] at hfind
          have hfind := run_inodeBmap hfind
          split at hfind
          · exact (Prod.mk.inj (Except.ok.inj hfind)).2.symm
          · cases hfind
        subst hs₃
        cases finode with
        | none =>
            obtain ⟨-, rfl⟩ := Prod.mk.inj (Except.ok.inj hrest)
            exact hbare₂
        | some finode =>
            obtain ⟨grown, s₄, hgrow, hafter⟩ := run_bind_ok hrest
            rw [growDir] at hgrow
            have hgrow := run_inode hgrow
            rw [((hbare₂.pointsTo (hsame p hp)).2 rfl).2.1, if_pos (by rfl)] at hgrow
            obtain ⟨fblock, s₅, hblk, hgrow⟩ := run_bind_ok hgrow
            obtain ⟨rfl, hfree⟩ := run_findFreeBlk hblk
            cases fblock with
            | none =>
                obtain ⟨rfl, rfl⟩ := Prod.mk.inj (Except.ok.inj hgrow)
                obtain ⟨-, rfl⟩ := Prod.mk.inj (Except.ok.inj hafter)
                exact hbare₂
            | some fblock =>
                have hset : bmapIsset s₅.blkBmap fblock = false := (findFreeFrom_some hfree).2
                have hmarks := (run_marks _ (run_setBlkBmap hgrow)).trans (run_marks _ hafter)
                have hlt : fblock < 10 := by
                  refine hfew.2 fblock (hmarks.blocks fblock ?_)
                  change bmapIsset (bmapSet s₅.blkBmap fblock) fblock = true
                  rw [bmapIsset_bmapSet (findFreeFrom_lt hfree), decide_eq_true rfl, Bool.true_or]
                rw [hbare₂.formatted 1 hused₂ fblock hlt] at hset
                cases hset

theorem Bare.step (h : Bare numBlocks s) {c : FsCall} {junk : Page 512} (hfew : s'.FirstMarks)
    (hstep : s.step (junk, c) = some s') : Bare numBlocks s' := by
  obtain ⟨-, r, hrun⟩ := Fs.step_some hstep
  cases c with
  | copy srcpath tgtpath =>
      obtain ⟨-, rfl⟩ := Prod.mk.inj (Except.ok.inj hrun)
      exact h
  | readdir dir maxentries =>
      obtain ⟨v, s₁, hcall, hrest⟩ := run_bind_ok hrun
      obtain ⟨-, rfl⟩ := Prod.mk.inj (Except.ok.inj hrest)
      exact h.readdir hcall
  | call c =>
      obtain ⟨v, s₁, hcall, hrest⟩ := run_bind_ok hrun
      obtain ⟨-, rfl⟩ := Prod.mk.inj (Except.ok.inj hrest)
      cases c with
      | getAttrs file =>
          obtain ⟨v, s₂, hfs, hrest⟩ := run_bind_ok hcall
          obtain ⟨-, rfl⟩ := Prod.mk.inj (Except.ok.inj hrest)
          exact h.getAttrs hfs
      | lookup file =>
          obtain ⟨v, s₂, hfs, hrest⟩ := run_bind_ok hcall
          obtain ⟨-, rfl⟩ := Prod.mk.inj (Except.ok.inj hrest)
          exact h.lookup hfs
      | read file offset count =>
          obtain ⟨v, s₂, hfs, hrest⟩ := run_bind_ok hcall
          obtain ⟨-, rfl⟩ := Prod.mk.inj (Except.ok.inj hrest)
          exact h.read hfs
      | write file offset count buffer =>
          obtain ⟨v, s₂, hfs, hrest⟩ := run_bind_ok hcall
          obtain ⟨-, rfl⟩ := Prod.mk.inj (Except.ok.inj hrest)
          exact h.write hfs
      | create dir file =>
          obtain ⟨v, s₂, hfs, hrest⟩ := run_bind_ok hcall
          obtain ⟨-, rfl⟩ := Prod.mk.inj (Except.ok.inj hrest)
          exact h.createOf hfew hfs
      | mkdir dir newdir =>
          obtain ⟨v, s₂, hfs, hrest⟩ := run_bind_ok hcall
          obtain ⟨-, rfl⟩ := Prod.mk.inj (Except.ok.inj hrest)
          exact h.createOf hfew hfs

/-! ### Formatting -/

/-- What is marked in a file system that has been formatted. -/
theorem firstMarks_format (hfew : s.FirstMarks) (hformat : s.fsFormat = .ok s') :
    (∀ id, bmapIsset s'.inodeBmap id = decide (id ≤ 1)) ∧
      ∀ b, bmapIsset s'.blkBmap b = decide (b < 10) := by
  obtain ⟨hibm, hbbm⟩ := fsFormat_bitmaps hformat
  refine ⟨fun id => ?_, fun b => ?_⟩
  · rw [hibm, bmapIsset_bmapSet (by omega), bmapIsset_bmapSet (by omega), Bool.eq_iff_iff]
    simp only [Bool.or_eq_true, decide_eq_true_eq]
    refine ⟨?_, fun hid => ?_⟩
    · rintro (h1 | h0 | hold)
      · omega
      · omega
      · exact hfew.1 id hold
    · rcases (show id = 1 ∨ id = 0 by omega) with h1 | h0
      · exact Or.inl h1
      · exact Or.inr (Or.inl h0)
  · rw [hbbm, bmapIsset_foldl _ (by omega), Bool.eq_iff_iff]
    simp only [Bool.or_eq_true, decide_eq_true_eq]
    exact ⟨fun hb => hb.elim (fun hlt => hlt) (hfew.2 b), Or.inl⟩

/-- The number of blocks that a new file system has for data. -/
def dataBlocks (numBlocks : Nat) : Nat :=
  freeCount ((List.range 10).foldl bmapSet fun _ => 0) (asInt numBlocks).toNat

theorem freeCount_congr {bmap bmap' : Page 512} (h : ∀ b, bmapIsset bmap b = bmapIsset bmap' b)
    (limit : Nat) : freeCount bmap limit = freeCount bmap' limit := by
  refine List.countP_congr fun b _ => ?_
  rw [h b]

/-- What is seen of a bare file system that has been formatted. -/
def Bare.view (s : Fs) : View := { View.fresh s.toStore with strtokRest := s.strtokRest }

/-- A bare file system that has been formatted is an empty tree. -/
theorem Bare.isTree (h : Bare numBlocks s)
    (hhas : ∀ b, b < 10 ∨ b < (asInt numBlocks).toNat → s.blocks.Has b)
    (hibm : ∀ id, bmapIsset s.inodeBmap id = decide (id ≤ 1))
    (hbbm : ∀ b, bmapIsset s.blkBmap b = decide (b < 10)) :
    IsTree CachedRel numBlocks s (Tree.init (dataBlocks numBlocks)) := by
  have hlimit : (Bare.view s).limit = (asInt numBlocks).toNat := by
    change (asInt s.blocks.numBlocks).toNat = _
    rw [h.count]
  have hino : ∀ id, id ≤ 1 → ∀ n, First id n → Agrees n ((Bare.view s).ino id) := by
    intro id hid n hn
    have hview : (Bare.view s).ino = Function.update (fun _ => ⟨0, 0, []⟩) 1 ⟨1, 0, []⟩ := rfl
    rw [hview]
    rcases (show id = 0 ∨ id = 1 by omega) with rfl | rfl
    · exact hn.1 rfl
    · exact hn.2 rfl
  have hroot : s.Used 1 := (hibm 1).trans (by decide)
  refine ⟨Bare.view s, ⟨rfl, fun b hb => hhas b (Or.inl hb), rfl, rfl, rfl, fun id hid => ?_, ?_,
    fun p id hp => (by cases hp), ?_, fun hs => (by cases hs)⟩, ?_, rfl, h.count⟩
  · change id ≤ 1 at hid
    omega
  · exact ⟨h.slots.dom, h.slots.unique, fun i hi => hino _ (h.slots.dom i hi) _ (h.slots.held i hi),
      fun k hk hclean => hino k hk _ ((h.slots.back k hk hclean) fun _ => hroot), h.slots.idle⟩
  · refine ⟨(Bare.view s).data, ⟨(Bare.view s).data, ⟨Frame.refl _, rfl, h.wild, fun b hb => ?_⟩,
      ?_⟩, ?_, fun _ _ => rfl⟩
    · have hlt : b < (Bare.view s).limit := hb.2
      exact ⟨hhas b (Or.inr (hlimit ▸ hlt)), rfl⟩
    · exact Coherent.empty (fun i => (h.bcache i).1) (fun i => (h.bcache i).2) fun b _ => rfl
    · exact Coherent.empty (fun i => (h.dcache i).1) (fun i => (h.dcache i).2) fun b _ => rfl
  · have hrep := first_rep s.strtokRest hibm hbbm
    have hfree : freeCount s.blkBmap (View.fresh s.toStore).limit = dataBlocks numBlocks := by
      rw [dataBlocks, ← hlimit]
      exact freeCount_congr (fun b => (hbbm b).trans (bmapIsset_range (by omega) b).symm) _
    rw [hfree] at hrep
    exact hrep

/-- Formatting a bare file system makes an empty tree of it. -/
theorem Bare.format (hn : 10 ≤ numBlocks) (h : Bare numBlocks s) (hformat : s.fsFormat = .ok s') :
    Bare numBlocks s' ∧ IsTree CachedRel numBlocks s' (Tree.init (dataBlocks numBlocks)) := by
  obtain ⟨hibm, hbbm⟩ := firstMarks_format h.few hformat
  have hroot : s'.Used 1 := (hibm 1).trans (by decide)
  rw [Fs.fsFormat, Fs.checked] at hformat
  split at hformat
  · cases hformat
  rename_i hwild
  obtain rfl := Except.ok.inj hformat
  obtain ⟨-, -, htab, halloc⟩ := formatted_metadata s.toStore
  -- only `icache` can have something to write back
  generalize hs₁ : s.withStore s.formatted = s₁ at *
  have hslots₁ : Coherent id (· ≤ 1) First First s₁.icache s₁.inodeTab := by
    rw [← hs₁]
    refine ⟨h.slots.dom, h.slots.unique, h.slots.held, fun k hk hclean => ?_, h.slots.idle⟩
    change First k (s.formatted.inodeTab k)
    rw [htab]
    by_cases hk1 : k = 1
    · rw [hk1, Function.update_self]
      exact ⟨fun h0 => (by cases h0), fun _ => ⟨rfl, rfl, fun i b hb => by simp at hb⟩⟩
    · rw [Function.update_of_ne hk1]
      exact (h.slots.back k hk hclean) fun h1 => absurd h1 hk1
  obtain ⟨⟨tab, ⟨hframe, rfl⟩, hslots₂, -⟩, -⟩ :=
    represents_flushAll (table_spec s₁ (· ≤ 1)) (fun _ _ _ _ h => h) (fun _ _ hn => hn)
      (⟨s₁.inodeTab, ⟨⟨rfl, rfl, rfl, rfl, rfl, rfl⟩, rfl⟩, hslots₁, fun _ _ => rfl⟩ :
        Represents id (· ≤ 1) (Table s₁) First First s₁.inodeTab (s₁.icache, s₁))
  have hslots₂ : Coherent id (· ≤ 1) First First s₁.icFlushAll.icache s₁.icFlushAll.inodeTab :=
    hslots₂
  obtain ⟨hblocks, hbc, hdc, -, -, -⟩ : InodeFrame s₁ s₁.icFlushAll := hframe
  have hsame : ∀ i, (s₁.icFlushAll.bcache i).valid = false ∧
      (s₁.icFlushAll.bcache i).dirty = false := by
    rw [hbc, ← hs₁]
    exact h.bcache
  have hsame' : ∀ i, (s₁.icFlushAll.dcache i).valid = false ∧
      (s₁.icFlushAll.dcache i).dirty = false := by
    rw [hdc, ← hs₁]
    exact h.dcache
  rw [storeFsdata_of_clean_pages (fun i => (hsame i).2) fun i => (hsame' i).2] at *
  generalize s₁.icFlushAll = s₂ at *
  have hblocks : s₂.blocks = s.formatted.blocks := by rw [hblocks, ← hs₁]; rfl
  have hwild : s₂.storeBlocks.blocks.wild = false := Bool.eq_false_iff.mpr hwild
  obtain ⟨hcount, -, hhas⟩ := formatted_has hn h.count h.allocated h.inside hblocks hwild
  obtain ⟨hfields, -, -, -, -, -⟩ := Store.storeBlocks_stored s₂.toStore fun b hb => by
    rw [hblocks]
    exact hhas b (Or.inl hb)
  have hhas' : ∀ b, b < 10 ∨ b < (asInt numBlocks).toNat → s₂.storeBlocks.blocks.Has b :=
    fun b hb => (hfields.has b).mpr (hblocks ▸ hhas b hb)
  obtain ⟨-, -, htab₂, hcount₂, halloc₂⟩ := hfields
  have hbare : Bare numBlocks (s₂.withStore s₂.storeBlocks) := by
    refine ⟨?_, ?_, ?_, hwild, ⟨fun id hid => ?_, fun b hb => ?_⟩, fun _ _ b hb => ?_, ?_, hsame,
      hsame'⟩
    · exact hcount₂.trans (hblocks ▸ hcount)
    · exact halloc₂.trans (hblocks ▸ halloc.trans h.allocated)
    · intro b hb
      refine (h.inside b hb).trans (Nat.le_of_eq ?_)
      exact (halloc₂.trans (hblocks ▸ halloc)).symm
    · exact of_decide_eq_true ((hibm id).symm.trans hid)
    · exact of_decide_eq_true ((hbbm b).symm.trans hb)
    · exact (hbbm b).trans (decide_eq_true hb)
    · refine ⟨hslots₂.dom, hslots₂.unique, hslots₂.held, fun k hk hclean => ?_, hslots₂.idle⟩
      have hback := hslots₂.back k hk hclean
      rw [← htab₂] at hback
      exact hback.behind
  exact ⟨hbare, hbare.isTree hhas' hibm hbbm⟩

/-! ### Runs -/

/-- A new file system is bare. -/
theorem bare_new (hn : 10 ≤ numBlocks) {readings : Nat → Int}
    (hnew : Fs.fsNew numBlocks readings = .ok s) : Bare numBlocks s := by
  obtain ⟨st₀, hst₀, hchecked⟩ := except_bind_ok hnew
  obtain ⟨hcount, halloc, hzero⟩ := new_ok hst₀
  have hloaded := Store.loadFsdata_loaded st₀ (by omega)
  generalize st₀.loadFsdata = st at hchecked hloaded
  rw [Fs.checked] at hchecked
  split at hchecked
  · cases hchecked
  rename_i hwild
  obtain rfl := Except.ok.inj hchecked
  have hwild : st.blocks.wild = false := Bool.eq_false_iff.mpr hwild
  have hcount₁ : st.blocks.numBlocks = numBlocks := by rw [hloaded.same, hcount]
  have halloc₁ : st.blocks.allocated = st₀.blocks.allocated := by rw [hloaded.same]
  have hnone : ∀ id, ¬ (Fs.empty st readings).Used id := fun id hid => by
    change bmapIsset st.inodeBmap id = true at hid
    rw [hloaded.inodeBmap, hzero, bmapIsset_zero] at hid
    cases hid
  refine ⟨hcount₁, halloc₁.trans halloc, fun b hb => ?_, hwild,
    ⟨fun id hid => absurd hid (hnone id), fun b hb => ?_⟩, fun id hid => absurd hid (hnone id), ?_,
    fun _ => ⟨rfl, rfl⟩, fun _ => ⟨rfl, rfl⟩⟩
  · exact ((hloaded.wild.mp hwild).2 b hb).trans (Nat.le_of_eq halloc₁.symm)
  · change bmapIsset st.blkBmap b = true at hb
    rw [hloaded.blkBmap, hzero, bmapIsset_zero] at hb
    cases hb
  · refine Coherent.empty (fun _ => rfl) (fun _ => rfl) fun k hk h1 => ?_
    obtain ⟨pages, htab, hpages⟩ := hloaded.inodeTab
    refine ⟨fun h0 => ?_, fun h1' => absurd (h1 h1') (hnone 1)⟩
    change Agrees (st.inodeTab k) _
    rw [htab]
    exact tabOfPages_zero (fun i hi => (hpages i hi).trans (hzero _)) (by omega)

theorem marks_act {a : FsAct} (hact : s.act a = some s') : s.Marks s' := by
  cases a with
  | call junk c =>
      obtain ⟨-, r, hrun⟩ := Fs.step_some hact
      exact run_marks _ hrun
  | format =>
      cases hformat : s.fsFormat with
      | error e =>
          rw [Fs.act, hformat] at hact
          cases hact
      | ok s₁ =>
          rw [Fs.act, hformat] at hact
          obtain rfl := Option.some.inj hact
          exact marks_fsFormat hformat

theorem Fs.Marks.few (h : s.Marks s') (hfew : s'.FirstMarks) : s.FirstMarks :=
  ⟨fun id hid => hfew.1 id (h.inodes id hid), fun b hb => hfew.2 b (h.blocks b hb)⟩

theorem Bare.act (hn : 10 ≤ numBlocks) (h : Bare numBlocks s) {a : FsAct} (hfew : s'.FirstMarks)
    (hact : s.act a = some s') : Bare numBlocks s' := by
  cases a with
  | call junk c => exact h.step hfew hact
  | format =>
      cases hformat : s.fsFormat with
      | error e =>
          rw [Fs.act, hformat] at hact
          cases hact
      | ok s₁ =>
          rw [Fs.act, hformat] at hact
          obtain rfl := Option.some.inj hact
          exact (h.format hn hformat).1

/-- What has only the first inodes and blocks marked is bare, since it always had. -/
theorem NewReached.bare (hn : 10 ≤ numBlocks) (h : NewReached numBlocks s)
    (hfew : s.FirstMarks) : Bare numBlocks s := by
  obtain ⟨readings, s₀, hnew, tr, hrun⟩ := h
  refine hrun.invariant (fun s => s.FirstMarks → Bare numBlocks s) (fun _ => bare_new hn hnew) ?_
    hfew
  intro s a s' hbare hact hfew
  exact (hbare ((marks_act hact).few hfew)).act hn hfew hact

/-- `fs_format` makes a new file system of one that any sequence of calls has led to, exactly if
there only the first inodes and the first blocks are marked. -/
theorem format_as_new_iff (hn : 10 ≤ numBlocks) (h : NewReached numBlocks s)
    (hformat : s.fsFormat = .ok s') : AsNew numBlocks s' ↔ s.FirstMarks := by
  constructor
  · intro hnew
    exact (marks_fsFormat hformat).few
      ⟨fun id => (hnew.inodes id).mp, fun b => (hnew.blocks b).mp⟩
  · intro hfew
    obtain ⟨hibm, hbbm⟩ := firstMarks_format hfew hformat
    obtain ⟨-, ht⟩ := (h.bare hn hfew).format hn hformat
    refine ⟨fun id => ?_, fun b => ?_, ?_, fun new hnew junk junk' calls hok => ?_⟩
    · rw [Fs.Used, hibm, decide_eq_true_eq]
    · rw [hbbm, decide_eq_true_eq]
    · have hshows := isTree_shows ht
      have hnode : (Tree.init (dataBlocks numBlocks)).node 1 = some (.dir []) := rfl
      exact ⟨hshows.itype 1 _ hnode, hshows.dir 1 [] hnode⟩
    · obtain ⟨readings, s₀, hnew, hformat₀⟩ := hnew
      have hbare := bare_new hn hnew
      obtain ⟨-, ht₀⟩ := hbare.format hn hformat₀
      exact (isTree_outcome cached_sound cached_forgets junk ht hok).trans
        (isTree_outcome cached_sound cached_forgets junk' ht₀ hok).symm

end

/-- Twelve blocks that are formatted twice. -/
theorem format_as_new_iff_twice :
    ∃ fs₀ fs fs', Fs.fsNew 12 (fun i => 7 * i) = .ok fs₀ ∧ fs₀.fsFormat = .ok fs ∧
      fs.fsFormat = .ok fs' ∧ AsNew 12 fs' := by
  have hfacts : ((Fs.fsNew 12 (fun i => 7 * i) >>= Fs.fsFormat) >>= Fs.fsFormat).isOk = true := by
    decide +kernel
  cases hnew : Fs.fsNew 12 (fun i => 7 * i) with
  | error e =>
      rw [hnew] at hfacts
      cases hfacts
  | ok fs₀ =>
      rw [hnew, except_ok_bind] at hfacts
      cases hformat : fs₀.fsFormat with
      | error e =>
          rw [hformat] at hfacts
          cases hfacts
      | ok fs =>
          rw [hformat, except_ok_bind] at hfacts
          cases hagain : fs.fsFormat with
          | error e =>
              rw [hagain] at hfacts
              cases hfacts
          | ok fs' =>
              have hact : fs₀.act .format = some fs := by
                rw [Fs.act, hformat]
                rfl
              obtain ⟨hibm, hbbm⟩ := firstMarks_format (bare_new (by decide) hnew).few hformat
              refine ⟨fs₀, fs, fs', rfl, hformat, hagain,
                (format_as_new_iff (by decide) ⟨_, fs₀, hnew, _, Run.nil.snoc hact⟩ hagain).mpr
                  ⟨fun id hid => ?_, fun b hb => ?_⟩⟩
              · exact of_decide_eq_true ((hibm id).symm.trans hid)
              · exact of_decide_eq_true ((hbbm b).symm.trans hb)

/-- After a file has been created, `fs_format` leaves its inode marked, and it is still found. -/
theorem format_leaves_file :
    ∃ fs fs', NewReached 12 fs ∧ fs.fsFormat = .ok fs' ∧ fs'.Used 2 ∧
      fs'.Leads [47, 102] 2 ∧ ¬ AsNew 12 fs' := by
  have hfacts : (Fs.fsNew 12 (fun i => 7 * i)).map (fun fs₀ =>
      (fs₀.act .format).map fun fs₁ =>
        (fs₁.act (.call (fun _ => 0) (.call (.create 1 ⟨[102], by decide⟩)))).map fun fs =>
          fs.fsFormat.map fun fs' => (bmapIsset fs'.inodeBmap 2, decide (fs'.Leads [47, 102] 2))) =
      .ok (some (some (.ok (true, true)))) := by
    decide +kernel
  cases hnew : Fs.fsNew 12 (fun i => 7 * i) with
  | error e =>
      rw [hnew] at hfacts
      cases hfacts
  | ok fs₀ =>
      rw [hnew] at hfacts
      obtain ⟨fs₁, hact₁, hrest⟩ := Option.map_eq_some_iff.mp (Except.ok.inj hfacts)
      obtain ⟨fs, hact, hval⟩ := Option.map_eq_some_iff.mp hrest
      cases hformat : fs.fsFormat with
      | error e =>
          rw [hformat] at hval
          cases hval
      | ok fs' =>
          rw [hformat] at hval
          obtain ⟨hused, hleads⟩ := Prod.mk.inj (Except.ok.inj hval)
          refine ⟨fs, fs', ⟨_, fs₀, hnew, _, (Run.nil.snoc hact₁).snoc hact⟩, hformat, hused,
            of_decide_eq_true hleads, fun h => ?_⟩
          exact absurd ((h.inodes 2).mp hused) (by decide)

end Sthreads.Snfs
