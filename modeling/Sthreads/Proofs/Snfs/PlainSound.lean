/-
The file system without caches is a view.

There are no slots: the table and the blocks are what is seen.  The operations meet the
same specifications as those of the cached file system.
-/
import Sthreads.Proofs.Snfs.Metadata

namespace Sthreads.Snfs

/-- The file system without caches looks like this. -/
structure PlainRel (s : Plain) (A : View) : Prop where
  numBlocks : s.blocks.numBlocks = A.numBlocks
  wild : s.blocks.wild = false
  low : ∀ b, b < 10 → s.blocks.Has b
  inodeBmap : s.inodeBmap = A.inodeBmap
  blkBmap : s.blkBmap = A.blkBmap
  strtokRest : s.strtokRest = A.strtokRest
  known : ∀ id, A.known id → id < 64
  inodes : ∀ id, A.known id → Agrees (s.inodeTab id) (A.ino id)
  ptr : ∀ p id, A.ptr p = some id → p = id ∧ A.known id
  pages : ∀ b, A.DataBlock b → s.blocks.Has b ∧ s.blocks.page b = A.data b

section

variable {s : Plain} {A : View}

/-- A block is read as it is seen. -/
theorem PlainRel.readBlock (h : PlainRel s A) {b : Nat} (hb : A.DataBlock b) (buf : Page 512) :
    s.readBlock b buf = (A.data b, s) := by
  obtain ⟨hhas, hpage⟩ := h.pages b hb
  rw [Plain.readBlock, Blocks.blockRead_of_has hhas, hpage]

/-- A block is written as it is seen. -/
theorem PlainRel.writeBlock (h : PlainRel s A) {b : Nat} (hb : A.DataBlock b) (v : Page 512) :
    PlainRel (s.withStore (s.writeBlock b v)) (A.setData b v) := by
  obtain ⟨hhas, -⟩ := h.pages b hb
  have hsame := Store.sameFields_writeBlock s.toStore b v
  refine ⟨hsame.2.2.2.1.trans h.numBlocks, ?_, ?_, h.inodeBmap, h.blkBmap, h.strtokRest, h.known,
    h.inodes, h.ptr, ?_⟩
  · exact (Blocks.blockWrite_wild hhas v).trans h.wild
  · exact fun b' hb' => (hsame.has b').mpr (h.low b' hb')
  · intro b' hb'
    obtain ⟨hhas', hpage'⟩ := h.pages b' hb'
    refine ⟨(hsame.has b').mpr hhas', ?_⟩
    simp only [View.setData]
    by_cases hbb : b' = b
    · subst hbb
      rw [Function.update_self]
      exact Blocks.page_blockWrite_self hhas.1 v
    · rw [Function.update_of_ne hbb, ← hpage']
      exact Blocks.page_blockWrite_other hhas hhas' hbb v

/-- Editing the inode a pointer points to. -/
theorem PlainRel.setInode (h : PlainRel s A) {p id : Nat} (hp : A.ptr p = some id) {n : Inode}
    {a : AInode} (hn : Agrees n a) : PlainRel (s.setInode p n) (A.setIno id a) := by
  obtain ⟨rfl, -⟩ := h.ptr p id hp
  refine ⟨h.numBlocks, h.wild, h.low, h.inodeBmap, h.blkBmap, h.strtokRest, h.known, ?_, h.ptr,
    h.pages⟩
  intro k hk
  simp only [Plain.setInode, View.setIno]
  by_cases hkp : k = p
  · subst hkp
    rw [Function.update_self, Function.update_self]
    exact hn
  · rw [Function.update_of_ne hkp, Function.update_of_ne hkp]
    exact h.inodes k hk

theorem PlainRel.inodeInit (h : PlainRel s A) {id : Nat} (hnew : ¬ A.known id) (hlt : id < 64)
    (itype : Nat) :
    PlainRel { s with inodeTab := Function.update s.inodeTab id (fsiInodeInit itype) }
      (A.addInode id itype) := by
  refine ⟨h.numBlocks, h.wild, h.low, h.inodeBmap, h.blkBmap, h.strtokRest, ?_, ?_, ?_, h.pages⟩
  · rintro k (hk | rfl)
    · exact h.known k hk
    · exact hlt
  · intro k hk
    simp only [View.addInode]
    by_cases hki : k = id
    · subst hki
      rw [Function.update_self, Function.update_self]
      exact ⟨rfl, rfl, fun i b hi => by simp at hi⟩
    · rw [Function.update_of_ne hki, Function.update_of_ne hki]
      exact h.inodes k (hk.resolve_right hki)
  · exact fun p id' hp => ⟨(h.ptr p id' hp).1, Or.inl (h.ptr p id' hp).2⟩

theorem PlainRel.storeFsdata (h : PlainRel s A) :
    PlainRel (s.withStore s.storeBlocks) { A with stored := true } := by
  have hst := Store.storeBlocks_stored s.toStore h.low
  generalize s.toStore.storeBlocks = st' at hst ⊢
  obtain ⟨f1, f2, f3, f4, f5⟩ := hst.same
  refine ⟨f4.trans h.numBlocks, hst.wild.trans h.wild, ?_, f1.trans h.inodeBmap,
    f2.trans h.blkBmap, h.strtokRest, h.known, ?_, h.ptr, ?_⟩
  · exact fun b hb => (hst.same.has b).mpr (h.low b hb)
  · intro k hk
    change Agrees (st'.inodeTab k) _
    rw [f3]
    exact h.inodes k hk
  · intro b hb
    obtain ⟨hhas, hpage⟩ := h.pages b hb
    exact ⟨(hst.same.has b).mpr hhas, (hst.data b hb.1 hhas).trans hpage⟩

end

theorem plain_handler_ok {s s' : Plain} {o : FsOp} {r : o.Res} (hin : Fs.inTable o = true)
    (hexec : Plain.exec o s = (r, s')) (hwild : s'.blocks.wild = false) :
    Plain.handler o s = .ok (r, s') := by
  rw [Plain.handler, if_pos hin, hexec]
  dsimp only
  rw [if_neg (by simp [hwild])]

/-- The operations of the file system without caches meet their specifications. -/
theorem plain_sound : Prog.Sound Plain.handler spec PlainRel := by
  intro o s A Q h hspec
  have done : ∀ (r : o.Res) (s' : Plain) (A' : View), Fs.inTable o = true →
      Plain.exec o s = (r, s') → PlainRel s' A' → Q r A' →
      ∃ r s' A', Plain.handler o s = .ok (r, s') ∧ PlainRel s' A' ∧ Q r A' :=
    fun r s' A' hin hexec h' hq => ⟨r, s', A', plain_handler_ok hin hexec h'.wild, h', hq⟩
  -- the same state, looked at in another way
  have same : ∀ A', A'.numBlocks = A.numBlocks → A'.inodeBmap = A.inodeBmap →
      A'.blkBmap = A.blkBmap → A'.strtokRest = A.strtokRest → A'.known = A.known →
      A'.ino = A.ino → A'.data = A.data →
      (∀ p id, A'.ptr p = some id → p = id ∧ A.known id) → PlainRel s A' := by
    intro A' a1 a2 a3 a4 a5 a6 a7 hptr
    refine ⟨h.numBlocks.trans a1.symm, h.wild, h.low, h.inodeBmap.trans a2.symm,
      h.blkBmap.trans a3.symm, h.strtokRest.trans a4.symm, ?_, ?_, ?_, ?_⟩
    · rw [a5]
      exact h.known
    · rw [a5, a6]
      exact h.inodes
    · rw [a5]
      exact hptr
    · intro b hb
      rw [a7]
      refine h.pages b ?_
      rw [View.DataBlock, View.limit, ← a1]
      exact hb
  cases o with
  | icGet id =>
      obtain ⟨heq, hid, hq⟩ := hspec
      refine done id s (A.setPtr id id) (by simpa [Fs.inTable] using h.known id hid) rfl
        (same _ rfl rfl rfl rfl rfl rfl rfl ?_) (hq id fun q hp => (h.ptr q id hp).1.symm)
      intro p id' hp
      by_cases hpi : p = id
      · subst hpi
        simp only [View.setPtr, Function.update_self, Option.some.injEq] at hp
        exact ⟨hp, hp ▸ hid⟩
      · simp only [View.setPtr] at hp
        rw [Function.update_of_ne hpi] at hp
        exact h.ptr p id' hp
  | inode p =>
      obtain ⟨id, hp, hq⟩ := hspec
      obtain ⟨rfl, hknown⟩ := h.ptr p id hp
      exact done (s.inodeTab p) s A rfl rfl h (hq _ (h.inodes p hknown))
  | setSize p n =>
      obtain ⟨id, hp, hq⟩ := hspec
      obtain ⟨rfl, hknown⟩ := h.ptr p id hp
      obtain ⟨h1, h2, h3⟩ := h.inodes p hknown
      exact done () _ _ rfl rfl (h.setInode hp (a := { A.ino p with size := n }) ⟨h1, rfl, h3⟩) hq
  | setBlock p i b =>
      obtain ⟨id, hp, hi, hq⟩ := hspec
      obtain ⟨rfl, hknown⟩ := h.ptr p id hp
      exact done () _ _ rfl rfl (h.setInode hp ((h.inodes p hknown).append_block hi b)) hq
  | icDirty id =>
      exact done () s (A.sync id) rfl rfl (same _ rfl rfl rfl rfl rfl rfl rfl h.ptr) hspec.2
  | icInvalidate id =>
      exact done () s { A with ptr := fun _ => none, stored := false } rfl rfl
        (same _ rfl rfl rfl rfl rfl rfl rfl nofun) hspec.2
  | bcRead b buf =>
      obtain ⟨hb, -, hq⟩ := hspec
      exact done (A.data b) s A.touch rfl (h.readBlock hb buf)
        (same _ rfl rfl rfl rfl rfl rfl rfl h.ptr) hq
  | bcWrite b buf =>
      obtain ⟨hb, -, hq⟩ := hspec
      exact done () _ _ rfl rfl (h.writeBlock hb buf) hq
  | dcRead dir b page =>
      obtain ⟨hb, -, hq⟩ := hspec
      exact done (A.data b) s (A.claim dir b) rfl (h.readBlock hb page)
        (same _ rfl rfl rfl rfl rfl rfl rfl h.ptr) hq
  | dcWrite dir b page =>
      obtain ⟨hb, -, hq⟩ := hspec
      have h' := h.writeBlock hb page
      exact done () _ ((A.claim dir b).setData b page) rfl rfl ⟨h'.numBlocks, h'.wild, h'.low, h'.inodeBmap, h'.blkBmap,
        h'.strtokRest, h'.known, h'.inodes, h'.ptr, h'.pages⟩ hq
  | inodeBmap => exact done s.inodeBmap s _ rfl rfl h (h.inodeBmap ▸ hspec)
  | blkBmap => exact done s.blkBmap s _ rfl rfl h (h.blkBmap ▸ hspec)
  | setInodeBmap num =>
      exact done () { s with inodeBmap := bmapSet s.inodeBmap num }
        { A with inodeBmap := bmapSet A.inodeBmap num, stored := false } rfl rfl
        ⟨h.numBlocks, h.wild, h.low, congrArg (bmapSet · num) h.inodeBmap, h.blkBmap,
          h.strtokRest, h.known, h.inodes, h.ptr, h.pages⟩ hspec
  | setBlkBmap num =>
      exact done () { s with blkBmap := bmapSet s.blkBmap num }
        { A with blkBmap := bmapSet A.blkBmap num, stored := false } rfl rfl
        ⟨h.numBlocks, h.wild, h.low, h.inodeBmap, congrArg (bmapSet · num) h.blkBmap,
          h.strtokRest, h.known, h.inodes, h.ptr, h.pages⟩ hspec
  | blockNumBlocks => exact done s.blocks.numBlocks s _ rfl rfl h (h.numBlocks ▸ hspec)
  | inodeInit id itype =>
      obtain ⟨hnew, hlt, hq⟩ := hspec
      exact done () _ _ (by simpa [Fs.inTable] using hlt) rfl (h.inodeInit hnew hlt itype) hq
  | storeFsdata => exact done () _ _ rfl rfl h.storeFsdata hspec.2
  | strtok str =>
      have htok := h.strtokRest
      refine done (strtok (str.getD s.strtokRest)).1
        { s with strtokRest := (strtok (str.getD s.strtokRest)).2 }
        { A with strtokRest := (strtok (str.getD s.strtokRest)).2 } rfl rfl
        ⟨h.numBlocks, h.wild, h.low, h.inodeBmap, h.blkBmap, rfl, h.known, h.inodes, h.ptr,
          h.pages⟩ ?_
      rw [htok]
      exact hspec

end Sthreads.Snfs
