/-
What is on the blocks after a successful update.

Nothing is dirty, and the metadata is written.  What is loaded from the blocks with empty
caches is the same tree: a page that is not dirty is what is on its block, and an inode that
fits its words is read back as it was written.
-/
import Sthreads.Proofs.Snfs.ByteArrays

namespace Sthreads.Snfs

open Prog Cache

section

variable {s : Fs} {A : View} {t : Tree}

/-- Where nothing is dirty, the blocks have what is seen. -/
theorem CachedRel.page_of_clean (h : CachedRel s A) (hb : ∀ i, (s.bcache i).dirty = false)
    (hd : ∀ i, (s.dcache i).dirty = false) {b : Nat} (hdata : A.DataBlock b) :
    s.blocks.Has b ∧ s.blocks.page b = A.data b := by
  obtain ⟨m, ⟨dev, ⟨-, -, -, hdev⟩, hbc⟩, hdc, hout⟩ := h.pages
  obtain ⟨hhas, hpage⟩ := hdev b hdata
  have hblock : dev b = m b := hbc.back b hdata fun i _ hdirty => by
    rw [hb i] at hdirty
    cases hdirty
  refine ⟨hhas, hpage.symm.trans (hblock.trans ?_)⟩
  cases hown : A.dirOf b with
  | none =>
      refine hout b fun k hk hkb => ?_
      have := hk.2
      rw [hkb, hown] at this
      cases this
  | some d =>
      exact hdc.back (d, b) ⟨hdata, hown⟩ fun i _ hdirty => by
        rw [hd i] at hdirty
        cases hdirty

/-- An inode is read back from the table as it is seen. -/
theorem agrees_tabPage {tab : Nat → Inode} {pages : Nat → Page 512} {a : AInode} {id : Nat}
    (hid : id < 64) (h : Agrees (tab id) a) (hpages : ∀ i, i < 8 → pages i = tabPage tab i)
    (htype : a.itype < 2 ^ 32) (hsize : a.size < 2 ^ 32) (hten : a.blks.length ≤ 10)
    (hblks : ∀ b ∈ a.blks, b < 2 ^ 32) : Agrees (tabOfPages pages id) a := by
  obtain ⟨h1, h2, h3⟩ := h
  have hword : ∀ w, w < 16 → (tab id).word w < 2 ^ 32 →
      wordAt (fun n => (pages (n / 512)).get (n % 512)) (id * 64 + 4 * w) = (tab id).word w :=
    fun w hw hlt => (Store.tabOfPages_congr _ _ hpages hid hw).trans (word_tabPage tab id hw hlt)
  refine ⟨?_, ?_, fun i b hb => ?_⟩
  · exact (hword 0 (by omega) (by simpa only [Inode.word, h1] using htype)).trans h1
  · exact (hword 1 (by omega) (by simpa only [Inode.word, h2] using hsize)).trans h2
  · have hi := (List.getElem?_eq_some_iff.mp hb).1
    have hblock : (tab id).word (i + 2) = b := by
      rw [Inode.word, if_pos (by omega), h3 i b hb]
    refine (hword (i + 2) (by omega) ?_).trans hblock
    rw [hblock]
    exact hblks b (List.mem_of_getElem? hb)

/-- The blocks that the first have are among the second, with the same bytes. -/
structure Blocks.Copied (bks bks' : Blocks 512) : Prop where
  numBlocks : bks'.numBlocks = bks.numBlocks
  wild : bks'.wild = bks.wild
  has : ∀ b, bks.Has b → bks'.Has b
  page : ∀ b, bks.Has b → bks'.page b = bks.page b

theorem Blocks.Copied.refl (bks : Blocks 512) : bks.Copied bks :=
  ⟨rfl, rfl, fun _ h => h, fun _ _ => rfl⟩

/-- Loading from a copy of the blocks gives the same tree. -/
theorem CachedRel.reload_copy (h : CachedRel s A) (hrep : Rep A t) (heq : A.ino = A.tab)
    (hdur : s.Durable) {st : Store} (hst : s.blocks.Copied st.blocks) (readings : Nat → Int) :
    IsTree CachedRel A.numBlocks (Fs.empty st.loadFsdata readings) t := by
  have hten : 10 ≤ st.blocks.numBlocks := by
    have := (h.low 9 (by omega)).1
    rw [hst.numBlocks]
    omega
  have hload := Store.loadFsdata_loaded st hten
  generalize st.loadFsdata = st' at hload ⊢
  have hhas : ∀ b, s.blocks.Has b → st'.blocks.Has b := fun b hb => by
    have hb' := hst.has b hb
    unfold Blocks.Has at hb' ⊢
    rw [show st'.blocks.numBlocks = st.blocks.numBlocks by rw [hload.same],
      show st'.blocks.allocated = st.blocks.allocated by rw [hload.same]]
    exact hb'
  have hpage : ∀ b, s.blocks.Has b → st'.blocks.page b = s.blocks.page b := fun b hb => by
    rw [hload.same.page, hst.page b hb]
  let A' : View :=
    { A with dirOf := fun _ => none, ptr := fun _ => none, stored := false, strtokRest := [] }
  obtain ⟨pages, htab, hpages⟩ := hload.inodeTab
  have hplain : PlainRel ⟨st', []⟩ A' := by
    have hlow : ∀ b, b < 10 → st.blocks.page b = s.blocks.page b :=
      fun b hb => hst.page b (h.low b hb)
    refine ⟨?_, ?_, fun b hb => hhas b (h.low b hb), ?_, ?_, rfl, h.known, fun id hid => ?_,
      (fun p id h => by cases h), fun b hb => ?_⟩
    · rw [hload.same, hst.numBlocks]
      exact h.numBlocks
    · refine hload.wild.mpr ⟨hst.wild ▸ h.wild, fun b hb => ?_⟩
      have hb' := hst.has b (h.low b hb)
      rw [hb'.address_eq]
      exact hb'.2.1
    · rw [hload.inodeBmap, hlow 1 (by omega), hdur.inodeBmap]
      exact h.inodeBmap
    · rw [hload.blkBmap, hlow 0 (by omega), hdur.blkBmap]
      exact h.blkBmap
    · have hagree : Agrees (s.inodeTab id) (A.ino id) := by
        rw [heq]
        exact h.inodes.back id hid fun i _ hdirty => by
          rw [hdur.icache i] at hdirty
          cases hdirty
      have hle := (hrep.known id).mp hid
      have hsmall : (A.ino id).itype < 2 ^ 32 ∧ (A.ino id).size < 2 ^ 32 := by
        rcases Nat.eq_zero_or_pos id with rfl | hpos
        · rw [hrep.zero]
          exact ⟨by decide, by decide⟩
        · obtain ⟨n, hn⟩ := Tree.node_of_le hpos hle
          have hblocks := hrep.wf.blocks_le (Tree.node_some hn).2.2.2
          rw [offsetToBlocks_eq] at hblocks
          rw [(hrep.node id n hn).itype, (hrep.node id n hn).size]
          refine ⟨?_, by omega⟩
          cases n <;> simp [Node.itype]
      have hmem := hrep.wf.count
      change Agrees (st'.inodeTab id) (A.ino id)
      rw [htab]
      refine agrees_tabPage (by omega) hagree (fun i hi => ?_) hsmall.1 hsmall.2
        (hrep.short id hle) fun b hb => ?_
      · rw [hpages i hi, hlow (i + 2) (by omega), hdur.inodeTab i hi]
      · have := (hrep.data id b hle hb).1.2
        have := (asInt_toNat_le A.numBlocks).2
        unfold View.limit at *
        omega
    · obtain ⟨hb', hpage'⟩ := h.page_of_clean hdur.bcache hdur.dcache (b := b) hb
      exact ⟨hhas b hb', (hpage b hb').trans hpage'⟩
  exact ⟨A', hplain.empty heq (fun _ => rfl) rfl readings,
    hrep.of_sameTree ⟨rfl, rfl, rfl, rfl, rfl, rfl, rfl⟩ (fun b dir h => by cases h),
    heq, rfl⟩

/-- Loading from the blocks gives the same tree. -/
theorem CachedRel.reload (h : CachedRel s A) (hrep : Rep A t) (heq : A.ino = A.tab)
    (hdur : s.Durable) {st : Store} (hst : st.blocks = s.blocks) (readings : Nat → Int) :
    IsTree CachedRel A.numBlocks (Fs.empty st.loadFsdata readings) t :=
  h.reload_copy hrep heq hdur (hst ▸ Blocks.Copied.refl s.blocks) readings

end

/-- After a successful update the blocks hold the whole file system: nothing is dirty, the bitmaps
are written, and what is loaded from the blocks has the same objects. -/
theorem durability {numBlocks : Nat} (hn : 10 ≤ numBlocks) {s s' : Fs} (h : Reached numBlocks s)
    {c : Call} (hok : c.Ok) {junk : Page 512} {r : Reply}
    (hcall : run Fs.handler (c.prog junk) s = .ok (r, s')) (hr : r.Updated) :
    s'.Durable ∧
      ∀ (st : Store) (readings : Nat → Int), st.blocks = s'.blocks →
        let loaded := Fs.empty st.loadFsdata readings
        loaded.blocks.wild = false ∧
          ∀ id, (loaded.Used id ↔ s'.Used id) ∧ (s'.Used id → SameObject s' loaded id) := by
  obtain ⟨t, ht⟩ := h.isTree hn
  rcases isTree_call cached_sound cached_forgets ht hok junk with
    ⟨r', t', s'', -, hrun, ht', hstored⟩ | ⟨e, -, hrun⟩
  · rw [hrun] at hcall
    obtain ⟨rfl, rfl⟩ := Prod.mk.inj (Except.ok.inj hcall)
    obtain ⟨A, hrel, hrep, heq, hst⟩ := hstored hr
    have hdur := hrel.stored hst
    refine ⟨hdur, fun st readings hblocks => ?_⟩
    have hload := hrel.reload hrep heq hdur hblocks readings
    have hshows := hrel.shows hrep heq
    have hshows' := isTree_shows hload
    obtain ⟨A', hrel', -, -, -⟩ := hload
    refine ⟨hrel'.wild, fun id => ⟨?_, fun hused => ?_⟩⟩
    · exact (hshows'.used id).trans (hshows.used id).symm
    · exact hshows.sameObject hshows' hused rfl
  · rw [hrun] at hcall
    cases hcall

/-- Twelve blocks, a file, and a write to it that succeeds. -/
theorem durability_twelve_blocks :
    ∃ s r s', Fs.session 12 (fun i => 7 * i) (fun _ _ => 0) [.create 1 ⟨[102], by decide⟩] = .ok s ∧
      run Fs.handler ((Call.write 2 0 3 fun _ => 65).prog fun _ => 0) s = .ok (r, s') ∧
      s'.Durable := by
  have hfacts : ((Fs.session 12 (fun i => 7 * i) (fun _ _ => 0)
      [.create 1 ⟨[102], by decide⟩]).bind fun s =>
        (run Fs.handler ((Call.write 2 0 3 fun _ => 65).prog fun _ => 0) s).map (·.1)) =
      .ok (.write 0) := by
    decide +kernel
  cases hs : Fs.session 12 (fun i => 7 * i) (fun _ _ => 0) [.create 1 ⟨[102], by decide⟩] with
  | error e =>
      rw [hs] at hfacts
      cases hfacts
  | ok s =>
      rw [hs] at hfacts
      cases hrun : run Fs.handler ((Call.write 2 0 3 fun _ => 65).prog fun _ => 0) s with
      | error e =>
          simp only [Except.bind, hrun] at hfacts
          cases hfacts
      | ok p =>
          simp only [Except.bind, hrun] at hfacts
          have hr : p.1 = .write 0 := Except.ok.inj hfacts
          have hok : (Call.write 2 0 3 fun _ => 65).Ok := show 3 ≤ 1024 by decide
          exact ⟨s, p.1, p.2, rfl, hrun, (durability (by decide)
            (Reached.session (by simp [Call.Ok]) hs) hok hrun (by rw [hr]; rfl)).1⟩

end Sthreads.Snfs
