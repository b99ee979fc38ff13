/-
The cached file system is a view.

`CachedRel` says what the caches and the blocks have to do with a view: the slots of
`icache` and `inode_tab` agree with its inodes; the slots of `dcache`, those of
`bcache` behind them and the blocks behind those agree with its pages; a pointer points
to a slot that holds its inode.  Each operation meets its specification along this
relation (`cached_sound`).  The coherence of each cache is the library's; what is proved
here is that the pages behind `dcache` are those of `bcache`, and what the operations
that are not a cache's own do to the slots.
-/
import Sthreads.Proofs.Snfs.Metadata
import Sthreads.Proofs.Snfs.PageCaches

namespace Sthreads.Snfs

open Cache

/-- A block that can hold data, of so many. -/
def InData (lim b : Nat) : Prop := 10 ≤ b ∧ b < lim

/-- The blocks are those of `m`, and `dcache` is this. -/
def Device (lim : Nat) (s₀ : Fs) (d : Fin 4 → Entry (Nat × Nat) (Page 512)) (s : Fs)
    (m : Nat → Page 512) : Prop :=
  Frame s₀ s ∧ s.dcache = d ∧ s.blocks.wild = false ∧
    ∀ b, InData lim b → s.blocks.Has b ∧ m b = s.blocks.page b

/-- The blocks, seen through `bcache`, are those of `m`. -/
def Buffered (lim : Nat) (s₀ s : Fs) (m : Nat → Page 512) : Prop :=
  ∃ dev, Device lim s₀ s.dcache s dev ∧
    Coherent id (InData lim) (fun b v => v = m b) (fun b v => v = m b) s.bcache dev

/-! ### The relation -/

/-- The pages, seen through `dcache`, are those of the view. -/
def Pages (A : View) (s₀ : Fs) (p : (Fin 4 → Entry (Nat × Nat) (Page 512)) × Fs) : Prop :=
  Represents Prod.snd (fun k => InData A.limit k.2 ∧ A.dirOf k.2 = some k.1)
    (Buffered A.limit s₀) (fun k v => v = A.data k.2) (fun k v => v = A.data k.2) A.data p

/-- The slots and the table agree with the inodes of the view. -/
abbrev Inodes (A : View) (c : Fin 4 → Entry Nat Inode) (tab : Nat → Inode) : Prop :=
  Coherent id A.known (fun id n => Agrees n (A.ino id)) (fun id n => Agrees n (A.tab id)) c tab

/-- The cached file system looks like this. -/
structure CachedRel (s : Fs) (A : View) : Prop where
  numBlocks : s.blocks.numBlocks = A.numBlocks
  low : ∀ b, b < 10 → s.blocks.Has b
  inodeBmap : s.inodeBmap = A.inodeBmap
  blkBmap : s.blkBmap = A.blkBmap
  strtokRest : s.strtokRest = A.strtokRest
  known : ∀ id, A.known id → id < 64
  inodes : Inodes A s.icache s.inodeTab
  ptr : ∀ p id, A.ptr p = some id →
    ∃ i : Fin 4, i.val = p ∧ (s.icache i).valid = true ∧ (s.icache i).key = id
  pages : Pages A s (s.dcache, s)
  stored : A.stored = true → s.Durable

/-- The blocks that can hold data, as the library of the two caches sees them. -/
theorem CachedRel.pagesOn {s : Fs} {A : View} (h : CachedRel s A) :
    PagesOn (InData A.limit) A.dirOf A.data s (s.dcache, s) := h.pages

theorem CachedRel.wild {s : Fs} {A : View} (h : CachedRel s A) : s.blocks.wild = false :=
  h.pagesOn.wild

/-- The views differ in their pages only. -/
def SameButPages (A A' : View) : Prop :=
  A'.numBlocks = A.numBlocks ∧ A'.inodeBmap = A.inodeBmap ∧ A'.blkBmap = A.blkBmap ∧
    A'.known = A.known ∧ A'.ino = A.ino ∧ A'.tab = A.tab ∧ A'.ptr = A.ptr ∧
    A'.strtokRest = A.strtokRest ∧ A'.stored = false

/-- An operation on pages. -/
theorem CachedRel.of_pages {s s' : Fs} {A A' : View} (h : CachedRel s A) (hA : SameButPages A A')
    (hp : PagesOn (InData A'.limit) A'.dirOf A'.data s (s'.dcache, s')) : CachedRel s' A' := by
  obtain ⟨hnum, hibm, hbbm, hknown, hino, htab, hptr, htok, hstored⟩ := hA
  obtain ⟨f1, f2, f3, f4, f5, f6, f7⟩ := hp.frame
  refine ⟨?_, ?_, ?_, ?_, ?_, ?_, ?_, ?_, hp.self, ?_⟩
  · exact f6.trans (h.numBlocks.trans hnum.symm)
  · intro b hb
    have hhas := h.low b hb
    unfold Blocks.Has at hhas ⊢
    rw [f6, f7]
    exact hhas
  · exact f1.trans (h.inodeBmap.trans hibm.symm)
  · exact f2.trans (h.blkBmap.trans hbbm.symm)
  · exact f5.trans (h.strtokRest.trans htok.symm)
  · rw [hknown]
    exact h.known
  · rw [Inodes, f3, f4, hknown, hino, htab]
    exact h.inodes
  · rw [hptr, f4]
    exact h.ptr
  · intro hs
    exact absurd (hstored.symm.trans hs) Bool.false_ne_true

section

variable {s : Fs} {A : View}

theorem CachedRel.bcRead (h : CachedRel s A) {b : Nat} (hb : A.DataBlock b)
    (hdir : A.dirOf b = none) :
    (s.bcRead b).1 = A.data b ∧ CachedRel (s.bcRead b).2 A.touch := by
  obtain ⟨hread, hp⟩ := h.pagesOn.bcRead hb hdir
  exact ⟨hread, h.of_pages ⟨rfl, rfl, rfl, rfl, rfl, rfl, rfl, rfl, rfl⟩ hp⟩

theorem CachedRel.bcWrite (h : CachedRel s A) {b : Nat} (hb : A.DataBlock b)
    (hdir : A.dirOf b = none) (v : Page 512) : CachedRel (s.bcWrite b v) (A.setData b v) :=
  h.of_pages ⟨rfl, rfl, rfl, rfl, rfl, rfl, rfl, rfl, rfl⟩ (h.pagesOn.bcWrite hb hdir v)

/-- A directory may claim a block of its own. -/
theorem CachedRel.claim (h : CachedRel s A) {dir b : Nat}
    (hdir : A.dirOf b = none ∨ A.dirOf b = some dir) : CachedRel s (A.claim dir b) := by
  refine h.of_pages ⟨rfl, rfl, rfl, rfl, rfl, rfl, rfl, rfl, rfl⟩ ?_
  obtain ⟨m, hbuf, hc, hout⟩ := h.pages
  have hsub : ∀ k : Nat × Nat, InData A.limit k.2 ∧ A.dirOf k.2 = some k.1 →
      InData A.limit k.2 ∧ (A.claim dir b).dirOf k.2 = some k.1 := by
    rintro k ⟨hin, hk⟩
    refine ⟨hin, ?_⟩
    by_cases hkb : k.2 = b
    · rw [hkb] at hk
      rw [hk] at hdir
      have hd : k.1 = dir := by simpa using hdir
      simp [View.claim, hkb, hd]
    · simp [View.claim, Function.update_of_ne hkb, hk]
  have hout' : ∀ x, (∀ k : Nat × Nat, InData A.limit k.2 ∧ (A.claim dir b).dirOf k.2 = some k.1 →
      k.2 ≠ x) → m x = A.data x := fun x hx => hout x fun k hk => hx k (hsub k hk)
  refine ⟨m, hbuf, hc.mono hsub (fun _ _ _ hv => hv) (fun _ _ _ hv => hv) ?_, hout'⟩
  rintro ⟨d, b'⟩ ⟨hin, hk⟩ hnk
  refine hout b' ?_
  rintro ⟨d', b''⟩ ⟨-, hk'⟩ heq
  dsimp only at hin hk hnk hk' heq
  subst heq
  have hbb : b'' = b := by
    by_contra hne
    rw [View.claim] at hk
    dsimp only at hk
    rw [Function.update_of_ne hne] at hk
    exact hnk ⟨hin, hk⟩
  subst hbb
  rw [View.claim] at hk
  dsimp only at hk
  rw [Function.update_self] at hk
  rw [hk'] at hdir
  have hd : d' = dir := by simpa using hdir
  rw [hd] at hk'
  exact hnk ⟨hin, hk'.trans hk⟩

theorem CachedRel.dcRead (h : CachedRel s A) {dir b : Nat} (hb : A.DataBlock b)
    (hdir : A.dirOf b = none ∨ A.dirOf b = some dir) :
    (s.dcRead dir b).1 = A.data b ∧ CachedRel (s.dcRead dir b).2 (A.claim dir b) := by
  have h' := h.claim hdir
  have hmine : (A.claim dir b).dirOf b = some dir := by simp [View.claim]
  obtain ⟨hread, hp⟩ := h'.pagesOn.dcRead hb hmine
  exact ⟨hread, h'.of_pages ⟨rfl, rfl, rfl, rfl, rfl, rfl, rfl, rfl, rfl⟩ hp⟩

theorem CachedRel.dcWrite (h : CachedRel s A) {dir b : Nat} (hb : A.DataBlock b)
    (hdir : A.dirOf b = none ∨ A.dirOf b = some dir) (page : Page 512) :
    CachedRel (s.dcWrite dir b page) ((A.claim dir b).setData b page) := by
  have h' := h.claim hdir
  have hmine : (A.claim dir b).dirOf b = some dir := by simp [View.claim]
  have hp := h'.pagesOn.dcWrite hb hmine page
  exact h'.of_pages ⟨rfl, rfl, rfl, rfl, rfl, rfl, rfl, rfl, rfl⟩ hp

/-! ### Inodes -/

/-- All but `icache`, `inode_tab` and the clocks is the same. -/
def InodeFrame (s₀ s : Fs) : Prop :=
  s.blocks = s₀.blocks ∧ s.bcache = s₀.bcache ∧ s.dcache = s₀.dcache ∧
    s.inodeBmap = s₀.inodeBmap ∧ s.blkBmap = s₀.blkBmap ∧ s.strtokRest = s₀.strtokRest

/-- The views differ in their inodes and pointers only. -/
def SameButInodes (A A' : View) : Prop :=
  A'.numBlocks = A.numBlocks ∧ A'.inodeBmap = A.inodeBmap ∧ A'.blkBmap = A.blkBmap ∧
    A'.data = A.data ∧ A'.dirOf = A.dirOf ∧ A'.strtokRest = A.strtokRest ∧ A'.stored = false

/-- An operation on inodes. -/
theorem CachedRel.of_inodes {s' : Fs} {A' : View} (h : CachedRel s A) (hf : InodeFrame s s')
    (hA : SameButInodes A A') (hknown : ∀ id, A'.known id → id < 64)
    (hino : Inodes A' s'.icache s'.inodeTab)
    (hptr : ∀ p id, A'.ptr p = some id →
      ∃ i : Fin 4, i.val = p ∧ (s'.icache i).valid = true ∧ (s'.icache i).key = id) :
    CachedRel s' A' := by
  obtain ⟨f1, f2, f3, f4, f5, f6⟩ := hf
  obtain ⟨hnum, hibm, hbbm, hdata, hdir, htok, hstored⟩ := hA
  have hlim : A'.limit = A.limit := by rw [View.limit, View.limit, hnum]
  refine ⟨?_, ?_, ?_, ?_, ?_, hknown, hino, hptr, ?_, ?_⟩
  · rw [f1, hnum]
    exact h.numBlocks
  · rw [f1]
    exact h.low
  · exact f4.trans (h.inodeBmap.trans hibm.symm)
  · exact f5.trans (h.blkBmap.trans hbbm.symm)
  · exact f6.trans (h.strtokRest.trans htok.symm)
  · obtain ⟨m, ⟨dev, ⟨-, -, hwild, hdev⟩, hb⟩, hc, hout⟩ := h.pages
    refine ⟨m, ⟨dev, ⟨Frame.refl s', rfl, ?_, ?_⟩, ?_⟩, ?_, ?_⟩
    · rw [f1]
      exact hwild
    · rw [f1, hlim]
      exact hdev
    · rw [f2, hlim]
      exact hb
    · rw [f3, hlim, hdir, hdata]
      exact hc
    · rw [hlim, hdir, hdata]
      exact hout
  · intro hs
    exact absurd (hstored.symm.trans hs) Bool.false_ne_true

/-- The table is `m`. -/
def Table (s₀ s : Fs) (m : Nat → Inode) : Prop := InodeFrame s₀ s ∧ m = s.inodeTab

theorem table_spec (s₀ : Fs) (D : Nat → Prop) : BackingSpec Fs.icBacking id D (Table s₀) where
  read _ _ _ _ h _ := ⟨by rw [h.2]; rfl, h⟩
  write _ _ _ _ h _ := ⟨h.1, by rw [h.2]; rfl⟩
  tick _ _ h := h
  time _ _ h := h

/-- The inode cache and the table behind it. -/
theorem CachedRel.inodes_rep (h : CachedRel s A) : Represents id A.known (Table s)
    (fun id n => Agrees n (A.ino id)) (fun id n => Agrees n (A.tab id)) s.inodeTab
    (s.icache, s) :=
  ⟨s.inodeTab, ⟨⟨rfl, rfl, rfl, rfl, rfl, rfl⟩, rfl⟩, h.inodes, fun _ _ => rfl⟩

theorem CachedRel.icGet (h : CachedRel s A) (heq : A.ino = A.tab) {id : Nat}
    (hid : A.known id) : (∀ q, A.ptr q = some id → (s.icGet id).1 = q) ∧
      CachedRel (s.icGet id).2 (A.setPtr (s.icGet id).1 id) := by
  obtain ⟨⟨tab, ⟨hf, rfl⟩, hc, -⟩, hvalid, hkey, hhit, hother⟩ :=
    represents_fetch (table_spec s A.known) (fun _ _ _ _ h => h)
      (fun id n hn => by rw [← heq]; exact hn) Fs.writebackInterval hid
      (fun n hn => by rw [heq]; exact hn) h.inodes_rep
  constructor
  · intro q hq
    obtain ⟨i, rfl, hv, hk⟩ := h.ptr q id hq
    exact congrArg Fin.val (hhit i hv hk).symm
  · refine h.of_inodes hf ⟨rfl, rfl, rfl, rfl, rfl, rfl, rfl⟩ h.known hc ?_
    intro p id' hp
    rw [View.setPtr] at hp
    dsimp only at hp
    by_cases hpi : p = (s.icGet id).1
    · subst hpi
      rw [Function.update_self, Option.some.injEq] at hp
      subst hp
      exact ⟨_, rfl, hvalid, hkey⟩
    · rw [Function.update_of_ne hpi] at hp
      obtain ⟨i, rfl, hv, hk⟩ := h.ptr p id' hp
      have hi := hother i fun hi => hpi (congrArg Fin.val hi)
      exact ⟨i, rfl, hi.1.trans hv, hi.2.1.trans hk⟩

/-- What a pointer points to. -/
theorem CachedRel.slot (h : CachedRel s A) {p id : Nat} (hp : A.ptr p = some id) :
    (s.icache (Fs.slot p)).valid = true ∧ (s.icache (Fs.slot p)).key = id ∧
      Agrees (s.icache (Fs.slot p)).data (A.ino id) := by
  obtain ⟨i, rfl, hv, hk⟩ := h.ptr p id hp
  have hslot : Fs.slot i.val = i := Fin.ext (Nat.mod_eq_of_lt i.isLt)
  rw [hslot]
  refine ⟨hv, hk, ?_⟩
  rw [← hk]
  exact h.inodes.held i hv

/-- Editing the inode a pointer points to. -/
theorem CachedRel.setInode (h : CachedRel s A) {p id : Nat} (hp : A.ptr p = some id) {n : Inode}
    {a : AInode} (hn : Agrees n a) : CachedRel (s.setInode p n) (A.setIno id a) := by
  obtain ⟨hv, hk, -⟩ := h.slot hp
  refine h.of_inodes ⟨rfl, rfl, rfl, rfl, rfl, rfl⟩ ⟨rfl, rfl, rfl, rfl, rfl, rfl, rfl⟩ h.known
    ?_ ?_
  · refine (h.inodes.edit (fun id' n => Agrees n ((A.setIno id a).ino id')) hv (d := n) ?_ ?_)
    · rw [hk, View.setIno]
      dsimp only
      rw [Function.update_self]
      exact hn
    · intro id' m hne hm
      rw [View.setIno]
      dsimp only
      rw [Function.update_of_ne (fun he => hne (he.trans hk.symm))]
      exact hm
  · intro q id' hq
    obtain ⟨i, hi, hvi, hki⟩ := h.ptr q id' hq
    refine ⟨i, hi, ?_⟩
    simp only [Fs.setInode]
    by_cases hip : i = Fs.slot p
    · subst hip
      rw [Function.update_self]
      exact ⟨hvi, hki⟩
    · rw [Function.update_of_ne hip]
      exact ⟨hvi, hki⟩

/-- The slot of an inode that a pointer points to is found. -/
theorem CachedRel.find_slot (h : CachedRel s A) {p id : Nat} (hp : A.ptr p = some id) :
    Cache.find s.icache id = some (Fs.slot p) := by
  obtain ⟨hv, hk, -⟩ := h.slot hp
  cases hf : Cache.find s.icache id with
  | none => exact absurd hk (find_none hf _ hv)
  | some j =>
      obtain ⟨hvj, hkj⟩ := find_some hf
      rw [h.inodes.unique j (Fs.slot p) hvj hv (hkj.trans hk.symm)]

theorem CachedRel.icDirty (h : CachedRel s A) {p id : Nat} (hp : A.ptr p = some id) :
    CachedRel (s.icDirty id) (A.sync id) := by
  obtain ⟨hv, hk, hag⟩ := h.slot hp
  have hsync : Inodes (A.sync id) s.icache
      (Function.update s.inodeTab id (s.icache (Fs.slot p)).data) := by
    have := h.inodes.sync (fun _ _ _ _ h => h)
      (fun id' n => Agrees n ((A.sync id).tab id')) hv ?_ ?_
    · rwa [hk] at this
    · rw [hk, View.sync]
      dsimp only
      rw [Function.update_self]
      exact hag
    · intro id' n _ hne hn
      rw [View.sync]
      dsimp only
      rw [Function.update_of_ne (fun he => hne (he.trans hk.symm))]
      exact hn
  have hptr : ∀ q id', A.ptr q = some id' → ∃ i : Fin 4, i.val = q ∧
      (s.icache i).valid = true ∧ (s.icache i).key = id' := h.ptr
  rw [Fs.icDirty, h.find_slot hp]
  dsimp only
  split
  · exact h.of_inodes ⟨rfl, rfl, rfl, rfl, rfl, rfl⟩ ⟨rfl, rfl, rfl, rfl, rfl, rfl, rfl⟩ h.known
      hsync hptr
  · refine h.of_inodes ⟨rfl, rfl, rfl, rfl, rfl, rfl⟩ ⟨rfl, rfl, rfl, rfl, rfl, rfl, rfl⟩ h.known
      (hsync.mark hv _) fun q id' hq => ?_
    obtain ⟨i, hi, hvi, hki⟩ := hptr q id' hq
    refine ⟨i, hi, ?_⟩
    dsimp only [Fs.time]
    by_cases hip : i = Fs.slot p
    · subst hip
      rw [Function.update_self]
      exact ⟨hvi, hki⟩
    · rw [Function.update_of_ne hip]
      exact ⟨hvi, hki⟩

theorem CachedRel.icInvalidate (h : CachedRel s A) (heq : A.ino = A.tab) (id : Nat) :
    CachedRel (s.icInvalidate id) { A with ptr := fun _ => none, stored := false } := by
  have hfb : ∀ id n, Agrees n (A.ino id) → Agrees n (A.tab id) := fun id n hn => by
    rw [← heq]
    exact hn
  have hrep : Represents (fun i : Nat => i) A.known (Table s) (fun id n => Agrees n (A.ino id))
      (fun id n => Agrees n (A.tab id)) s.inodeTab ((List.finRange 4).foldl
        (fun p i =>
          if (p.1 i).valid && (p.1 i).key == id then
            let p := Cache.flush Fs.icBacking i p
            (Function.update p.1 i { p.1 i with valid := false }, p.2)
          else p) (s.icache, s)) := by
    refine List.foldlRecOn (motive := fun q => Represents (fun i : Nat => i) A.known (Table s)
      (fun id n => Agrees n (A.ino id)) (fun id n => Agrees n (A.tab id)) s.inodeTab q) _ _
      h.inodes_rep ?_
    intro q hq i _
    split
    · obtain ⟨tab, hrel, hc, hout⟩ :=
        represents_flush (table_spec s A.known) (fun _ _ _ _ h => h) hfb i hq
      exact ⟨tab, hrel, hc.drop (flush_clean i q), hout⟩
    · exact hq
  obtain ⟨tab, ⟨hf, rfl⟩, hc, -⟩ := hrep
  refine h.of_inodes hf ⟨rfl, rfl, rfl, rfl, rfl, rfl, rfl⟩ h.known hc fun p id' hp => ?_
  cases hp

theorem CachedRel.inodeInit (h : CachedRel s A) {id : Nat} (hnew : ¬ A.known id) (hlt : id < 64)
    (itype : Nat) :
    CachedRel { s with inodeTab := Function.update s.inodeTab id (fsiInodeInit itype) }
      (A.addInode id itype) := by
  have hne : ∀ k, A.known k → k ≠ id := fun k hk he => hnew (he ▸ hk)
  have hino : ∀ k, A.known k → (A.addInode id itype).ino k = A.ino k := fun k hk =>
    Function.update_of_ne (hne k hk) _ _
  have htab : ∀ k, A.known k → (A.addInode id itype).tab k = A.tab k := fun k hk =>
    Function.update_of_ne (hne k hk) _ _
  refine h.of_inodes ⟨rfl, rfl, rfl, rfl, rfl, rfl⟩ ⟨rfl, rfl, rfl, rfl, rfl, rfl, rfl⟩ ?_ ?_ ?_
  · rintro k (hk | rfl)
    · exact h.known k hk
    · exact hlt
  · refine (h.inodes.congr_back fun k hk => Function.update_of_ne (hne k hk) _ _).mono
      (fun k hk => Or.inl hk) (fun k n hk hn => ?_) (fun k n hk hn => ?_) ?_
    · rw [hino k hk]
      exact hn
    · rw [htab k hk]
      exact hn
    · rintro k (hk | rfl) hnk
      · exact absurd hk hnk
      · simp only [View.addInode, id_eq]
        rw [Function.update_self, Function.update_self]
        exact ⟨rfl, rfl, fun i b hi => by simp at hi⟩
  · exact h.ptr

/-! ### Storing -/

theorem CachedRel.icFlushAll (h : CachedRel s A) (heq : A.ino = A.tab) :
    CachedRel s.icFlushAll A.touch ∧ ∀ i, (s.icFlushAll.icache i).dirty = false := by
  obtain ⟨⟨tab, ⟨hf, rfl⟩, hc, -⟩, hsame⟩ :=
    represents_flushAll (table_spec s A.known) (fun _ _ _ _ h => h)
      (fun id n hn => by rw [← heq]; exact hn) h.inodes_rep
  refine ⟨h.of_inodes hf ⟨rfl, rfl, rfl, rfl, rfl, rfl, rfl⟩ h.known hc ?_, ?_⟩
  · intro p id' hp
    obtain ⟨i, hi, hv, hk⟩ := h.ptr p id' hp
    exact ⟨i, hi, (hsame i).1.trans hv, (hsame i).2.1.trans hk⟩
  · exact hc.all_clean (flushAll_clean (s.icache, s))

theorem CachedRel.dcFlushAll (h : CachedRel s A) :
    CachedRel s.dcFlushAll A.touch ∧ s.dcFlushAll.icache = s.icache ∧
      ∀ i, (s.dcFlushAll.dcache i).dirty = false := by
  obtain ⟨hp, hclean⟩ := h.pagesOn.dcFlushAll
  exact ⟨h.of_pages ⟨rfl, rfl, rfl, rfl, rfl, rfl, rfl, rfl, rfl⟩ hp, hp.frame.2.2.2.1, hclean⟩

theorem CachedRel.bcFlushAll (h : CachedRel s A) :
    CachedRel s.bcFlushAll A.touch ∧ s.bcFlushAll.icache = s.icache ∧
      s.bcFlushAll.dcache = s.dcache ∧ ∀ i, (s.bcFlushAll.bcache i).dirty = false := by
  obtain ⟨hp, hd, hclean⟩ := h.pagesOn.bcFlushAll
  exact ⟨h.of_pages ⟨rfl, rfl, rfl, rfl, rfl, rfl, rfl, rfl, rfl⟩ hp, hp.frame.2.2.2.1, hd, hclean⟩

/-- Writing the metadata changes nothing that is seen. -/
theorem CachedRel.storeBlocks (h : CachedRel s A) :
    CachedRel (s.withStore s.storeBlocks) A.touch := by
  have hst := Store.storeBlocks_stored s.toStore h.low
  generalize s.toStore.storeBlocks = st' at hst ⊢
  obtain ⟨m, ⟨dev, ⟨-, -, hwild, hdev⟩, hb⟩, hcd, hout⟩ := h.pages
  obtain ⟨f1, f2, f3, f4, f5⟩ := hst.same
  refine h.of_pages ⟨rfl, rfl, rfl, rfl, rfl, rfl, rfl, rfl, rfl⟩
    ⟨m, ⟨dev, ⟨⟨f1, f2, f3, rfl, rfl, f4, f5⟩, rfl, hst.wild.trans hwild, ?_⟩, hb⟩, hcd, hout⟩
  intro b hbd
  obtain ⟨hhas, hpage⟩ := hdev b hbd
  exact ⟨(hst.same.has b).mpr hhas, hpage.trans (hst.data b hbd.1 hhas).symm⟩

theorem CachedRel.storeFsdata (h : CachedRel s A) (heq : A.ino = A.tab) :
    CachedRel s.storeFsdata { A with stored := true } := by
  obtain ⟨h₁, hic⟩ := h.icFlushAll heq
  obtain ⟨h₂, hi₂, hdc⟩ := h₁.dcFlushAll
  obtain ⟨h₃, hi₃, hd₃, hbc⟩ := h₂.bcFlushAll
  have h₄ := h₃.storeBlocks
  have hst := Store.storeBlocks_stored s.icFlushAll.dcFlushAll.bcFlushAll.toStore h₃.low
  have hdur : s.storeFsdata.Durable := by
    refine ⟨hbc, ?_, ?_, ?_, ?_, ?_⟩
    · intro i
      have hi : s.storeFsdata.icache = s.icFlushAll.icache := hi₃.trans hi₂
      rw [hi]
      exact hic i
    · intro i
      have hi : s.storeFsdata.dcache = s.icFlushAll.dcFlushAll.dcache := hd₃
      rw [hi]
      exact hdc i
    · exact hst.blkBmap.trans hst.same.2.1.symm
    · exact hst.inodeBmap.trans hst.same.1.symm
    · intro i hi
      refine (hst.inodeTab i hi).trans ?_
      rw [← hst.same.2.2.1]
      rfl
  exact ⟨h₄.numBlocks, h₄.low, h₄.inodeBmap, h₄.blkBmap, h₄.strtokRest, h₄.known, h₄.inodes,
    h₄.ptr, h₄.pages, fun _ => hdur⟩

end

/-! ### Soundness -/

/-- The bitmaps and what is left for `strtok` are as they are in the view. -/
theorem CachedRel.of_fields {s s' : Fs} {A A' : View} (h : CachedRel s A)
    (hs : s'.blocks = s.blocks ∧ s'.bcache = s.bcache ∧ s'.icache = s.icache ∧
      s'.dcache = s.dcache ∧ s'.inodeTab = s.inodeTab)
    (hA : A'.numBlocks = A.numBlocks ∧ A'.known = A.known ∧ A'.ino = A.ino ∧ A'.tab = A.tab ∧
      A'.data = A.data ∧ A'.dirOf = A.dirOf ∧ A'.ptr = A.ptr)
    (hibm : s'.inodeBmap = A'.inodeBmap) (hbbm : s'.blkBmap = A'.blkBmap)
    (htok : s'.strtokRest = A'.strtokRest) (hstored : A'.stored = true → s'.Durable) :
    CachedRel s' A' := by
  obtain ⟨f1, f2, f3, f4, f5⟩ := hs
  obtain ⟨a1, a2, a3, a4, a5, a6, a7⟩ := hA
  have hlim : A'.limit = A.limit := by rw [View.limit, View.limit, a1]
  refine ⟨?_, ?_, hibm, hbbm, htok, ?_, ?_, ?_, ?_, hstored⟩
  · rw [f1, a1]
    exact h.numBlocks
  · rw [f1]
    exact h.low
  · rw [a2]
    exact h.known
  · rw [Inodes, f3, f5, a2, a3, a4]
    exact h.inodes
  · rw [a7, f3]
    exact h.ptr
  · obtain ⟨m, ⟨dev, ⟨-, -, hwild, hdev⟩, hb⟩, hc, hout⟩ := h.pages
    refine ⟨m, ⟨dev, ⟨Frame.refl s', rfl, ?_, ?_⟩, ?_⟩, ?_, ?_⟩
    · rw [f1]
      exact hwild
    · rw [f1, hlim]
      exact hdev
    · rw [f2, hlim]
      exact hb
    · rw [f4, hlim, a6, a5]
      exact hc
    · rw [hlim, a6, a5]
      exact hout

theorem handler_ok {s s' : Fs} {o : FsOp} {r : o.Res} (hin : Fs.inTable o = true)
    (hexec : Fs.exec o s = (r, s')) (hwild : s'.blocks.wild = false) :
    Fs.handler o s = .ok (r, s') := by
  rw [Fs.handler, if_pos hin, hexec]
  dsimp only
  rw [if_neg (by simp [hwild])]

/-- The operations of the cached file system meet their specifications. -/
theorem cached_sound : Prog.Sound Fs.handler spec CachedRel := by
  intro o s A Q h hspec
  have done : ∀ (r : o.Res) (s' : Fs) (A' : View), Fs.inTable o = true → Fs.exec o s = (r, s') →
      CachedRel s' A' → Q r A' → ∃ r s' A', Fs.handler o s = .ok (r, s') ∧ CachedRel s' A' ∧
        Q r A' := fun r s' A' hin hexec h' hq => ⟨r, s', A', handler_ok hin hexec h'.wild, h', hq⟩
  cases o with
  | icGet id =>
      obtain ⟨heq, hid, hq⟩ := hspec
      obtain ⟨hp, h'⟩ := h.icGet heq hid
      exact done (s.icGet id).1 (s.icGet id).2 _ (by simpa [Fs.inTable] using h.known id hid) rfl h'
        (hq _ hp)
  | inode p =>
      obtain ⟨id, hp, hq⟩ := hspec
      exact done _ _ _ rfl rfl h (hq _ (h.slot hp).2.2)
  | setSize p n =>
      obtain ⟨id, hp, hq⟩ := hspec
      obtain ⟨h1, h2, h3⟩ := (h.slot hp).2.2
      exact done () _ _ rfl rfl (h.setInode hp (a := { A.ino id with size := n }) ⟨h1, rfl, h3⟩) hq
  | setBlock p i b =>
      obtain ⟨id, hp, hi, hq⟩ := hspec
      exact done () _ _ rfl rfl (h.setInode hp ((h.slot hp).2.2.append_block hi b)) hq
  | icDirty id =>
      obtain ⟨⟨p, hp⟩, hq⟩ := hspec
      exact done () (s.icDirty id) _ rfl rfl (h.icDirty hp) hq
  | icInvalidate id =>
      exact done () (s.icInvalidate id) _ rfl rfl (h.icInvalidate hspec.1 id) hspec.2
  | bcRead b buf =>
      obtain ⟨hb, hdir, hq⟩ := hspec
      obtain ⟨hv, h'⟩ := h.bcRead hb hdir
      exact done (s.bcRead b).1 (s.bcRead b).2 _ rfl rfl h' (hv ▸ hq)
  | bcWrite b buf =>
      obtain ⟨hb, hdir, hq⟩ := hspec
      exact done () (s.bcWrite b buf) _ rfl rfl (h.bcWrite hb hdir buf) hq
  | dcRead dir b page =>
      obtain ⟨hb, hdir, hq⟩ := hspec
      obtain ⟨hv, h'⟩ := h.dcRead hb hdir
      exact done (s.dcRead dir b).1 (s.dcRead dir b).2 _ rfl rfl h' (hv ▸ hq)
  | dcWrite dir b page =>
      obtain ⟨hb, hdir, hq⟩ := hspec
      exact done () (s.dcWrite dir b page) _ rfl rfl (h.dcWrite hb hdir page) hq
  | inodeBmap => exact done s.inodeBmap s _ rfl rfl h (h.inodeBmap ▸ hspec)
  | blkBmap => exact done s.blkBmap s _ rfl rfl h (h.blkBmap ▸ hspec)
  | setInodeBmap num =>
      exact done () { s with inodeBmap := bmapSet s.inodeBmap num }
        { A with inodeBmap := bmapSet A.inodeBmap num, stored := false } rfl rfl
        (h.of_fields ⟨rfl, rfl, rfl, rfl, rfl⟩ ⟨rfl, rfl, rfl, rfl, rfl, rfl, rfl⟩
          (congrArg (bmapSet · num) h.inodeBmap) h.blkBmap h.strtokRest nofun) hspec
  | setBlkBmap num =>
      exact done () { s with blkBmap := bmapSet s.blkBmap num }
        { A with blkBmap := bmapSet A.blkBmap num, stored := false } rfl rfl
        (h.of_fields ⟨rfl, rfl, rfl, rfl, rfl⟩ ⟨rfl, rfl, rfl, rfl, rfl, rfl, rfl⟩ h.inodeBmap
          (congrArg (bmapSet · num) h.blkBmap) h.strtokRest nofun) hspec
  | blockNumBlocks => exact done s.blocks.numBlocks s _ rfl rfl h (h.numBlocks ▸ hspec)
  | inodeInit id itype =>
      obtain ⟨hnew, hlt, hq⟩ := hspec
      exact done () _ _ (by simpa [Fs.inTable] using hlt) rfl (h.inodeInit hnew hlt itype) hq
  | storeFsdata => exact done () s.storeFsdata _ rfl rfl (h.storeFsdata hspec.1) hspec.2
  | strtok str =>
      have htok := h.strtokRest
      refine done (strtok (str.getD s.strtokRest)).1
        { s with strtokRest := (strtok (str.getD s.strtokRest)).2 }
        { A with strtokRest := (strtok (str.getD s.strtokRest)).2 } rfl rfl
        (h.of_fields ⟨rfl, rfl, rfl, rfl, rfl⟩ ⟨rfl, rfl, rfl, rfl, rfl, rfl, rfl⟩ h.inodeBmap
          h.blkBmap rfl fun hs => ?_) ?_
      · obtain ⟨d1, d2, d3, d4, d5, d6⟩ := h.stored hs
        exact ⟨d1, d2, d3, d4, d5, d6⟩
      · rw [htok]
        exact hspec

end Sthreads.Snfs
