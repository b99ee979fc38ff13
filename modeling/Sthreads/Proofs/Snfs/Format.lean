/-
A new file system is an empty tree.

`fs_new` and `fs_format` work on empty caches, so that both file systems go through the
same `Store`s (`fresh`).  That no access left the allocated blocks says how many blocks
there are: where `num_blocks * BLOCK_SIZE` wraps, either an access is outside them or
`num_blocks` is negative as an `int`, and then no block is ever found to be free.
-/
import Sthreads.Proofs.Snfs.CachedSound
import Sthreads.Proofs.Snfs.PlainSound
import Sthreads.Proofs.Snfs.Layout

namespace Sthreads.Snfs

open Cache

/-! ### Empty caches -/

/-- With empty caches the file system is what the store is. -/
theorem PlainRel.empty {st : Store} {A : View} (h : PlainRel ⟨st, []⟩ A) (heq : A.ino = A.tab)
    (hptr : ∀ p, A.ptr p = none) (hstored : A.stored = false)
    (readings : Nat → Int) : CachedRel (Fs.empty st readings) A := by
  have hlast : ∀ b, A.DataBlock b → st.blocks.Has b ∧ st.blocks.page b = A.data b := h.pages
  refine ⟨h.numBlocks, h.low, h.inodeBmap, h.blkBmap, h.strtokRest, h.known, ?_, ?_, ?_, ?_⟩
  · refine Coherent.empty (fun _ => rfl) (fun _ => rfl) fun id hid => ?_
    rw [← heq]
    exact h.inodes id hid
  · intro p id hp
    rw [hptr p] at hp
    cases hp
  · refine ⟨A.data, ⟨A.data, ⟨Frame.refl _, rfl, h.wild, fun b hb => ?_⟩, ?_⟩, ?_, fun _ _ => rfl⟩
    · exact ⟨(hlast b hb).1, (hlast b hb).2.symm⟩
    · exact Coherent.empty (fun _ => rfl) (fun _ => rfl) fun b _ => rfl
    · exact Coherent.empty (fun _ => rfl) (fun _ => rfl) fun b _ => rfl
  · intro hs
    exact absurd (hstored.symm.trans hs) Bool.false_ne_true

/-- With no page dirty `fsi_store_fsdata` writes the inodes and the metadata. -/
theorem storeFsdata_of_clean_pages {fs : Fs} (hb : ∀ i, (fs.icFlushAll.bcache i).dirty = false)
    (hd : ∀ i, (fs.icFlushAll.dcache i).dirty = false) :
    fs.storeFsdata = fs.icFlushAll.withStore fs.icFlushAll.storeBlocks := by
  rw [Fs.storeFsdata]
  generalize fs.icFlushAll = fs at hb hd
  have hdc : fs.dcFlushAll = fs := by
    rw [Fs.dcFlushAll, Cache.flushAll_of_clean (p := (fs.dcache, fs)) hd]
    rfl
  have hbc : fs.bcFlushAll = fs := by
    rw [Fs.bcFlushAll, Cache.flushAll_of_clean (p := (fs.bcache, fs)) hb]
    rfl
  rw [hdc, hbc]

/-- With nothing dirty it only writes the metadata. -/
theorem storeFsdata_of_clean {fs : Fs} (hb : ∀ i, (fs.bcache i).dirty = false)
    (hi : ∀ i, (fs.icache i).dirty = false) (hd : ∀ i, (fs.dcache i).dirty = false) :
    fs.storeFsdata = fs.withStore fs.storeBlocks := by
  have hic : fs.icFlushAll = fs := by
    rw [Fs.icFlushAll, Cache.flushAll_of_clean (p := (fs.icache, fs)) hi]
    rfl
  rw [storeFsdata_of_clean_pages (hic.symm ▸ hb) (hic.symm ▸ hd), hic]

/-! ### The store of a new file system -/

namespace Store

/-- Halt if an access has left the allocated blocks. -/
def checked (st : Store) : Except Halt Store := if st.blocks.wild then .error .wild else .ok st

/-- `fs_new` and `fs_format` on the store. -/
def fresh (numBlocks : Nat) : Except Halt Store := do
  let st ← (← Store.new numBlocks).loadFsdata.checked
  st.formatted.storeBlocks.checked

end Store

theorem except_ok_bind {α β : Type} (a : α) (f : α → Except Halt β) :
    (Except.ok a >>= f) = f a := rfl

theorem except_bind_ok {α β : Type} {x : Except Halt α} {f : α → Except Halt β} {b : β}
    (h : (x >>= f) = .ok b) : ∃ a, x = .ok a ∧ f a = .ok b := by
  cases x with
  | error e => cases h
  | ok a => exact ⟨a, rfl, h⟩

theorem except_map_ok {α β : Type} {f : α → β} {x : Except Halt α} {b : β}
    (h : x.map f = .ok b) : ∃ a, x = .ok a ∧ f a = b := by
  cases x with
  | error e => cases h
  | ok a => exact ⟨a, rfl, Except.ok.inj h⟩

/-- Going on after a renaming of the state. -/
theorem except_map_bind {α β : Type} {f : α → β} {g : β → Except Halt β}
    {g' : α → Except Halt α} (h : ∀ a, g (f a) = (g' a).map f) (x : Except Halt α) :
    (x.map f >>= g) = (x >>= g').map f := by
  cases x with
  | error e => rfl
  | ok a => exact h a

theorem checked_cached (st : Store) (readings : Nat → Int) :
    (Fs.empty st readings).checked = st.checked.map fun st => Fs.empty st readings := by
  unfold Fs.checked Store.checked
  change (if st.blocks.wild then _ else _) = _
  cases st.blocks.wild <;> rfl

theorem fsFormat_cached (st : Store) (readings : Nat → Int) :
    (Fs.empty st readings).fsFormat =
      st.formatted.storeBlocks.checked.map fun st => Fs.empty st readings := by
  rw [← checked_cached, Fs.fsFormat]
  change (Fs.empty st.formatted readings).storeFsdata.checked = _
  rw [storeFsdata_of_clean (fun _ => rfl) (fun _ => rfl) (fun _ => rfl)]
  rfl

theorem fresh_cached (numBlocks : Nat) (readings : Nat → Int) :
    (Fs.fsNew numBlocks readings >>= Fs.fsFormat) =
      (Store.fresh numBlocks).map fun st => Fs.empty st readings := by
  unfold Fs.fsNew Store.fresh
  simp only [checked_cached]
  cases Store.new numBlocks with
  | error e => rfl
  | ok st =>
      rw [except_ok_bind, except_ok_bind]
      exact except_map_bind (fun st => fsFormat_cached st readings) _

theorem checked_plain (st : Store) :
    (Plain.mk st []).checked = st.checked.map fun st => Plain.mk st [] := by
  unfold Plain.checked Store.checked
  cases hw : st.blocks.wild <;> rfl

theorem fresh_plain (numBlocks : Nat) :
    (Plain.fsNew numBlocks >>= Plain.fsFormat) =
      (Store.fresh numBlocks).map fun st => Plain.mk st [] := by
  have hformat : ∀ st, (Plain.mk st []).fsFormat =
      st.formatted.storeBlocks.checked.map fun st => Plain.mk st [] := fun st => by
    rw [← checked_plain]
    rfl
  unfold Plain.fsNew Store.fresh
  simp only [checked_plain]
  cases Store.new numBlocks with
  | error e => rfl
  | ok st =>
      rw [except_ok_bind, except_ok_bind]
      exact except_map_bind hformat _

/-! ### The blocks of a new file system -/

/-- What is known of the store before its metadata is written. -/
structure Formatted (numBlocks : Nat) (st : Store) : Prop where
  count : st.blocks.numBlocks = numBlocks
  wild : st.blocks.wild = false
  has : ∀ b, b < 10 ∨ b < (asInt numBlocks).toNat → st.blocks.Has b
  blkBmap : st.blkBmap = (List.range 10).foldl bmapSet fun _ => 0
  inodeBmap : st.inodeBmap = bmapSet (bmapSet (fun _ => 0) 0) 1
  zero : Agrees (st.inodeTab 0) ⟨0, 0, []⟩
  root : Agrees (st.inodeTab 1) ⟨1, 0, []⟩

theorem asInt_toNat_le (n : Nat) : (asInt n).toNat ≤ n ∧ (asInt n).toNat < 2 ^ 31 := by
  unfold asInt
  split <;> omega

/-- The writes of `fs_format`, and its bitmaps. -/
theorem formatted_eq (st : Store) : st.formatted =
    { st.writeRange 0 (fun _ _ => 0) (asInt st.blocks.numBlocks).toNat with
      blkBmap := (List.range 10).foldl bmapSet st.blkBmap
      inodeBmap := bmapSet (bmapSet st.inodeBmap 0) 1
      inodeTab := Function.update st.inodeTab 1 (fsiInodeInit 1) } := by
  obtain ⟨h1, h2, h3, -, -⟩ :=
    Store.sameFields_writeRange st 0 (fun _ _ => 0) (asInt st.blocks.numBlocks).toNat
  rw [← h1, ← h2, ← h3]
  rfl

theorem checked_ok {st st' : Store} (h : st.checked = .ok st') :
    st' = st ∧ st.blocks.wild = false := by
  unfold Store.checked at h
  split at h
  · cases h
  · rename_i hwild
    exact ⟨(Except.ok.inj h).symm, by simpa using hwild⟩

theorem new_ok {numBlocks : Nat} {st : Store} (h : Store.new numBlocks = .ok st) :
    st.blocks.numBlocks = numBlocks ∧ st.blocks.allocated = numBlocks * 512 % 2 ^ 32 ∧
      ∀ b, st.blocks.page b = fun _ => 0 := by
  unfold Store.new blockNew at h
  split at h
  · cases h
  · rename_i bks hbks
    split at hbks
    · cases hbks
    · obtain rfl := Option.some.inj hbks
      obtain rfl := Except.ok.inj h
      exact ⟨rfl, rfl, fun _ => rfl⟩

/-- An inode read from blocks of zeros is that of no object. -/
theorem tabOfPages_zero {pages : Nat → Page 512} (h : ∀ i, i < 8 → pages i = fun _ => 0)
    {id : Nat} (hid : id < 64) : Agrees (tabOfPages pages id) ⟨0, 0, []⟩ := by
  have hword : ∀ w, w < 16 →
      wordAt (fun n => (pages (n / 512)).get (n % 512)) (id * 64 + 4 * w) = 0 := by
    intro w hw
    have hget : ∀ n, Page.get (fun _ => 0 : Page 512) n = 0 := fun n => by
      unfold Page.get
      split <;> rfl
    rw [Store.tabOfPages_congr pages (fun _ _ => 0) h hid hw]
    unfold wordAt
    simp only [hget]
    rfl
  exact ⟨hword 0 (by omega), hword 1 (by omega), fun i b hb => by simp at hb⟩

/-- The metadata that `fs_format` makes. -/
theorem formatted_metadata (st : Store) :
    st.formatted.blkBmap = (List.range 10).foldl bmapSet st.blkBmap ∧
      st.formatted.inodeBmap = bmapSet (bmapSet st.inodeBmap 0) 1 ∧
      st.formatted.inodeTab = Function.update st.inodeTab 1 (fsiInodeInit 1) ∧
      st.formatted.blocks.allocated = st.blocks.allocated := by
  rw [formatted_eq]
  exact ⟨rfl, rfl, rfl, (Store.sameFields_writeRange ..).2.2.2.2⟩

/-- What `fs_format` writes is in the allocated bytes, if what `fsi_load_fsdata` reads is. -/
theorem formatted_has {numBlocks : Nat} (hn : 10 ≤ numBlocks) {st : Store}
    (hcount : st.blocks.numBlocks = numBlocks)
    (halloc : st.blocks.allocated = numBlocks * 512 % 2 ^ 32)
    (hload : ∀ b, b < 10 → Blocks.address 512 b + 512 ≤ st.blocks.allocated) {st' : Store}
    (hblocks : st'.blocks = st.formatted.blocks) (hwild : st'.storeBlocks.blocks.wild = false) :
    st.formatted.blocks.numBlocks = numBlocks ∧ st.formatted.blocks.wild = false ∧
      ∀ b, b < 10 ∨ b < (asInt numBlocks).toNat → st.formatted.blocks.Has b := by
  obtain ⟨hlimit, hlimit'⟩ := asInt_toNat_le numBlocks
  -- no write of the metadata, and before it none of the zeros, has left the allocated bytes
  have hformat := formatted_eq st
  generalize hst : st.writeRange 0 (fun _ _ => 0) (asInt st.blocks.numBlocks).toNat = st₂
    at hformat
  have hsame₂ : Store.SameFields st st₂ := by
    rw [← hst]
    exact Store.sameFields_writeRange _ _ _ _
  have hcount₂ : st₂.blocks.numBlocks = numBlocks := hsame₂.2.2.2.1.trans hcount
  have halloc₂ : st₂.blocks.allocated = numBlocks * 512 % 2 ^ 32 := hsame₂.2.2.2.2.trans halloc
  have hwild₂ : st₂.blocks.wild = false := by
    rw [hformat] at hblocks
    have hcount' : st'.blocks.numBlocks = numBlocks := hblocks ▸ hcount₂
    rw [Store.storeBlocks_eq] at hwild
    have h₁ := (Store.writeRange_inside hwild (by
      rw [(Store.sameFields_writeBlock _ _ _).2.2.2.1, (Store.sameFields_writeBlock _ _ _).2.2.2.1]
      omega)).1
    have h₂ := (Store.writeBlock_wild h₁ (by
      rw [(Store.sameFields_writeBlock _ _ _).2.2.2.1]
      omega)).1
    have h₃ := (Store.writeBlock_wild h₂ (by omega)).1
    rwa [hblocks] at h₃
  have hinside := (Store.writeRange_inside (hst ▸ hwild₂) (by rw [hcount]; omega)).2
  rw [hcount] at hinside
  rw [hformat]
  refine ⟨hcount₂, hwild₂, fun b hb => ?_⟩
  have haddr : Blocks.address 512 b + 512 ≤ numBlocks * 512 % 2 ^ 32 := by
    rw [← halloc]
    exact hb.elim (hload b) (hinside b)
  have hsmall : b * 512 + 512 ≤ 2 ^ 32 := by
    rcases hb with hb | hb
    · omega
    · -- otherwise some block would end where the 32 bits do
      by_contra hbig
      have hlast := hinside (2 ^ 23 - 1) (by omega)
      rw [halloc] at hlast
      unfold Blocks.address at hlast
      omega
  unfold Blocks.address at haddr
  refine ⟨?_, ?_, ?_⟩
  · change b < st₂.blocks.numBlocks
    omega
  · change b * 512 + 512 ≤ st₂.blocks.allocated
    rw [halloc₂]
    omega
  · change st₂.blocks.allocated < 2 ^ 32
    rw [halloc₂]
    omega

theorem fresh_formatted {numBlocks : Nat} {st : Store} (hn : 10 ≤ numBlocks)
    (h : Store.fresh numBlocks = .ok st) :
    ∃ st₀, Formatted numBlocks st₀ ∧ st = st₀.storeBlocks := by
  unfold Store.fresh at h
  obtain ⟨st₀, hnew, h⟩ := except_bind_ok h
  obtain ⟨st₁, hload, h⟩ := except_bind_ok h
  obtain ⟨hcount, halloc, hzero⟩ := new_ok hnew
  have hloaded := Store.loadFsdata_loaded st₀ (by omega)
  generalize st₀.loadFsdata = st₁' at hload hloaded
  obtain ⟨rfl, hwild₁⟩ := checked_ok hload
  obtain ⟨hfinal, hwild⟩ := checked_ok h
  have hcount₁ : st₁.blocks.numBlocks = numBlocks := by rw [hloaded.same, hcount]
  have halloc₁ : st₁.blocks.allocated = numBlocks * 512 % 2 ^ 32 := by rw [hloaded.same, halloc]
  obtain ⟨hcount₂, hwild₂, hhas⟩ := formatted_has hn hcount₁ halloc₁ (fun b hb => by
    rw [halloc₁, ← halloc]
    exact (hloaded.wild.mp hwild₁).2 b hb) rfl hwild
  obtain ⟨hbbm, hibm, htab₂, -⟩ := formatted_metadata st₁
  obtain ⟨pages, htab, hpages⟩ := hloaded.inodeTab
  have hempty : ∀ i, i < 8 → pages i = fun _ => 0 := fun i hi => (hpages i hi).trans (hzero _)
  refine ⟨st₁.formatted, ⟨hcount₂, hwild₂, hhas, ?_, ?_, ?_, ?_⟩, hfinal⟩
  · rw [hbbm, hloaded.blkBmap, hzero]
  · rw [hibm, hloaded.inodeBmap, hzero]
  · rw [htab₂, Function.update_of_ne (by omega), htab]
    exact tabOfPages_zero hempty (by omega)
  · rw [htab₂, Function.update_self]
    exact ⟨rfl, rfl, fun i b hb => by simp at hb⟩

/-! ### The view of a new file system -/

/-- Setting the first bits. -/
theorem bmapIsset_foldl (bmap : Page 512) {n : Nat} (hn : n ≤ 4096) (num : Nat) :
    bmapIsset ((List.range n).foldl bmapSet bmap) num =
      (decide (num < n) || bmapIsset bmap num) := by
  induction n with
  | zero => rfl
  | succ n ih =>
      rw [List.range_succ, List.foldl_append]
      change bmapIsset (bmapSet _ n) num = _
      rw [bmapIsset_bmapSet (by omega), ih (by omega), ← Bool.or_assoc, ← Bool.decide_or]
      congr 2
      exact propext (by omega)

theorem bmapIsset_range {n : Nat} (hn : n ≤ 4096) (num : Nat) :
    bmapIsset ((List.range n).foldl bmapSet fun _ => 0) num = decide (num < n) := by
  rw [bmapIsset_foldl _ hn, bmapIsset_zero, Bool.or_false]

theorem bmapIsset_first (num : Nat) :
    bmapIsset (bmapSet (bmapSet (fun _ => 0) 0) 1) num = decide (num ≤ 1) := by
  rw [bmapIsset_bmapSet (by omega), bmapIsset_bmapSet (by omega), bmapIsset_zero, Bool.or_false,
    ← Bool.decide_or, decide_eq_decide]
  omega

/-- What is seen of a new file system. -/
def View.fresh (st : Store) : View where
  numBlocks := st.blocks.numBlocks
  inodeBmap := st.inodeBmap
  blkBmap := st.blkBmap
  known id := id ≤ 1
  ino := Function.update (fun _ => ⟨0, 0, []⟩) 1 ⟨1, 0, []⟩
  tab := Function.update (fun _ => ⟨0, 0, []⟩) 1 ⟨1, 0, []⟩
  data := st.blocks.page
  dirOf _ := none
  ptr _ := none
  stored := false
  strtokRest := []

section

variable {numBlocks : Nat} {st : Store}

theorem fresh_plainRel (h : Formatted numBlocks st) :
    PlainRel ⟨st.storeBlocks, []⟩ (View.fresh st.storeBlocks) := by
  have hst := Store.storeBlocks_stored st fun b hb => h.has b (Or.inl hb)
  generalize st.storeBlocks = st' at hst ⊢
  have hcount := hst.same.2.2.2.1.trans h.count
  have htab := hst.same.2.2.1
  refine ⟨rfl, hst.wild.trans h.wild, fun b hb => ?_, rfl, rfl, rfl, fun id hid => ?_,
    fun id hid => ?_, nofun, fun b hb => ⟨?_, rfl⟩⟩
  · exact (hst.same.has b).mpr (h.has b (Or.inl hb))
  · change id ≤ 1 at hid
    omega
  · change id ≤ 1 at hid
    change Agrees (st'.inodeTab id) _
    rw [htab]
    rcases (show id = 0 ∨ id = 1 by omega) with rfl | rfl
    · exact h.zero
    · exact h.root
  · refine (hst.same.has b).mpr (h.has b (Or.inr ?_))
    have hlt := hb.2
    unfold View.limit at hlt
    rw [show (View.fresh st').numBlocks = numBlocks from hcount] at hlt
    exact hlt

/-- With the first inodes and the first blocks marked the view is an empty tree. -/
theorem first_rep (left : List UInt8) (hibm : ∀ id, bmapIsset st.inodeBmap id = decide (id ≤ 1))
    (hbbm : ∀ b, bmapIsset st.blkBmap b = decide (b < 10)) :
    Rep { View.fresh st with strtokRest := left }
      (Tree.init (freeCount st.blkBmap (View.fresh st).limit)) := by
  have hino : (View.fresh st).ino = Function.update (fun _ => ⟨0, 0, []⟩) 1 ⟨1, 0, []⟩ := rfl
  have hblks : ∀ id, ((View.fresh st).ino id).blks = [] := by
    intro id
    rw [hino]
    by_cases hid : id = 1
    · rw [hid, Function.update_self]
    · rw [Function.update_of_ne hid]
  have hnone : ∀ id b, b ∉ ((View.fresh st).ino id).blks := fun id b => by
    rw [hblks]
    exact List.not_mem_nil
  refine ⟨⟨by simp [Tree.init], ?_, ?_, ?_, ?_, ?_, ?_⟩, ⟨⟨[], rfl⟩, by simp [Tree.init],
    rfl, ?_, ?_, ?_⟩, fun _ => Iff.rfl, ?_, rfl, ?_, rfl⟩
  · intro id _
    change ((View.fresh st).ino id).blks.length ≤ 10
    rw [hblks]
    exact Nat.zero_le _
  · exact fun id b _ hb => absurd hb (hnone id b)
  · exact fun id _ i _ b _ _ hb _ => absurd (List.mem_of_getElem? hb) (hnone id b)
  · exact fun b hb => (hbbm b).trans (decide_eq_true hb)
  · exact nofun
  · exact fun _ b hb => Or.inl (of_decide_eq_true ((hbbm b).symm.trans hb))
  · intro n hnode e he
    obtain rfl := List.mem_singleton.mp hnode
    cases he
  · intro n hnode e he
    obtain rfl := List.mem_singleton.mp hnode
    cases he
  · intro n hnode bytes hbytes
    obtain rfl := List.mem_singleton.mp hnode
    cases hbytes
  · exact hibm
  · intro id n hnode
    obtain ⟨hpos, hle, hget, -⟩ := Tree.node_some hnode
    obtain rfl : id = 1 := Nat.le_antisymm hle hpos
    obtain rfl : Node.dir [] = n := Option.some.inj hget
    have hroot : (View.fresh st).ino 1 = ⟨1, 0, []⟩ := by rw [hino, Function.update_self]
    refine ⟨congrArg AInode.itype hroot, congrArg AInode.size hroot,
      congrArg (fun n : AInode => n.blks.length) hroot, fun j e he => ?_⟩
    simp at he

/-- The new file system is an empty tree. -/
theorem fresh_rep (h : Formatted numBlocks st) :
    Rep (View.fresh st.storeBlocks) (Tree.init
      (freeCount (View.fresh st.storeBlocks).blkBmap (View.fresh st.storeBlocks).limit)) := by
  have hst := Store.storeBlocks_stored st fun b hb => h.has b (Or.inl hb)
  generalize st.storeBlocks = st' at hst ⊢
  refine first_rep [] (fun id => ?_) fun b => ?_
  · rw [hst.same.1.trans h.inodeBmap, bmapIsset_first]
  · rw [hst.same.2.1.trans h.blkBmap, bmapIsset_range (by omega)]

end

end Sthreads.Snfs
