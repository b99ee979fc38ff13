/-
What the functions of the file system can rely on.

A view is what the code above the caches sees: one inode for each number, one page for
each block, and pointers that point to inodes.  `spec` says for each operation when it
may be used and what it does to the view.  The operations of the cached file system and
of the one without caches both meet it, and the functions are verified against it.

An inode is seen up to the blocks it does not use.  `ino` is what the code has made of
it, `tab` what it has told the cache of with `ic_dirty`; between calls the two agree,
and an edit that a failed call leaves behind can be forgotten.  A block belongs to the
directory whose pages were first read from it, if any, and is used through one of the
two page caches only.
-/
import Sthreads.Snfs.Cached

namespace Sthreads.Snfs

/-- What is seen of an inode. -/
structure AInode where
  itype : Nat
  size : Nat
  blks : List Nat

/-- The inode is seen so. -/
def Agrees (n : Inode) (a : AInode) : Prop :=
  n.itype = a.itype ∧ n.size = a.size ∧ ∀ i b, a.blks[i]? = some b → n.blocks i = b

/-- Less is seen of an inode. -/
def AInode.le (a b : AInode) : Prop :=
  a.itype = b.itype ∧ a.size = b.size ∧ a.blks <+: b.blks

theorem AInode.le_refl (a : AInode) : a.le a := ⟨rfl, rfl, List.prefix_refl _⟩

theorem Agrees.mono {n : Inode} {a b : AInode} (h : Agrees n b) (hle : a.le b) : Agrees n a := by
  refine ⟨h.1.trans hle.1.symm, h.2.1.trans hle.2.1.symm, fun i x hx => h.2.2 i x ?_⟩
  obtain ⟨t, ht⟩ := hle.2.2
  rw [← ht, List.getElem?_append_left (List.getElem?_eq_some_iff.mp hx).1]
  exact hx

/-- A block is added to the inode. -/
theorem Agrees.append_block {n : Inode} {a : AInode} (h : Agrees n a) {i : Nat}
    (hi : i = a.blks.length) (b : Nat) :
    Agrees { n with blocks := Function.update n.blocks i b } { a with blks := a.blks ++ [b] } := by
  refine ⟨h.1, h.2.1, fun j x hj => ?_⟩
  dsimp only at hj ⊢
  rcases Nat.lt_trichotomy j i with hji | hji | hji
  · rw [Function.update_of_ne (by omega)]
    rw [List.getElem?_append_left (by omega)] at hj
    exact h.2.2 j x hj
  · rw [hji, Function.update_self]
    rw [hji, hi, List.getElem?_concat_length, Option.some.injEq] at hj
    exact hj
  · rw [List.getElem?_eq_none (by simp; omega)] at hj
    cases hj

/-- What the code above the caches sees. -/
structure View where
  numBlocks : Nat
  inodeBmap : Page 512
  blkBmap : Page 512
  /-- The inodes that are in the table. -/
  known : Nat → Prop
  ino : Nat → AInode
  tab : Nat → AInode
  data : Nat → Page 512
  /-- The directory that a block belongs to. -/
  dirOf : Nat → Option Nat
  /-- The inode that a pointer points to. -/
  ptr : Nat → Option Nat
  /-- The last operation was `fsi_store_fsdata`. -/
  stored : Bool
  strtokRest : List UInt8

namespace View

/-- The number of blocks that `fsi_bmap_find_free` looks at. -/
def limit (A : View) : Nat := (asInt A.numBlocks).toNat

/-- A block that can hold data. -/
def DataBlock (A : View) (b : Nat) : Prop := 10 ≤ b ∧ b < A.limit

def setPtr (A : View) (p id : Nat) : View :=
  { A with ptr := Function.update A.ptr p (some id), stored := false }

def setIno (A : View) (id : Nat) (a : AInode) : View :=
  { A with ino := Function.update A.ino id a, stored := false }

def sync (A : View) (id : Nat) : View :=
  { A with tab := Function.update A.tab id (A.ino id), stored := false }

def setData (A : View) (b : Nat) (page : Page 512) : View :=
  { A with data := Function.update A.data b page, stored := false }

/-- The block is used as a page of a directory. -/
def claim (A : View) (dir b : Nat) : View :=
  { A with dirOf := Function.update A.dirOf b (some dir), stored := false }

def touch (A : View) : View := { A with stored := false }

def addInode (A : View) (id itype : Nat) : View :=
  { A with
    known := fun i => A.known i ∨ i = id
    ino := Function.update A.ino id ⟨itype, 0, []⟩
    tab := Function.update A.tab id ⟨itype, 0, []⟩
    stored := false }

/-- A block is marked and added to an inode. -/
def alloc (A : View) (id b : Nat) : View :=
  { A with
    ino := Function.update A.ino id { A.ino id with blks := (A.ino id).blks ++ [b] }
    blkBmap := bmapSet A.blkBmap b
    stored := false }

/-- Blocks are marked and added to an inode one after the other. -/
def allocs (A : View) (id : Nat) (bs : List Nat) : View := bs.foldl (fun A b => A.alloc id b) A

/-- The pages are others. -/
def withData (A : View) (data : Nat → Page 512) (stored : Bool) : View :=
  { A with data := data, stored := stored }

/-- Edits that were not made known to the cache are forgotten. -/
def forget (A : View) : View := { A with ino := A.tab }

/-- The edits that were not made known to the cache only add blocks. -/
def Forgettable (A : View) : Prop := ∀ id, (A.tab id).le (A.ino id)

end View

/-- When an operation may be used, and what it does. -/
def spec : Prog.Spec FsOp FsOp.Res View
  | .icGet id, Q, A => A.ino = A.tab ∧ A.known id ∧
      ∀ p, (∀ q, A.ptr q = some id → p = q) → Q p (A.setPtr p id)
  | .inode p, Q, A => ∃ id, A.ptr p = some id ∧ ∀ n, Agrees n (A.ino id) → Q n A
  | .setSize p n, Q, A => ∃ id, A.ptr p = some id ∧
      Q () (A.setIno id { A.ino id with size := n })
  | .setBlock p i b, Q, A => ∃ id, A.ptr p = some id ∧ i = (A.ino id).blks.length ∧
      Q () (A.setIno id { A.ino id with blks := (A.ino id).blks ++ [b] })
  | .icDirty id, Q, A => (∃ p, A.ptr p = some id) ∧ Q () (A.sync id)
  | .icInvalidate _, Q, A => A.ino = A.tab ∧
      Q () { A with ptr := fun _ => none, stored := false }
  | .bcRead b _, Q, A => A.DataBlock b ∧ A.dirOf b = none ∧ Q (A.data b) A.touch
  | .bcWrite b buf, Q, A => A.DataBlock b ∧ A.dirOf b = none ∧ Q () (A.setData b buf)
  | .dcRead dir b _, Q, A => A.DataBlock b ∧ (A.dirOf b = none ∨ A.dirOf b = some dir) ∧
      Q (A.data b) (A.claim dir b)
  | .dcWrite dir b page, Q, A => A.DataBlock b ∧ (A.dirOf b = none ∨ A.dirOf b = some dir) ∧
      Q () ((A.claim dir b).setData b page)
  | .inodeBmap, Q, A => Q A.inodeBmap A
  | .blkBmap, Q, A => Q A.blkBmap A
  | .setInodeBmap num, Q, A => Q () { A with inodeBmap := bmapSet A.inodeBmap num, stored := false }
  | .setBlkBmap num, Q, A => Q () { A with blkBmap := bmapSet A.blkBmap num, stored := false }
  | .blockNumBlocks, Q, A => Q A.numBlocks A
  | .inodeInit id itype, Q, A => ¬ A.known id ∧ id < 64 ∧ Q () (A.addInode id itype)
  | .storeFsdata, Q, A => A.ino = A.tab ∧ Q () { A with stored := true }
  | .strtok s, Q, A =>
      let (token, rest) := strtok (s.getD A.strtokRest)
      Q token { A with strtokRest := rest }

theorem spec_mono : spec.Mono := by
  intro o Q Q' hQ A h
  cases o with
  | icGet id => exact ⟨h.1, h.2.1, fun p hp => hQ _ _ (h.2.2 p hp)⟩
  | inode p =>
      obtain ⟨id, hp, h⟩ := h
      exact ⟨id, hp, fun n hn => hQ _ _ (h n hn)⟩
  | setSize p n =>
      obtain ⟨id, hp, h⟩ := h
      exact ⟨id, hp, hQ _ _ h⟩
  | setBlock p i b =>
      obtain ⟨id, hp, hi, h⟩ := h
      exact ⟨id, hp, hi, hQ _ _ h⟩
  | icDirty id => exact ⟨h.1, hQ _ _ h.2⟩
  | icInvalidate id => exact ⟨h.1, hQ _ _ h.2⟩
  | bcRead b buf => exact ⟨h.1, h.2.1, hQ _ _ h.2.2⟩
  | bcWrite b buf => exact ⟨h.1, h.2.1, hQ _ _ h.2.2⟩
  | dcRead dir b page => exact ⟨h.1, h.2.1, hQ _ _ h.2.2⟩
  | dcWrite dir b page => exact ⟨h.1, h.2.1, hQ _ _ h.2.2⟩
  | inodeBmap => exact hQ _ _ h
  | blkBmap => exact hQ _ _ h
  | setInodeBmap num => exact hQ _ _ h
  | setBlkBmap num => exact hQ _ _ h
  | blockNumBlocks => exact hQ _ _ h
  | inodeInit id itype => exact ⟨h.1, h.2.1, hQ _ _ h.2.2⟩
  | storeFsdata => exact ⟨h.1, hQ _ _ h.2⟩
  | strtok s => exact hQ _ _ h

/-- No operation changes the number of blocks. -/
theorem spec_numBlocks {o : FsOp} {Q : o.Res → View → Prop} {A : View} (h : spec o Q A) :
    spec o (fun r A' => Q r A' ∧ A'.numBlocks = A.numBlocks) A := by
  cases o with
  | icGet id => exact ⟨h.1, h.2.1, fun p hp => ⟨h.2.2 p hp, rfl⟩⟩
  | inode p =>
      obtain ⟨id, hp, h⟩ := h
      exact ⟨id, hp, fun n hn => ⟨h n hn, rfl⟩⟩
  | setSize p n =>
      obtain ⟨id, hp, h⟩ := h
      exact ⟨id, hp, h, rfl⟩
  | setBlock p i b =>
      obtain ⟨id, hp, hi, h⟩ := h
      exact ⟨id, hp, hi, h, rfl⟩
  | icDirty id => exact ⟨h.1, h.2, rfl⟩
  | icInvalidate id => exact ⟨h.1, h.2, rfl⟩
  | bcRead b buf => exact ⟨h.1, h.2.1, h.2.2, rfl⟩
  | bcWrite b buf => exact ⟨h.1, h.2.1, h.2.2, rfl⟩
  | dcRead dir b page => exact ⟨h.1, h.2.1, h.2.2, rfl⟩
  | dcWrite dir b page => exact ⟨h.1, h.2.1, h.2.2, rfl⟩
  | inodeBmap => exact ⟨h, rfl⟩
  | blkBmap => exact ⟨h, rfl⟩
  | setInodeBmap num => exact ⟨h, rfl⟩
  | setBlkBmap num => exact ⟨h, rfl⟩
  | blockNumBlocks => exact ⟨h, rfl⟩
  | inodeInit id itype => exact ⟨h.1, h.2.1, h.2.2, rfl⟩
  | storeFsdata => exact ⟨h.1, h.2, rfl⟩
  | strtok s => exact ⟨h, rfl⟩

theorem wp_numBlocks {α : Type} {H : Halt → Prop} {n : Nat} (p : FsM α) {Q : α → View → Prop}
    {A : View} (hn : A.numBlocks = n) (h : Prog.wp spec H p Q A) :
    Prog.wp spec H p (fun a A' => Q a A' ∧ A'.numBlocks = n) A := by
  induction p generalizing A with
  | ret a => exact ⟨h, hn⟩
  | halt e => exact h
  | op o k ih =>
      refine spec_mono o _ _ ?_ A (spec_numBlocks h)
      rintro r A' ⟨hk, hnum⟩
      exact ih r (hnum.trans hn) hk

/-! ### One operation -/

section

open Prog

variable {α : Type} {A : View} {H : Halt → Prop} {Q : α → View → Prop} {p id : Nat}

theorem wp_icGet {f : Nat → FsM α} (heq : A.ino = A.tab) (hid : A.known id)
    (h : ∀ p, (∀ q, A.ptr q = some id → p = q) → wp spec H (f p) Q (A.setPtr p id)) :
    wp spec H (icGet id >>= f) Q A := ⟨heq, hid, h⟩

theorem wp_inode {f : Inode → FsM α} (hp : A.ptr p = some id)
    (h : ∀ n, Agrees n (A.ino id) → wp spec H (f n) Q A) :
    wp spec H (inode p >>= f) Q A := ⟨id, hp, h⟩

theorem wp_setSize {n : Nat} {f : Unit → FsM α} (hp : A.ptr p = some id)
    (h : wp spec H (f ()) Q (A.setIno id { A.ino id with size := n })) :
    wp spec H (setSize p n >>= f) Q A := ⟨id, hp, h⟩

/-- A block is added behind those the inode has. -/
theorem wp_setBlock {i b : Nat} {f : Unit → FsM α} (hp : A.ptr p = some id)
    (hi : i = (A.ino id).blks.length) (hlt : i < 10)
    (h : wp spec H (f ()) Q (A.setIno id { A.ino id with blks := (A.ino id).blks ++ [b] })) :
    wp spec H (setBlock p i b >>= f) Q A := by
  rw [setBlock, if_pos hlt]
  exact ⟨id, hp, hi, h⟩

theorem wp_icDirty {f : Unit → FsM α} (hp : A.ptr p = some id)
    (h : wp spec H (f ()) Q (A.sync id)) : wp spec H (icDirty id >>= f) Q A := ⟨⟨p, hp⟩, h⟩

theorem wp_icInvalidate {f : Unit → FsM α} (heq : A.ino = A.tab)
    (h : wp spec H (f ()) Q { A with ptr := fun _ => none, stored := false }) :
    wp spec H (icInvalidate id >>= f) Q A := ⟨heq, h⟩

theorem wp_bcRead {b : Nat} {buf : Page 512} {f : Page 512 → FsM α} (hb : A.DataBlock b)
    (hdir : A.dirOf b = none) (h : wp spec H (f (A.data b)) Q A.touch) :
    wp spec H (bcRead b buf >>= f) Q A := ⟨hb, hdir, h⟩

theorem wp_bcWrite {b : Nat} {buf : Page 512} {f : Unit → FsM α} (hb : A.DataBlock b)
    (hdir : A.dirOf b = none) (h : wp spec H (f ()) Q (A.setData b buf)) :
    wp spec H (bcWrite b buf >>= f) Q A := ⟨hb, hdir, h⟩

theorem wp_dcRead {b : Nat} {page : Page 512} {f : Page 512 → FsM α} (hb : A.DataBlock b)
    (hdir : A.dirOf b = none ∨ A.dirOf b = some id)
    (h : wp spec H (f (A.data b)) Q (A.claim id b)) :
    wp spec H (dcRead id b page >>= f) Q A := ⟨hb, hdir, h⟩

theorem wp_dcWrite {b : Nat} {page : Page 512} {f : Unit → FsM α} (hb : A.DataBlock b)
    (hdir : A.dirOf b = none ∨ A.dirOf b = some id)
    (h : wp spec H (f ()) Q ((A.claim id b).setData b page)) :
    wp spec H (dcWrite id b page >>= f) Q A := ⟨hb, hdir, h⟩

theorem wp_inodeBmap {f : Page 512 → FsM α} (h : wp spec H (f A.inodeBmap) Q A) :
    wp spec H (inodeBmap >>= f) Q A := h

theorem wp_blkBmap {f : Page 512 → FsM α} (h : wp spec H (f A.blkBmap) Q A) :
    wp spec H (blkBmap >>= f) Q A := h

theorem wp_setInodeBmap {num : Nat} {f : Unit → FsM α}
    (h : wp spec H (f ()) Q { A with inodeBmap := bmapSet A.inodeBmap num, stored := false }) :
    wp spec H (setInodeBmap num >>= f) Q A := h

theorem wp_setBlkBmap {num : Nat} {f : Unit → FsM α}
    (h : wp spec H (f ()) Q { A with blkBmap := bmapSet A.blkBmap num, stored := false }) :
    wp spec H (setBlkBmap num >>= f) Q A := h

theorem wp_blockNumBlocks {f : Nat → FsM α} (h : wp spec H (f A.numBlocks) Q A) :
    wp spec H (blockNumBlocks >>= f) Q A := h

theorem wp_inodeInit {itype : Nat} {f : Unit → FsM α} (hnew : ¬ A.known id) (hlt : id < 64)
    (h : wp spec H (f ()) Q (A.addInode id itype)) :
    wp spec H (inodeInit id itype >>= f) Q A := ⟨hnew, hlt, h⟩

theorem wp_storeFsdata {f : Unit → FsM α} (heq : A.ino = A.tab)
    (h : wp spec H (f ()) Q { A with stored := true }) :
    wp spec H (storeFsdata >>= f) Q A := ⟨heq, h⟩

/-- Following a pointer to a block of an inode. -/
theorem wp_blockOf {i b : Nat} {f : Nat → FsM α} (hp : A.ptr p = some id) (hi : i < 10)
    (hb : (A.ino id).blks[i]? = some b) (h : wp spec H (f b) Q A) :
    wp spec H (blockOf p i >>= f) Q A := by
  rw [blockOf, if_pos hi, wp_bind spec_mono]
  refine wp_inode hp fun n hn => ?_
  rw [wp_pure, hn.2.2 i b hb]
  exact h

end

end Sthreads.Snfs
