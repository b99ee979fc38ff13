/-
The inode cache, whatever the blocks hold.

Of every inode number the slots of `icache` and `inode_tab` have the same type, size and
blocks, up to the blocks that the size does not need.  Nothing is relied on but what the
code does to inodes, so this holds in every state that calls lead to, also after
`fs_readdir` has followed a pointer that no longer points to the directory.

A program is verified for what it does to inodes against `seenSpec`.  Where it edits an
inode other than behind the blocks in use, it calls `ic_dirty` before it gets another.
-/
import Sthreads.Snfs.Interface
import Sthreads.Snfs.Contents
import Sthreads.Proofs.Snfs.Format

namespace Sthreads.Snfs

open Cache Prog

/-- The same type, size and blocks, up to the blocks that the size does not need. -/
def Uses (n m : Inode) : Prop :=
  n.itype = m.itype ∧ n.size = m.size ∧ ∀ i, i < offsetToBlocks m.size → n.blocks i = m.blocks i

theorem Uses.refl (n : Inode) : Uses n n := ⟨rfl, rfl, fun _ _ => rfl⟩

theorem Uses.symm {n m : Inode} (h : Uses n m) : Uses m n :=
  ⟨h.1.symm, h.2.1.symm, fun i hi => (h.2.2 i (h.2.1 ▸ hi)).symm⟩

theorem Uses.trans {n m k : Inode} (h : Uses n m) (h' : Uses m k) : Uses n k :=
  ⟨h.1.trans h'.1, h.2.1.trans h'.2.1, fun i hi =>
    (h.2.2 i (h'.2.1 ▸ hi)).trans (h'.2.2 i hi)⟩

/-- What is seen of the inodes. -/
structure Seen where
  ino : Nat → Inode
  /-- The inode that has been edited and that the table has not been told of. -/
  edited : Option Nat
  /-- The inode that a pointer points to. -/
  ptr : Nat → Option Nat

namespace Seen

def setPtr (x : Seen) (p id : Nat) : Seen := { x with ptr := Function.update x.ptr p (some id) }

def edit (x : Seen) (id : Nat) : Seen := { x with edited := some id }

/-- The edited inode is now this, wherever it is looked up. -/
def settle (x : Seen) (id : Nat) (n : Inode) : Seen :=
  { x with ino := Function.update x.ino id n, edited := none }

end Seen

/-- What an operation does to inodes, and when it may be used. -/
def seenSpec : Spec FsOp FsOp.Res Seen
  | .icGet id, Q, x => x.edited = none ∧
      ∀ p, (∀ q, x.ptr q = some id → p = q) → Q p (x.setPtr p id)
  | .inode p, Q, x =>
      ∀ n, (∀ id, x.ptr p = some id → x.edited = none → Uses n (x.ino id)) → Q n x
  | .setSize p _, Q, x => x.edited = none ∧ ∃ id, x.ptr p = some id ∧ Q () (x.edit id)
  | .setBlock p i _, Q, x => x.edited = none ∧
      ∃ id, x.ptr p = some id ∧ offsetToBlocks (x.ino id).size ≤ i ∧ Q () x
  | .icDirty id, Q, x => (x.edited = none ∨ x.edited = some id) ∧
      (∃ p, x.ptr p = some id) ∧ ∀ n, Q () (x.settle id n)
  | .icInvalidate id, Q, x => (x.edited = none ∨ x.edited = some id) ∧
      ∀ n, Q () { x.settle id n with ptr := fun _ => none }
  | .inodeInit id _, Q, x => x.edited = none ∧ Q () (x.edit id)
  | .storeFsdata, Q, x => x.edited = none ∧ Q () x
  | .bcRead .., Q, x => ∀ page, Q page x
  | .dcRead .., Q, x => ∀ page, Q page x
  | .inodeBmap, Q, x => ∀ bmap, Q bmap x
  | .blkBmap, Q, x => ∀ bmap, Q bmap x
  | .blockNumBlocks, Q, x => ∀ n, Q n x
  | .strtok _, Q, x => ∀ token, Q token x
  | .bcWrite .., Q, x => Q () x
  | .dcWrite .., Q, x => Q () x
  | .setInodeBmap _, Q, x => Q () x
  | .setBlkBmap _, Q, x => Q () x

theorem seenSpec_mono : seenSpec.Mono := by
  intro o Q Q' hQ x h
  cases o with
  | icGet id => exact ⟨h.1, fun p hp => hQ _ _ (h.2 p hp)⟩
  | inode p => exact fun n hn => hQ _ _ (h n hn)
  | setSize p n =>
      obtain ⟨he, id, hp, h⟩ := h
      exact ⟨he, id, hp, hQ _ _ h⟩
  | setBlock p i b =>
      obtain ⟨he, id, hp, hi, h⟩ := h
      exact ⟨he, id, hp, hi, hQ _ _ h⟩
  | icDirty id => exact ⟨h.1, h.2.1, fun n => hQ _ _ (h.2.2 n)⟩
  | icInvalidate id => exact ⟨h.1, fun n => hQ _ _ (h.2 n)⟩
  | inodeInit id itype => exact ⟨h.1, hQ _ _ h.2⟩
  | storeFsdata => exact ⟨h.1, hQ _ _ h.2⟩
  | bcRead b buf => exact fun page => hQ _ _ (h page)
  | dcRead dir b page => exact fun page => hQ _ _ (h page)
  | inodeBmap => exact fun bmap => hQ _ _ (h bmap)
  | blkBmap => exact fun bmap => hQ _ _ (h bmap)
  | blockNumBlocks => exact fun n => hQ _ _ (h n)
  | strtok s => exact fun token => hQ _ _ (h token)
  | bcWrite b buf => exact hQ _ _ h
  | dcWrite dir b page => exact hQ _ _ h
  | setInodeBmap num => exact hQ _ _ h
  | setBlkBmap num => exact hQ _ _ h

/-! ### States -/

/-- What is right for an inode number: anything while the inode is edited. -/
def Seen.Right (x : Seen) (id : Nat) (n : Inode) : Prop := x.edited = some id ∨ Uses n (x.ino id)

/-- The inodes of the state are seen so. -/
structure SeenRel (s : Fs) (x : Seen) : Prop where
  slots : Coherent id (fun _ => True) x.Right x.Right s.icache s.inodeTab
  ptr : ∀ p id, x.ptr p = some id →
    ∃ i : Fin 4, i.val = p ∧ (s.icache i).valid = true ∧ (s.icache i).key = id

section

variable {s s' : Fs} {x : Seen}

theorem SeenRel.of_same (h : SeenRel s x) (hc : s'.icache = s.icache)
    (ht : s'.inodeTab = s.inodeTab) : SeenRel s' x :=
  ⟨hc ▸ ht ▸ h.slots, hc ▸ h.ptr⟩

/-- Nothing is done to inodes. -/
def SameInodes (s s' : Fs) : Prop := s'.icache = s.icache ∧ s'.inodeTab = s.inodeTab

theorem bc_keeps (s : Fs) : Keeps Fs.bcBacking (SameInodes s) where
  read _ _ _ h := h
  write _ _ _ h := h
  tick _ h := h
  time _ h := h

theorem sameInodes_bcRead (s : Fs) (b : Nat) : SameInodes s (s.bcRead b).2 :=
  fetch_keeps (bc_keeps s) Fs.writebackInterval b ⟨rfl, rfl⟩

theorem sameInodes_bcWrite (s : Fs) (b : Nat) (buf : Page 512) : SameInodes s (s.bcWrite b buf) :=
  store_keeps (bc_keeps s) Fs.writebackInterval b buf ⟨rfl, rfl⟩

theorem SameInodes.trans {s'' : Fs} (h : SameInodes s s') (h' : SameInodes s' s'') :
    SameInodes s s'' := ⟨h'.1.trans h.1, h'.2.trans h.2⟩

theorem dc_keeps (s : Fs) : Keeps Fs.dcBacking (SameInodes s) where
  read k _ s' h := h.trans (sameInodes_bcRead s' k.2)
  write k v s' h := h.trans (sameInodes_bcWrite s' k.2 v)
  tick _ h := h
  time _ h := h

theorem sameInodes_dcRead (s : Fs) (dir b : Nat) : SameInodes s (s.dcRead dir b).2 :=
  fetch_keeps (dc_keeps s) Fs.writebackInterval (dir, b) ⟨rfl, rfl⟩

theorem sameInodes_dcWrite (s : Fs) (dir b : Nat) (page : Page 512) :
    SameInodes s (s.dcWrite dir b page) :=
  store_keeps (dc_keeps s) Fs.writebackInterval (dir, b) page ⟨rfl, rfl⟩

theorem SeenRel.slots_rep (h : SeenRel s x) :
    Represents id (fun _ => True) (Table s) x.Right x.Right s.inodeTab (s.icache, s) :=
  ⟨s.inodeTab, ⟨⟨rfl, rfl, rfl, rfl, rfl, rfl⟩, rfl⟩, h.slots, fun _ _ => rfl⟩

theorem SeenRel.icGet (h : SeenRel s x) (id : Nat) :
    (∀ q, x.ptr q = some id → (s.icGet id).1 = q) ∧
      SeenRel (s.icGet id).2 (x.setPtr (s.icGet id).1 id) ∧ InodeFrame s (s.icGet id).2 := by
  obtain ⟨⟨tab, ⟨hf, rfl⟩, hc, -⟩, hvalid, hkey, hhit, hother⟩ :=
    represents_fetch (table_spec s fun _ => True) (fun _ _ _ _ h => h) (fun _ _ hn => hn)
      Fs.writebackInterval (k := id) trivial (fun _ hn => hn) h.slots_rep
  refine ⟨fun q hq => ?_, ⟨hc, fun p id' hp => ?_⟩, hf⟩
  · obtain ⟨i, rfl, hv, hk⟩ := h.ptr q id hq
    exact congrArg Fin.val (hhit i hv hk).symm
  · simp only [Seen.setPtr] at hp
    by_cases hpi : p = (s.icGet id).1
    · subst hpi
      rw [Function.update_self, Option.some.injEq] at hp
      subst hp
      exact ⟨_, rfl, hvalid, hkey⟩
    · rw [Function.update_of_ne hpi] at hp
      obtain ⟨i, rfl, hv, hk⟩ := h.ptr p id' hp
      have hi := hother i fun hi => hpi (congrArg Fin.val hi)
      exact ⟨i, rfl, hi.1.trans hv, hi.2.1.trans hk⟩

/-- What a pointer points to. -/
theorem SeenRel.slot (h : SeenRel s x) {p id : Nat} (hp : x.ptr p = some id) :
    (s.icache (Fs.slot p)).valid = true ∧ (s.icache (Fs.slot p)).key = id ∧
      x.Right id (s.icache (Fs.slot p)).data := by
  obtain ⟨i, rfl, hv, hk⟩ := h.ptr p id hp
  have hslot : Fs.slot i.val = i := Fin.ext (Nat.mod_eq_of_lt i.isLt)
  rw [hslot]
  refine ⟨hv, hk, ?_⟩
  rw [← hk]
  exact h.slots.held i hv

/-- The slot of an inode that a pointer points to is found. -/
theorem SeenRel.find_slot (h : SeenRel s x) {p id : Nat} (hp : x.ptr p = some id) :
    Cache.find s.icache id = some (Fs.slot p) := by
  obtain ⟨hv, hk, -⟩ := h.slot hp
  cases hf : Cache.find s.icache id with
  | none => exact absurd hk (find_none hf _ hv)
  | some j =>
      obtain ⟨hvj, hkj⟩ := find_some hf
      rw [h.slots.unique j (Fs.slot p) hvj hv (hkj.trans hk.symm)]

/-- Editing the inode that a pointer points to. -/
theorem SeenRel.setInode (h : SeenRel s x) {p id : Nat} (hp : x.ptr p = some id) {x' : Seen}
    {n : Inode} (hn : x'.Right id n) (hright : ∀ k m, x.Right k m → x'.Right k m)
    (hptr : x'.ptr = x.ptr) : SeenRel (s.setInode p n) x' := by
  obtain ⟨hv, hk, -⟩ := h.slot hp
  refine ⟨?_, fun q id' hq => ?_⟩
  · have hmono := h.slots.mono (fun _ hD => hD) (fun k m _ => hright k m)
      (fun k m _ => hright k m) fun _ hD hnD => absurd hD hnD
    exact hmono.edit x'.Right hv (hk ▸ hn) fun _ _ _ hm => hm
  · rw [hptr] at hq
    obtain ⟨i, hi, hvi, hki⟩ := h.ptr q id' hq
    refine ⟨i, hi, ?_⟩
    simp only [Fs.setInode]
    by_cases hip : i = Fs.slot p
    · subst hip
      rw [Function.update_self]
      exact ⟨hvi, hki⟩
    · rw [Function.update_of_ne hip]
      exact ⟨hvi, hki⟩

/-- What was right for the inodes that have not been edited stays right. -/
theorem Seen.Right.settle {id k : Nat} {n m : Inode}
    (he : x.edited = none ∨ x.edited = some id) (hk : k ≠ id) (h : x.Right k m) :
    (x.settle id n).Right k m := by
  refine Or.inr ?_
  rw [Seen.settle]
  dsimp only
  rw [Function.update_of_ne hk]
  rcases h with h | h
  · rcases he with he | he
    · rw [he] at h
      cases h
    · rw [he, Option.some.injEq] at h
      exact absurd h.symm hk
  · exact h

theorem Seen.right_settle (x : Seen) (id : Nat) (n : Inode) : (x.settle id n).Right id n := by
  refine Or.inr ?_
  rw [Seen.settle]
  dsimp only
  rw [Function.update_self]
  exact Uses.refl n

theorem SeenRel.icDirty (h : SeenRel s x) {p id : Nat} (hp : x.ptr p = some id)
    (he : x.edited = none ∨ x.edited = some id) : ∃ n, SeenRel (s.icDirty id) (x.settle id n) := by
  obtain ⟨hv, hk, -⟩ := h.slot hp
  let n := (s.icache (Fs.slot p)).data
  refine ⟨n, ?_⟩
  have hslots : Coherent (fun i : Nat => i) (fun _ => True) (x.settle id n).Right
      (x.settle id n).Right s.icache (Function.update s.inodeTab id n) := by
    have hheld := h.slots.edit (x.settle id n).Right (d := n) hv
      (hk.symm ▸ x.right_settle id n) fun k m hne hm => hm.settle he (hk ▸ hne)
    have hself : Function.update s.icache (Fs.slot p) { s.icache (Fs.slot p) with data := n } =
        s.icache := Function.update_eq_self ..
    rw [hself] at hheld
    have hsync := hheld.sync (fun _ _ _ _ hkk => hkk) (x.settle id n).Right hv
      (hk.symm ▸ x.right_settle id n) fun k m _ hne hm => hm.settle he (hk ▸ hne)
    rwa [hk] at hsync
  rw [Fs.icDirty, h.find_slot hp]
  dsimp only
  split
  · exact ⟨hslots, h.ptr⟩
  · refine ⟨hslots.mark hv _, fun q id' hq => ?_⟩
    obtain ⟨i, hi, hvi, hki⟩ := h.ptr q id' hq
    refine ⟨i, hi, ?_⟩
    dsimp only [Fs.time]
    by_cases hip : i = Fs.slot p
    · subst hip
      rw [Function.update_self]
      exact ⟨hvi, hki⟩
    · rw [Function.update_of_ne hip]
      exact ⟨hvi, hki⟩

/-- What `ic_invalidate` does to a slot. -/
def invalidateSlot (id : Nat) (p : (Fin 4 → Entry Nat Inode) × Fs) (i : Fin 4) :
    (Fin 4 → Entry Nat Inode) × Fs :=
  if (p.1 i).valid && (p.1 i).key == id then
    let p := Cache.flush Fs.icBacking i p
    (Function.update p.1 i { p.1 i with valid := false }, p.2)
  else p

theorem icInvalidate_eq (s : Fs) (id : Nat) : s.icInvalidate id =
    Fs.withIcache ((List.finRange 4).foldl (invalidateSlot id) (s.icache, s)) := rfl

/-- No slot holds an inode that was invalidated. -/
theorem icInvalidate_none (s : Fs) (id : Nat) (j : Fin 4)
    (hv : ((s.icInvalidate id).icache j).valid = true) :
    ((s.icInvalidate id).icache j).key ≠ id := by
  have hfold : ∀ (l : List (Fin 4)) (p : (Fin 4 → Entry Nat Inode) × Fs),
      (∀ j, j ∉ l → (p.1 j).valid = true → (p.1 j).key ≠ id) →
      ∀ j, ((l.foldl (invalidateSlot id) p).1 j).valid = true →
        ((l.foldl (invalidateSlot id) p).1 j).key ≠ id := by
    intro l
    induction l with
    | nil => exact fun p hp j => hp j List.not_mem_nil
    | cons i l ih =>
        intro p hp
        rw [List.foldl_cons]
        refine ih _ fun j hj => ?_
        unfold invalidateSlot
        by_cases hji : j = i
        · subst hji
          split
          · simp
          · rename_i hno
            intro hv hk
            exact hno (by simp [hv, hk])
        · have hj' : j ∉ i :: l := fun hmem => (List.mem_cons.mp hmem).elim hji hj
          split
          · simp only [Function.update_of_ne hji, flush_other hji]
            exact hp j hj'
          · exact hp j hj'
  exact hfold (List.finRange 4) (s.icache, s) (fun j hj => absurd (List.mem_finRange j) hj) j hv

theorem SeenRel.icInvalidate (h : SeenRel s x) {id : Nat}
    (he : x.edited = none ∨ x.edited = some id) :
    ∃ n, SeenRel (s.icInvalidate id) { x.settle id n with ptr := fun _ => none } := by
  have hrep : Represents (fun i : Nat => i) (fun _ => True) (Table s) x.Right x.Right s.inodeTab
      ((List.finRange 4).foldl (invalidateSlot id) (s.icache, s)) := by
    refine List.foldlRecOn (motive := fun q => Represents (fun i : Nat => i) (fun _ => True)
      (Table s) x.Right x.Right s.inodeTab q) _ _ h.slots_rep ?_
    intro q hq i _
    unfold invalidateSlot
    split
    · obtain ⟨tab, hrel, hc, hout⟩ := represents_flush (table_spec s fun _ => True)
        (fun _ _ _ _ h => h) (fun _ _ hn => hn) i hq
      exact ⟨tab, hrel, hc.drop (flush_clean i q), hout⟩
    · exact hq
  obtain ⟨tab, ⟨-, rfl⟩, hc, -⟩ := hrep
  have hc' : Coherent (fun i : Nat => i) (fun _ => True) x.Right x.Right (s.icInvalidate id).icache
      (s.icInvalidate id).inodeTab := hc
  have hnone := icInvalidate_none s id
  generalize s.icInvalidate id = s' at hc' hnone ⊢
  refine ⟨s'.inodeTab id, ⟨hc'.dom, hc'.unique, fun i hi => ?_, fun k _ hclean => ?_, hc'.idle⟩,
    fun p id' hp => ?_⟩
  · exact (hc'.held i hi).settle he (hnone i hi)
  · by_cases hk : k = id
    · rw [hk]
      exact x.right_settle id _
    · exact (hc'.back k trivial hclean).settle he hk
  · cases hp

theorem SeenRel.inodeInit (h : SeenRel s x) (he : x.edited = none) (id : Nat) (n : Inode) :
    SeenRel { s with inodeTab := Function.update s.inodeTab id n } (x.edit id) := by
  have hright : ∀ k m, x.Right k m → (x.edit id).Right k m := by
    intro k m hm
    rcases hm with hm | hm
    · rw [he] at hm
      cases hm
    · exact Or.inr hm
  refine ⟨⟨h.slots.dom, h.slots.unique, fun i hi => hright _ _ (h.slots.held i hi),
    fun k _ hclean => ?_, h.slots.idle⟩, h.ptr⟩
  by_cases hk : k = id
  · exact Or.inl (congrArg some hk.symm)
  · change (x.edit id).Right k (Function.update s.inodeTab id n k)
    rw [Function.update_of_ne hk]
    exact hright _ _ (h.slots.back k trivial hclean)

theorem storeBlocks_inodeTab (st : Store) : st.storeBlocks.inodeTab = st.inodeTab := by
  rw [Store.storeBlocks]
  exact List.foldlRecOn (motive := fun q : Store => q.inodeTab = st.inodeTab) _ _ rfl
    fun q hq i _ => hq

theorem SeenRel.storeFsdata (h : SeenRel s x) : SeenRel s.storeFsdata x := by
  obtain ⟨⟨tab, ⟨-, rfl⟩, hc, -⟩, hsame⟩ := represents_flushAll (table_spec s fun _ => True)
    (fun _ _ _ _ h => h) (fun _ _ hn => hn) h.slots_rep
  have hic : SeenRel s.icFlushAll x := by
    refine ⟨hc, fun p id hp => ?_⟩
    obtain ⟨i, hi, hv, hk⟩ := h.ptr p id hp
    exact ⟨i, hi, (hsame i).1.trans hv, (hsame i).2.1.trans hk⟩
  obtain ⟨hd1, hd2⟩ : SameInodes s.icFlushAll s.icFlushAll.dcFlushAll :=
    flushAll_keeps (dc_keeps _) ⟨rfl, rfl⟩
  obtain ⟨hb1, hb2⟩ : SameInodes s.icFlushAll.dcFlushAll s.icFlushAll.dcFlushAll.bcFlushAll :=
    flushAll_keeps (bc_keeps _) ⟨rfl, rfl⟩
  exact hic.of_same (hb1.trans hd1) ((storeBlocks_inodeTab _).trans (hb2.trans hd2))

end

/-! ### Soundness -/

theorem exec_of_handler {s s' : Fs} {o : FsOp} {r : o.Res} (h : Fs.handler o s = .ok (r, s')) :
    Fs.exec o s = (r, s') := by
  rw [Fs.handler] at h
  split at h
  · dsimp only at h
    split at h
    · cases h
    · exact Except.ok.inj h
  · cases h

/-- The operations do to inodes what their specifications say, if they return. -/
theorem seen_sound : SoundIfOk Fs.handler seenSpec SeenRel := by
  intro o s x Q r s' h hspec hstep
  have hexec := exec_of_handler hstep
  -- an operation that does nothing to inodes
  have quiet : ∀ {s' : Fs} {r : o.Res}, SameInodes s s' → Q r x → ∃ y, SeenRel s' y ∧ Q r y :=
    fun hsame hq => ⟨x, h.of_same hsame.1 hsame.2, hq⟩
  cases o with
  | icGet id =>
      obtain ⟨rfl, rfl⟩ := Prod.mk.inj hexec
      obtain ⟨hp, h', -⟩ := h.icGet id
      exact ⟨_, h', hspec.2 _ hp⟩
  | inode p =>
      obtain ⟨rfl, rfl⟩ := Prod.mk.inj hexec
      refine ⟨x, h, hspec _ fun id hp he => ?_⟩
      rcases (h.slot hp).2.2 with hr | hr
      · rw [he] at hr
        cases hr
      · exact hr
  | setSize p n =>
      obtain ⟨rfl, rfl⟩ := Prod.mk.inj hexec
      obtain ⟨he, id, hp, hq⟩ := hspec
      refine ⟨x.edit id, h.setInode hp (Or.inl rfl) (fun k m hm => ?_) rfl, hq⟩
      rcases hm with hm | hm
      · rw [he] at hm
        cases hm
      · exact Or.inr hm
  | setBlock p i b =>
      obtain ⟨rfl, rfl⟩ := Prod.mk.inj hexec
      obtain ⟨he, id, hp, hi, hq⟩ := hspec
      refine ⟨x, h.setInode hp ?_ (fun _ _ hm => hm) rfl, hq⟩
      rcases (h.slot hp).2.2 with hr | ⟨h1, h2, h3⟩
      · exact Or.inl hr
      · refine Or.inr ⟨h1, h2, fun j hj => ?_⟩
        rw [← h3 j hj]
        exact Function.update_of_ne (by omega) _ _
  | icDirty id =>
      obtain ⟨rfl, rfl⟩ := Prod.mk.inj hexec
      obtain ⟨he, ⟨p, hp⟩, hq⟩ := hspec
      obtain ⟨n, h'⟩ := h.icDirty hp he
      exact ⟨_, h', hq n⟩
  | icInvalidate id =>
      obtain ⟨rfl, rfl⟩ := Prod.mk.inj hexec
      obtain ⟨n, h'⟩ := h.icInvalidate hspec.1
      exact ⟨_, h', hspec.2 n⟩
  | inodeInit id itype =>
      obtain ⟨rfl, rfl⟩ := Prod.mk.inj hexec
      exact ⟨_, h.inodeInit hspec.1 id _, hspec.2⟩
  | storeFsdata =>
      obtain ⟨rfl, rfl⟩ := Prod.mk.inj hexec
      exact ⟨x, h.storeFsdata, hspec.2⟩
  | bcRead b buf =>
      obtain ⟨rfl, rfl⟩ := Prod.mk.inj hexec
      exact quiet (sameInodes_bcRead s b) (hspec _)
  | bcWrite b buf =>
      obtain ⟨rfl, rfl⟩ := Prod.mk.inj hexec
      exact quiet (sameInodes_bcWrite s b buf) hspec
  | dcRead dir b page =>
      obtain ⟨rfl, rfl⟩ := Prod.mk.inj hexec
      exact quiet (sameInodes_dcRead s dir b) (hspec _)
  | dcWrite dir b page =>
      obtain ⟨rfl, rfl⟩ := Prod.mk.inj hexec
      exact quiet (sameInodes_dcWrite s dir b page) hspec
  | inodeBmap =>
      obtain ⟨rfl, rfl⟩ := Prod.mk.inj hexec
      exact ⟨x, h, hspec _⟩
  | blkBmap =>
      obtain ⟨rfl, rfl⟩ := Prod.mk.inj hexec
      exact ⟨x, h, hspec _⟩
  | setInodeBmap num =>
      obtain ⟨rfl, rfl⟩ := Prod.mk.inj hexec
      exact quiet ⟨rfl, rfl⟩ hspec
  | setBlkBmap num =>
      obtain ⟨rfl, rfl⟩ := Prod.mk.inj hexec
      exact quiet ⟨rfl, rfl⟩ hspec
  | blockNumBlocks =>
      obtain ⟨rfl, rfl⟩ := Prod.mk.inj hexec
      exact ⟨x, h, hspec _⟩
  | strtok str =>
      obtain ⟨rfl, rfl⟩ := Prod.mk.inj hexec
      exact quiet ⟨rfl, rfl⟩ (hspec _)

/-! ### Programs -/

/-- An operation that leaves inodes and pointers alone. -/
def Quiet : FsOp → Prop
  | .icGet _ | .setSize .. | .setBlock .. | .icDirty _ | .icInvalidate _ | .inodeInit .. |
    .storeFsdata => False
  | _ => True

/-- An operation that gets inodes and edits none. -/
def Getting : FsOp → Prop
  | .icGet _ => True
  | o => Quiet o

section

variable {α : Type} {x : Seen}

theorem seen_quiet {p : FsM α} (hp : Only Quiet p) {Q : α → Seen → Prop} (hq : ∀ a, Q a x) :
    wp seenSpec (fun _ => True) p Q x := by
  induction p with
  | ret a => exact hq a
  | halt e => trivial
  | op o k ih =>
      obtain ⟨ho, hk⟩ := hp
      have hrest := fun r => ih r (hk r)
      cases o with
      | inode p => exact fun n _ => hrest n
      | bcRead b buf => exact hrest
      | dcRead dir b page => exact hrest
      | inodeBmap => exact hrest
      | blkBmap => exact hrest
      | blockNumBlocks => exact hrest
      | strtok s => exact hrest
      | bcWrite b buf => exact hrest ()
      | dcWrite dir b page => exact hrest ()
      | setInodeBmap num => exact hrest ()
      | setBlkBmap num => exact hrest ()
      | _ => exact ho.elim

theorem seen_getting {p : FsM α} (hp : Only Getting p) (he : x.edited = none) :
    wp seenSpec (fun _ => True) p (fun _ y => y.edited = none) x := by
  induction p generalizing x with
  | ret a => exact he
  | halt e => trivial
  | op o k ih =>
      obtain ⟨ho, hk⟩ := hp
      have hrest := fun r => @ih r x (hk r) he
      cases o with
      | icGet id => exact ⟨he, fun p _ => ih p (hk p) he⟩
      | inode p => exact fun n _ => hrest n
      | bcRead b buf => exact hrest
      | dcRead dir b page => exact hrest
      | inodeBmap => exact hrest
      | blkBmap => exact hrest
      | blockNumBlocks => exact hrest
      | strtok s => exact hrest
      | bcWrite b buf => exact hrest ()
      | dcWrite dir b page => exact hrest ()
      | setInodeBmap num => exact hrest ()
      | setBlkBmap num => exact hrest ()
      | _ => exact ho.elim

end

theorem Quiet.getting (o : FsOp) (h : Quiet o) : Getting o := by
  cases o <;> trivial

theorem quiet_blockOf (p i : Nat) : Only Quiet (blockOf p i) := by
  rw [blockOf]
  split
  · exact only_op trivial fun _ => trivial
  · trivial

theorem quiet_searchPages (idir dir : Nat) (file : List UInt8) :
    ∀ (left num iblock : Nat) (page : Page 512),
      Only Quiet (searchPages idir dir file left num iblock page) := by
  intro left
  induction left with
  | zero =>
      intro num iblock page
      rw [searchPages]
      split <;> trivial
  | succ left ih =>
      intro num iblock page
      rw [searchPages]
      split
      · refine only_bind (fun b => only_op trivial fun page => ?_) (quiet_blockOf idir iblock)
        split
        · trivial
        · exact ih ..
      · trivial

theorem getting_dirSearch (junk : Page 512) (dir : Nat) (file : List UInt8) :
    Only Getting (fsiDirSearch junk dir file) :=
  only_op trivial fun p => only_op trivial fun _ =>
    (quiet_searchPages p dir file _ _ _ _).mono Quiet.getting

theorem getting_getAttrs (file : Nat) : Only Getting (fsGetAttrs file) := by
  rw [fsGetAttrs]
  split
  · trivial
  · refine only_op trivial fun bmap => ?_
    split
    · trivial
    · refine only_op trivial fun p => only_op trivial fun n => ?_
      split
      · trivial
      · split <;> trivial

theorem getting_lookupTokens (junk : Page 512) :
    ∀ (left : Nat) (token : Option (List UInt8)) (dir : Nat) (fileid : Option Nat),
      Only Getting (lookupTokens junk left token dir fileid) := by
  intro left
  induction left with
  | zero =>
      intro token dir fileid
      cases token with
      | none => trivial
      | some w => trivial
  | succ left ih =>
      intro token dir fileid
      cases token with
      | none => trivial
      | some w =>
          rw [lookupTokens]
          refine only_op trivial fun bmap => ?_
          split
          · trivial
          · refine only_op trivial fun p => only_op trivial fun n => ?_
            split
            · trivial
            · refine only_bind (fun found => ?_) (getting_dirSearch junk dir w)
              split
              · trivial
              · exact only_op trivial fun token => ih ..

theorem getting_lookup (junk : Page 512) (file : CStr) : Only Getting (fsLookup junk file) := by
  rw [fsLookup]
  split
  · trivial
  · split
    · trivial
    · exact only_op trivial fun token => getting_lookupTokens ..

theorem quiet_readBlocks (ifile offset max : Nat) :
    ∀ (left iblock pos : Nat) (block : Page 512) (buffer : List UInt8),
      Only Quiet (readBlocks ifile offset max left iblock pos block buffer) := by
  intro left
  induction left with
  | zero => exact fun _ _ _ _ => trivial
  | succ left ih =>
      intro iblock pos block buffer
      rw [readBlocks]
      split
      · exact only_bind (fun b => only_op trivial fun block => ih ..) (quiet_blockOf ifile iblock)
      · trivial

theorem getting_read (junk : Page 512) (file offset count : Nat) :
    Only Getting (fsRead junk file offset count) := by
  rw [fsRead]
  split
  · trivial
  · refine only_op trivial fun bmap => ?_
    split
    · trivial
    · refine only_op trivial fun p => only_op trivial fun n => ?_
      split
      · trivial
      · split
        · trivial
        · exact only_bind (fun _ => only_pure)
            ((quiet_readBlocks p offset _ _ _ _ _ _).mono Quiet.getting)

/-- The operations of a listing: of the blocks, it reads those that it takes for the directory's. -/
def Lists (dir : Nat) : FsOp → Prop
  | .icGet _ | .inode _ | .inodeBmap => True
  | .dcRead dirid _ _ => dirid = dir
  | _ => False

theorem Lists.getting {dir : Nat} (o : FsOp) (h : Lists dir o) : Getting o := by
  cases o <;> trivial

theorem lists_blockOf (dir p i : Nat) : Only (Lists dir) (blockOf p i) := by
  rw [blockOf]
  split
  · exact only_op trivial fun _ => trivial
  · trivial

theorem lists_listPage (dir : Nat) (page : Page 512) :
    ∀ (left i : Nat), Only (Lists dir) (listPage page left i) := by
  intro left
  induction left with
  | zero => exact fun _ => trivial
  | succ left ih =>
      intro i
      exact only_op trivial fun p => only_op trivial fun n => only_bind (fun _ => only_pure) (ih _)

theorem lists_listPages (idir dir : Nat) :
    ∀ (left num iblock : Nat) (page : Page 512),
      Only (Lists dir) (listPages idir dir left num iblock page) := by
  intro left
  induction left with
  | zero =>
      intro num iblock page
      rw [listPages]
      split <;> trivial
  | succ left ih =>
      intro num iblock page
      rw [listPages]
      split
      · refine only_bind (fun b => only_op (show Lists dir (.dcRead dir b _) from rfl) fun page => ?_)
          (lists_blockOf dir idir iblock)
        exact only_bind (fun _ => only_bind (fun _ => only_pure) (ih ..)) (lists_listPage dir page _ 0)
      · trivial

theorem lists_readdir (junk : Page 512) (dir : Nat) (maxentries : Int) :
    Only (Lists dir) (fsReaddir junk dir maxentries) := by
  rw [fsReaddir]
  split
  · trivial
  · refine only_op trivial fun bmap => ?_
    split
    · trivial
    · refine only_op trivial fun p => only_op trivial fun n => ?_
      split
      · trivial
      · exact only_bind (fun _ => only_pure) (lists_listPages p dir _ _ _ _)

theorem quiet_findFreeBlk : Only Quiet findFreeBlk := by
  rw [findFreeBlk]
  refine only_op trivial fun bmap => only_op trivial fun n => ?_
  split <;> trivial

theorem quiet_findFreeInode : Only Quiet findFreeInode := by
  rw [findFreeInode]
  refine only_op trivial fun bmap => ?_
  split <;> trivial

theorem quiet_writeWithin (ifile offset count : Nat) (buffer : Nat → UInt8) :
    ∀ (left iblock num : Nat) (block : Page 512),
      Only Quiet (writeWithin ifile offset count buffer left iblock num block) := by
  intro left
  induction left with
  | zero => exact fun _ _ _ => trivial
  | succ left ih =>
      intro iblock num block
      rw [writeWithin]
      split
      · refine only_bind (fun b => only_op trivial fun block => ?_) (quiet_blockOf ifile iblock)
        exact only_op trivial fun _ => ih ..
      · trivial

theorem quiet_writeNew (ifile count : Nat) (buffer : Nat → UInt8) :
    ∀ (left iblock num : Nat) (block : Page 512),
      Only Quiet (writeNew ifile count buffer left iblock num block) := by
  intro left
  induction left with
  | zero => exact fun _ _ _ => trivial
  | succ left ih =>
      intro iblock num block
      rw [writeNew]
      split
      · exact only_bind (fun b => only_op trivial fun _ => ih ..) (quiet_blockOf ifile iblock)
      · trivial

section

variable {α β : Type} {x : Seen} {p id : Nat} {Q : β → Seen → Prop}

/-- Something that leaves inodes alone, and what follows it. -/
theorem seen_quiet_bind {q : FsM α} (hq : Only Quiet q) {f : α → FsM β}
    (hf : ∀ a, wp seenSpec (fun _ => True) (f a) Q x) :
    wp seenSpec (fun _ => True) (q >>= f) Q x := by
  rw [wp_bind seenSpec_mono]
  exact seen_quiet hq hf

theorem seen_icGet {f : Nat → FsM β} (he : x.edited = none)
    (hf : ∀ p, (∀ q, x.ptr q = some id → p = q) →
      wp seenSpec (fun _ => True) (f p) Q (x.setPtr p id)) :
    wp seenSpec (fun _ => True) (icGet id >>= f) Q x := ⟨he, hf⟩

theorem seen_inodeBmap {f : Page 512 → FsM β}
    (hf : ∀ bmap, wp seenSpec (fun _ => True) (f bmap) Q x) :
    wp seenSpec (fun _ => True) (inodeBmap >>= f) Q x := hf

theorem seen_inode {f : Inode → FsM β} (he : x.edited = none) (hp : x.ptr p = some id)
    (hf : ∀ n, n.size = (x.ino id).size → wp seenSpec (fun _ => True) (f n) Q x) :
    wp seenSpec (fun _ => True) (inode p >>= f) Q x := fun n hn => hf n (hn id hp he).2.1

/-- A block behind those in use. -/
theorem seen_setBlock {i b : Nat} {f : Unit → FsM β} (he : x.edited = none)
    (hp : x.ptr p = some id) (hi : offsetToBlocks (x.ino id).size ≤ i)
    (hf : wp seenSpec (fun _ => True) (f ()) Q x) :
    wp seenSpec (fun _ => True) (setBlock p i b >>= f) Q x := by
  rw [setBlock]
  split
  · exact ⟨he, id, hp, hi, hf⟩
  · trivial

/-- The size of an inode is edited and made known. -/
theorem seen_setSize {n : Nat} {f : Unit → FsM β} (he : x.edited = none) (hp : x.ptr p = some id)
    (hf : ∀ m, wp seenSpec (fun _ => True) (f ()) Q (x.settle id m)) :
    wp seenSpec (fun _ => True) (setSize p n >>= fun _ => icDirty id >>= f) Q x :=
  ⟨he, id, hp, Or.inr rfl, ⟨p, hp⟩, hf⟩

theorem seen_allocBlocks (he : x.edited = none) (hp : x.ptr p = some id) {Q : Bool → Seen → Prop}
    (hq : ∀ b, Q b x) :
    ∀ (left i : Nat), offsetToBlocks (x.ino id).size ≤ i →
      wp seenSpec (fun _ => True) (allocBlocks p left i) Q x := by
  intro left
  induction left with
  | zero => exact fun _ _ => hq true
  | succ left ih =>
      intro i hi
      rw [allocBlocks]
      refine seen_quiet_bind quiet_findFreeBlk fun found => ?_
      split
      · exact hq false
      · exact seen_setBlock he hp hi (ih (i + 1) (by omega))

end

section

variable {x : Seen}

theorem seen_write (he : x.edited = none) (junk : Page 512) (file offset count : Nat)
    (buffer : Nat → UInt8) :
    wp seenSpec (fun _ => True) (fsWrite junk file offset count buffer)
      (fun _ y => y.edited = none) x := by
  rw [fsWrite]
  split
  · exact he
  · refine seen_inodeBmap fun bmap => ?_
    split
    · exact he
    · refine seen_icGet he fun p _ => ?_
      have hp : (x.setPtr p file).ptr p = some file := Function.update_self ..
      have he₁ : (x.setPtr p file).edited = none := he
      generalize x.setPtr p file = y at hp he₁ ⊢
      refine seen_inode he₁ hp fun n hsize => ?_
      split
      · exact he₁
      · dsimp only
        split
        · exact he₁
        · rw [wp_bind seenSpec_mono]
          refine seen_allocBlocks he₁ hp (fun ok => ?_) _ _ (by rw [hsize])
          split
          · exact he₁
          · rw [writeData]
            refine seen_quiet_bind (quiet_writeWithin ..) fun r => ?_
            refine seen_quiet_bind (quiet_writeNew ..) fun num => ?_
            split
            · trivial
            · exact seen_inode he₁ hp fun n _ => seen_setSize he₁ hp fun m => ⟨rfl, rfl⟩

theorem seen_growDir (he : x.edited = none) {dir idir : Nat} (hp : x.ptr idir = some dir) :
    wp seenSpec (fun _ => True) (growDir dir idir)
      (fun r y => y.edited = none ∧ ∀ p, r = some p → y.ptr p = some dir) x := by
  rw [growDir]
  refine seen_inode he hp fun n hsize => ?_
  split
  · rename_i hfull
    refine seen_quiet_bind quiet_findFreeBlk fun found => ?_
    split
    · exact ⟨he, fun p h => by cases h⟩
    · refine seen_setBlock he hp ?_ ⟨Or.inl he, ⟨idir, hp⟩, fun m => ?_⟩
      · rw [hsize] at hfull ⊢
        rw [offsetToBlocks]
        split <;> omega
      · refine seen_icGet rfl fun p _ => ⟨rfl, fun q hq => ?_⟩
        obtain rfl := Option.some.inj hq
        exact Function.update_self ..
  · refine ⟨he, fun p h => ?_⟩
    obtain rfl := Option.some.inj h
    exact hp

theorem seen_addEntry (he : x.edited = none) (itype : Nat) (junk : Page 512) {dir idir : Nat}
    (hp : x.ptr idir = some dir) (finode : Nat) (file : List UInt8) :
    wp seenSpec (fun _ => True) (addEntry itype junk dir idir finode file)
      (fun _ y => y.edited = none) x := by
  rw [addEntry]
  refine fun n _ => seen_quiet_bind (quiet_blockOf ..) fun b page n _ => ?_
  refine fun n _ => seen_setSize he hp fun m => ?_
  exact ⟨rfl, Or.inr rfl, fun m => ⟨rfl, rfl⟩⟩

theorem seen_createOf (he : x.edited = none) (itype : Nat) (junk : Page 512) (dir : Nat)
    (file : CStr) :
    wp seenSpec (fun _ => True) (fsCreateOf itype junk dir file)
      (fun _ y => y.edited = none) x := by
  rw [fsCreateOf]
  split
  · exact he
  · split
    · exact he
    · refine seen_inodeBmap fun bmap => ?_
      split
      · exact he
      · refine seen_icGet he fun p _ => ?_
        have hp : (x.setPtr p dir).ptr p = some dir := Function.update_self ..
        refine seen_inode he hp fun n _ => ?_
        split
        · exact he
        · rw [wp_bind seenSpec_mono, fsiDirSearch]
          refine seen_icGet he fun p' hp' => fun n _ => ?_
          -- the pointer to the directory is the one it was
          obtain rfl := hp' p hp
          have hp'' : ((x.setPtr p' dir).setPtr p' dir).ptr p' = some dir :=
            Function.update_self ..
          have he'' : ((x.setPtr p' dir).setPtr p' dir).edited = none := he
          generalize (x.setPtr p' dir).setPtr p' dir = y at hp'' he'' ⊢
          refine seen_quiet (quiet_searchPages ..) fun found => ?_
          split
          · exact he''
          · refine seen_quiet_bind quiet_findFreeInode fun finode => ?_
            split
            · exact he''
            · rw [wp_bind seenSpec_mono]
              refine wp_mono seenSpec_mono ?_ _ _ (seen_growDir he'' hp'')
              rintro r z ⟨hz, hr⟩
              split
              · exact hz
              · rw [wp_bind seenSpec_mono]
                exact seen_addEntry hz itype junk (hr _ rfl) _ _

end

/-! ### Every state -/

/-- A call edits no inode without making it known. -/
theorem seen_call {x : Seen} (he : x.edited = none) (junk : Page 512) (c : FsCall) :
    wp seenSpec (fun _ => True) (c.prog junk) (fun _ y => y.edited = none) x := by
  have getting : ∀ {α : Type} {p : FsM α} {f : α → FsReply}, Only Getting p →
      wp seenSpec (fun _ => True) (p >>= fun a => pure (f a)) (fun _ y => y.edited = none) x :=
    fun hp => seen_getting (only_bind (fun _ => only_pure) hp) he
  have after : ∀ {α : Type} {p : FsM α} {f : α → FsReply},
      wp seenSpec (fun _ => True) p (fun _ y => y.edited = none) x →
      wp seenSpec (fun _ => True) (p >>= fun a => pure (f a)) (fun _ y => y.edited = none) x := by
    intro α p f hp
    rw [wp_bind seenSpec_mono]
    exact hp
  cases c with
  | copy srcpath tgtpath => exact he
  | readdir dir maxentries => exact getting ((lists_readdir junk dir maxentries).mono Lists.getting)
  | call c =>
      cases c with
      | getAttrs file => exact getting (only_bind (fun _ => only_pure) (getting_getAttrs file))
      | lookup file => exact getting (only_bind (fun _ => only_pure) (getting_lookup junk file))
      | read file offset count =>
          exact getting (only_bind (fun _ => only_pure) (getting_read junk file offset count))
      | write file offset count buffer =>
          refine after ?_
          change wp _ _ (fsWrite junk file offset count buffer >>= _) _ _
          rw [wp_bind seenSpec_mono]
          exact seen_write he junk file offset count buffer
      | create dir file =>
          refine after ?_
          change wp _ _ (fsCreateOf 2 junk dir file >>= _) _ _
          rw [wp_bind seenSpec_mono]
          exact seen_createOf he 2 junk dir file
      | mkdir dir newdir =>
          refine after ?_
          change wp _ _ (fsCreateOf 1 junk dir newdir >>= _) _ _
          rw [wp_bind seenSpec_mono]
          exact seen_createOf he 1 junk dir newdir

/-- The inodes are seen so, and none is being edited. -/
def Settled (s : Fs) (x : Seen) : Prop := SeenRel s x ∧ x.edited = none

theorem SeenRel.empty {s : Fs} (hv : ∀ i, (s.icache i).valid = false)
    (hd : ∀ i, (s.icache i).dirty = false) : SeenRel s ⟨s.inodeTab, none, fun _ => none⟩ :=
  ⟨Coherent.empty hv hd fun _ _ => Or.inr (Uses.refl _), fun _ _ hp => by cases hp⟩

theorem settled_justFormatted {numBlocks : Nat} {s : Fs} (h : JustFormatted numBlocks s) :
    ∃ x, Settled s x := by
  obtain ⟨readings, fs₀, hnew, hformat⟩ := h
  obtain ⟨st, -, hempty⟩ := except_bind_ok hnew
  have hfs : fs₀ = Fs.empty st.loadFsdata readings := by
    rw [Fs.checked] at hempty
    split at hempty
    · cases hempty
    · exact (Except.ok.inj hempty).symm
  subst hfs
  rw [Fs.fsFormat, Fs.checked] at hformat
  split at hformat
  · cases hformat
  · obtain rfl := Except.ok.inj hformat
    exact ⟨_, (SeenRel.empty (fun _ => rfl) fun _ => rfl).storeFsdata, rfl⟩

theorem FsReached.settled {numBlocks : Nat} {s : Fs} (h : FsReached numBlocks s) :
    ∃ x, Settled s x := by
  obtain ⟨fs₀, hfs₀, tr, hrun⟩ := h
  refine hrun.invariant (fun s => ∃ x, Settled s x) (settled_justFormatted hfs₀) ?_
  rintro s ⟨junk, c⟩ s' ⟨x, hx, he⟩ hstep
  obtain ⟨-, r, hcall⟩ := Fs.step_some hstep
  exact run_sound_if_ok seen_sound _ hx (seen_call he junk c) hcall

/-- The states reached without `fs_readdir` and `fs_copy` are among them. -/
theorem Reached.fsReached {numBlocks : Nat} {s : Fs} (h : Reached numBlocks s) :
    FsReached numBlocks s := by
  induction h with
  | format hnew hformat => exact ⟨_, ⟨_, _, hnew, hformat⟩, [], Run.nil⟩
  | @call junk c r fs fs' _ hok hcall ih =>
      obtain ⟨fs₀, hfs₀, tr, hrun⟩ := ih
      refine ⟨fs₀, hfs₀, _, hrun.snoc (a := (junk, .call c)) ?_⟩
      have htyped : (FsCall.call c).Typed := by
        cases c with
        | write file offset count buffer =>
            have hcount : count ≤ 1024 := hok
            change count < 2 ^ 32
            omega
        | _ => exact Nat.two_pow_pos 32
      rw [Fs.step, if_pos htyped]
      rw [show run Fs.handler ((FsCall.call c).prog junk) fs = .ok (.reply r, fs') by
        change run Fs.handler (c.prog junk >>= _) fs = _
        rw [run_bind, hcall]
        rfl]

/-- What is looked up is what is seen. -/
theorem Settled.inodeOf {s : Fs} {x : Seen} (h : Settled s x) (id : Nat) :
    Uses (s.inodeOf id) (x.ino id) := by
  obtain ⟨hrel, he⟩ := h
  have hright : ∀ {n}, x.Right id n → Uses n (x.ino id) := fun hn =>
    hn.resolve_left fun hid => by
      rw [he] at hid
      cases hid
  obtain ⟨hsome, hnone⟩ := hrel.slots.lookup (k := id) trivial
  unfold Fs.inodeOf
  split
  · rename_i i hi
    exact hright (hsome i hi)
  · rename_i hi
    exact hright (hnone hi)

end Sthreads.Snfs
