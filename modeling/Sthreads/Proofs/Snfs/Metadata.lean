/-
What `fsi_store_fsdata`, `fsi_load_fsdata` and `fs_format` do to the blocks.

The blocks are written in ranges: two single blocks and eight of the inode table, or
all of them.  `writeRange` is such a range of writes, and what it does is proved once.
That a new file system could be formatted says something about how many blocks there
are: where `num_blocks * BLOCK_SIZE` wraps, either some write leaves the allocated
blocks or `num_blocks` is negative as an `int`, and then no block is ever allocated.
-/
import Sthreads.Proofs.Snfs.View
import Sthreads.Snfs.Plain

namespace Sthreads.Snfs

namespace Store

/-- Only the bytes of the blocks differ, and what is known of the accesses to them. -/
def SameFields (st st' : Store) : Prop :=
  st'.inodeBmap = st.inodeBmap ∧ st'.blkBmap = st.blkBmap ∧ st'.inodeTab = st.inodeTab ∧
    st'.blocks.numBlocks = st.blocks.numBlocks ∧ st'.blocks.allocated = st.blocks.allocated

theorem SameFields.refl (st : Store) : SameFields st st := ⟨rfl, rfl, rfl, rfl, rfl⟩

theorem SameFields.trans {st st' st'' : Store} (h : SameFields st st')
    (h' : SameFields st' st'') : SameFields st st'' :=
  ⟨h'.1.trans h.1, h'.2.1.trans h.2.1, h'.2.2.1.trans h.2.2.1, h'.2.2.2.1.trans h.2.2.2.1,
    h'.2.2.2.2.trans h.2.2.2.2⟩

theorem SameFields.has {st st' : Store} (h : SameFields st st') (b : Nat) :
    st'.blocks.Has b ↔ st.blocks.Has b := by
  unfold Blocks.Has
  rw [h.2.2.2.1, h.2.2.2.2]

theorem sameFields_writeBlock (st : Store) (b : Nat) (p : Page 512) :
    SameFields st (st.writeBlock b p) :=
  ⟨rfl, rfl, rfl, Blocks.blockWrite_numBlocks b p, Blocks.blockWrite_allocated b p⟩

/-- Write `n` blocks from block `d` on. -/
def writeRange (st : Store) (d : Nat) (f : Nat → Page 512) (n : Nat) : Store :=
  (List.range n).foldl (fun s i => s.writeBlock (i + d) (f i)) st

theorem writeRange_succ (st : Store) (d : Nat) (f : Nat → Page 512) (n : Nat) :
    st.writeRange d f (n + 1) = (st.writeRange d f n).writeBlock (n + d) (f n) := by
  rw [writeRange, List.range_succ, List.foldl_append]
  rfl

theorem sameFields_writeRange (st : Store) (d : Nat) (f : Nat → Page 512) (n : Nat) :
    SameFields st (st.writeRange d f n) := by
  induction n with
  | zero => exact SameFields.refl st
  | succ n ih =>
      rw [writeRange_succ]
      exact ih.trans (sameFields_writeBlock _ _ _)

section

variable {st : Store} {d n : Nat} {f : Nat → Page 512}

theorem writeRange_wild (h : ∀ i, i < n → st.blocks.Has (i + d)) :
    (st.writeRange d f n).blocks.wild = st.blocks.wild := by
  induction n with
  | zero => rfl
  | succ n ih =>
      rw [writeRange_succ]
      have hhas := ((sameFields_writeRange st d f n).has (n + d)).mpr (h n (by omega))
      exact (Blocks.blockWrite_wild hhas _).trans (ih fun i hi => h i (by omega))

/-- A block in the range has what was written to it. -/
theorem writeRange_page (h : ∀ i, i < n → st.blocks.Has (i + d)) {i : Nat} (hi : i < n) :
    (st.writeRange d f n).blocks.page (i + d) = f i := by
  induction n with
  | zero => omega
  | succ n ih =>
      rw [writeRange_succ]
      have hhas := fun j hj => ((sameFields_writeRange st d f n).has (j + d)).mpr (h j hj)
      by_cases hin : i = n
      · subst hin
        exact Blocks.page_blockWrite_self (hhas i (by omega)).1 _
      · exact (Blocks.page_blockWrite_other (hhas n (by omega)) (hhas i (by omega)) (by omega)
          _).trans (ih (fun j hj => h j (by omega)) (by omega))

/-- A block outside the range is as it was. -/
theorem writeRange_other (h : ∀ i, i < n → st.blocks.Has (i + d)) {b : Nat}
    (hb : st.blocks.Has b) (hout : b < d ∨ d + n ≤ b) :
    (st.writeRange d f n).blocks.page b = st.blocks.page b := by
  induction n with
  | zero => rfl
  | succ n ih =>
      rw [writeRange_succ]
      have hsame := sameFields_writeRange st d f n
      exact (Blocks.page_blockWrite_other ((hsame.has _).mpr (h n (by omega)))
        ((hsame.has b).mpr hb) (by omega) _).trans (ih (fun j hj => h j (by omega)) (by omega))

end

/-! ### Storing -/

theorem storeBlocks_eq (st : Store) :
    st.storeBlocks =
      ((st.writeBlock 0 st.blkBmap).writeBlock 1 st.inodeBmap).writeRange 2
        (fun i => tabPage st.inodeTab i) 8 := rfl

/-- What the blocks have after `fsi_store_fsdata`. -/
structure Stored (st st' : Store) : Prop where
  same : SameFields st st'
  wild : st'.blocks.wild = st.blocks.wild
  blkBmap : st'.blocks.page 0 = st.blkBmap
  inodeBmap : st'.blocks.page 1 = st.inodeBmap
  inodeTab : ∀ i, i < 8 → st'.blocks.page (i + 2) = tabPage st.inodeTab i
  data : ∀ b, 10 ≤ b → st.blocks.Has b → st'.blocks.page b = st.blocks.page b

theorem storeBlocks_stored (st : Store) (h : ∀ b, b < 10 → st.blocks.Has b) :
    Stored st st.storeBlocks := by
  have hsame₁ := sameFields_writeBlock st 0 st.blkBmap
  have hsame₂ := hsame₁.trans (sameFields_writeBlock _ 1 st.inodeBmap)
  have h1 := (hsame₁.has 1).mpr (h 1 (by omega))
  have h2 : ∀ i, i < 8 →
      ((st.writeBlock 0 st.blkBmap).writeBlock 1 st.inodeBmap).blocks.Has (i + 2) := fun i hi =>
    (hsame₂.has _).mpr (h _ (by omega))
  rw [storeBlocks_eq]
  refine ⟨hsame₂.trans (sameFields_writeRange _ _ _ _), ?_, ?_, ?_, ?_, ?_⟩
  · rw [writeRange_wild h2]
    exact (Blocks.blockWrite_wild h1 _).trans
      (Blocks.blockWrite_wild (h 0 (by omega)) _)
  · rw [writeRange_other h2 ((hsame₂.has 0).mpr (h 0 (by omega))) (by omega)]
    exact (Blocks.page_blockWrite_other h1 ((hsame₁.has 0).mpr (h 0 (by omega))) (by omega)
      _).trans (Blocks.page_blockWrite_self (h 0 (by omega)).1 _)
  · rw [writeRange_other h2 ((hsame₂.has 1).mpr (h 1 (by omega))) (by omega)]
    exact Blocks.page_blockWrite_self h1.1 _
  · intro i hi
    exact writeRange_page h2 hi
  · intro b hb hhas
    rw [writeRange_other h2 ((hsame₂.has b).mpr hhas) (by omega)]
    exact (Blocks.page_blockWrite_other h1 ((hsame₁.has b).mpr hhas) (by omega) _).trans
      (Blocks.page_blockWrite_other (h 0 (by omega)) hhas (by omega) _)

/-! ### Accesses outside the blocks -/

theorem writeBlock_wild {st : Store} {b : Nat} {p : Page 512}
    (h : (st.writeBlock b p).blocks.wild = false) (hb : b < st.blocks.numBlocks) :
    st.blocks.wild = false ∧ Blocks.address 512 b + 512 ≤ st.blocks.allocated := by
  have hblocks : (st.writeBlock b p).blocks.wild =
      (st.blocks.wild || decide (st.blocks.allocated < Blocks.address 512 b + 512)) := by
    simp only [writeBlock, Blocks.blockWrite]
    rw [if_neg (by omega)]
    rfl
  rw [hblocks, Bool.or_eq_false_iff, decide_eq_false_iff_not] at h
  exact ⟨h.1, by omega⟩

/-- If no write of a range left the allocated bytes, they hold every block of the range. -/
theorem writeRange_inside {st : Store} {d n : Nat} {f : Nat → Page 512}
    (h : (st.writeRange d f n).blocks.wild = false) (hn : n + d ≤ st.blocks.numBlocks) :
    st.blocks.wild = false ∧
      ∀ i, i < n → Blocks.address 512 (i + d) + 512 ≤ st.blocks.allocated := by
  induction n with
  | zero => exact ⟨h, fun i hi => by omega⟩
  | succ n ih =>
      obtain ⟨-, -, -, hnum, halloc⟩ := sameFields_writeRange st d f n
      rw [writeRange_succ] at h
      obtain ⟨hrest, hin⟩ := writeBlock_wild h (by omega)
      obtain ⟨hwild, hall⟩ := ih hrest (by omega)
      refine ⟨hwild, fun i hi => ?_⟩
      by_cases hi' : i = n
      · rw [hi', ← halloc]
        exact hin
      · exact hall i (by omega)

/-! ### Loading -/

/-- Read `n` blocks from block `d` on. -/
def readRange (d n : Nat) (pages : Nat → Page 512) (blocks : Blocks 512) :
    (Nat → Page 512) × Blocks 512 :=
  (List.range n).foldl
    (fun r i =>
      let (_, page, blocks) := r.2.blockRead (i + d) (r.1 i)
      (Function.update r.1 i page, blocks))
    (pages, blocks)

/-- The bytes are as they were, and so is the number of blocks. -/
def SameBytes (bks bks' : Blocks 512) : Prop := bks' = { bks with wild := bks'.wild }

theorem blockRead_inside (bks : Blocks 512) (b : Nat) (hb : b < bks.numBlocks) (buf : Page 512) :
    (bks.blockRead b buf).2.1 = bks.page b ∧ SameBytes bks (bks.blockRead b buf).2.2 ∧
      ((bks.blockRead b buf).2.2.wild = false ↔
        bks.wild = false ∧ Blocks.address 512 b + 512 ≤ bks.allocated) := by
  unfold Blocks.blockRead
  rw [if_neg (by omega)]
  refine ⟨rfl, rfl, ?_⟩
  simp only [Blocks.access, Bool.or_eq_false_iff, decide_eq_false_iff_not, Nat.not_lt]

theorem SameBytes.trans {b₁ b₂ b₃ : Blocks 512} (h : SameBytes b₁ b₂) (h' : SameBytes b₂ b₃) :
    SameBytes b₁ b₃ := by
  unfold SameBytes at h h' ⊢
  rw [h', h]

theorem SameBytes.page {bks bks' : Blocks 512} (h : SameBytes bks bks') (b : Nat) :
    bks'.page b = bks.page b := by
  rw [h]
  rfl

theorem readRange_spec (bks : Blocks 512) (d n : Nat) (pages : Nat → Page 512)
    (hn : n + d ≤ bks.numBlocks) :
    (∀ i, i < n → (readRange d n pages bks).1 i = bks.page (i + d)) ∧
      SameBytes bks (readRange d n pages bks).2 ∧
      ((readRange d n pages bks).2.wild = false ↔
        bks.wild = false ∧ ∀ i, i < n → Blocks.address 512 (i + d) + 512 ≤ bks.allocated) := by
  induction n with
  | zero => exact ⟨fun i hi => by omega, rfl, by simp [readRange]⟩
  | succ n ih =>
      obtain ⟨hpages, hsame, hwild⟩ := ih (by omega)
      have hsucc : readRange d (n + 1) pages bks =
          (let r := readRange d n pages bks
           let (_, page, blocks) := r.2.blockRead (n + d) (r.1 n)
           (Function.update r.1 n page, blocks)) := by
        rw [readRange, List.range_succ, List.foldl_append]
        rfl
      rw [hsucc]
      generalize readRange d n pages bks = r at hpages hsame hwild ⊢
      have hnum : r.2.numBlocks = bks.numBlocks := by rw [hsame]
      have halloc : r.2.allocated = bks.allocated := by rw [hsame]
      obtain ⟨hpage, hsame', hwild'⟩ := blockRead_inside r.2 (n + d) (by omega) (r.1 n)
      refine ⟨fun i hi => ?_, hsame.trans hsame', ?_⟩
      · by_cases hi' : i = n
        · subst hi'
          exact (Function.update_self ..).trans (hpage.trans (hsame.page _))
        · exact (Function.update_of_ne hi' ..).trans (hpages i (by omega))
      · refine hwild'.trans ?_
        rw [hwild, halloc]
        constructor
        · rintro ⟨⟨h0, hall⟩, hlast⟩
          refine ⟨h0, fun i hi => ?_⟩
          by_cases hi' : i = n
          · rw [hi']
            exact hlast
          · exact hall i (by omega)
        · rintro ⟨h0, hall⟩
          exact ⟨⟨h0, fun i hi => hall i (by omega)⟩, hall n (by omega)⟩

/-- The inode table depends on its eight blocks. -/
theorem tabOfPages_congr (pages pages' : Nat → Page 512) (h : ∀ i, i < 8 → pages i = pages' i)
    {id : Nat} (hid : id < 64) {w : Nat} (hw : w < 16) :
    (wordAt (fun n => (pages (n / 512)).get (n % 512)) (id * 64 + 4 * w)) =
      wordAt (fun n => (pages' (n / 512)).get (n % 512)) (id * 64 + 4 * w) := by
  unfold wordAt
  simp only
  rw [h ((id * 64 + 4 * w) / 512) (by omega), h ((id * 64 + 4 * w + 1) / 512) (by omega),
    h ((id * 64 + 4 * w + 2) / 512) (by omega), h ((id * 64 + 4 * w + 3) / 512) (by omega)]

/-- What `fsi_load_fsdata` leaves. -/
structure Loaded (st st' : Store) : Prop where
  same : SameBytes st.blocks st'.blocks
  blkBmap : st'.blkBmap = st.blocks.page 0
  inodeBmap : st'.inodeBmap = st.blocks.page 1
  inodeTab : ∃ pages, st'.inodeTab = tabOfPages pages ∧
    ∀ i, i < 8 → pages i = st.blocks.page (i + 2)
  wild : st'.blocks.wild = false ↔
    st.blocks.wild = false ∧ ∀ b, b < 10 → Blocks.address 512 b + 512 ≤ st.blocks.allocated

theorem loadFsdata_eq {st : Store} {status₀ status₁ : Int} {page₀ page₁ : Page 512}
    {blocks₀ blocks₁ : Blocks 512}
    (hr₀ : st.blocks.blockRead 0 st.blkBmap = (status₀, page₀, blocks₀))
    (hr₁ : blocks₀.blockRead 1 st.inodeBmap = (status₁, page₁, blocks₁)) :
    st.loadFsdata =
      ⟨(readRange 2 8 (tabPage st.inodeTab) blocks₁).2, page₁, page₀,
        tabOfPages (readRange 2 8 (tabPage st.inodeTab) blocks₁).1⟩ := by
  unfold loadFsdata readRange
  rw [hr₀]
  dsimp only
  rw [hr₁]

theorem loadFsdata_loaded (st : Store) (h : 10 ≤ st.blocks.numBlocks) :
    Loaded st st.loadFsdata := by
  obtain ⟨hpage₀, hsame₀, hwild₀⟩ := blockRead_inside st.blocks 0 (by omega)
    st.blkBmap
  rcases hr₀ : st.blocks.blockRead 0 st.blkBmap with ⟨status₀, page₀, blocks₀⟩
  rw [hr₀] at hpage₀ hsame₀ hwild₀
  dsimp only at hpage₀ hsame₀ hwild₀
  have hnum₀ : blocks₀.numBlocks = st.blocks.numBlocks := by rw [hsame₀]
  have halloc₀ : blocks₀.allocated = st.blocks.allocated := by rw [hsame₀]
  obtain ⟨hpage₁, hsame₁, hwild₁⟩ := blockRead_inside blocks₀ 1 (by omega)
    st.inodeBmap
  rcases hr₁ : blocks₀.blockRead 1 st.inodeBmap with ⟨status₁, page₁, blocks₁⟩
  rw [hr₁] at hpage₁ hsame₁ hwild₁
  dsimp only at hpage₁ hsame₁ hwild₁
  have hsame₀₁ := hsame₀.trans hsame₁
  have hnum₁ : blocks₁.numBlocks = st.blocks.numBlocks := by rw [hsame₀₁]
  have halloc₁ : blocks₁.allocated = st.blocks.allocated := by rw [hsame₀₁]
  obtain ⟨hpages, hsame₂, hwild₂⟩ := readRange_spec blocks₁ 2 8
    (tabPage st.inodeTab) (by omega)
  have hload := loadFsdata_eq hr₀ hr₁
  rw [hload]
  generalize readRange 2 8 (tabPage st.inodeTab) blocks₁ = r at hpages hsame₂ hwild₂ ⊢
  refine ⟨hsame₀₁.trans hsame₂, hpage₀, hpage₁.trans (hsame₀.page 1),
    ⟨r.1, rfl, fun i hi => ?_⟩, ?_⟩
  · exact (hpages i hi).trans (hsame₀₁.page _)
  · refine hwild₂.trans ?_
    rw [hwild₁, hwild₀, halloc₀, halloc₁]
    constructor
    · rintro ⟨⟨⟨hw, h0⟩, h1⟩, hall⟩
      refine ⟨hw, fun b hb => ?_⟩
      rcases Nat.lt_or_ge b 2 with hlt | hge
      · rcases (show b = 0 ∨ b = 1 by omega) with rfl | rfl
        · exact h0
        · exact h1
      · have := hall (b - 2) (by omega)
        rwa [Nat.sub_add_cancel hge] at this
    · rintro ⟨hw, hall⟩
      exact ⟨⟨⟨hw, hall 0 (by omega)⟩, hall 1 (by omega)⟩, fun i hi => hall (i + 2) (by omega)⟩

end Store

end Sthreads.Snfs
