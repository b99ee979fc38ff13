/-
When blocks do not alias.

Block `b` is to have the bytes from `b * block_size` on to itself.  The address is computed
modulo `2 ^ 32`, and so is the number of bytes that is allocated: the blocks of an instance
keep apart exactly when all of them together have less than `2 ^ 32` bytes.  `block_new`
refuses only the products that are zero modulo `2 ^ 32`, and `block_load` refuses none.

What is read then is what was written last.  An image that was stored is loaded as the same
blocks.
-/
import Mathlib.Data.Set.Basic
import Sthreads.Snfs.Image

namespace Sthreads.Snfs

/-- A call on the blocks; a read is given its buffer. -/
inductive BlockCall (sz : Nat)
  | read (blockNo : Nat) (block : Page sz)
  | write (blockNo : Nat) (block : Page sz)

namespace Blocks

variable {sz : Nat}

/-- The blocks after a call. -/
def call (bks : Blocks sz) : BlockCall sz → Blocks sz
  | .read blockNo block => (bks.blockRead blockNo block).2.2
  | .write blockNo block => (bks.blockWrite blockNo block).2

/-- What was written last to each block below `numBlocks`, or what was there before. -/
def lastWritten (numBlocks : Nat) (page : Nat → Page sz) : BlockCall sz → Nat → Page sz
  | .read _ _ => page
  | .write blockNo block =>
      if blockNo < numBlocks then Function.update page blockNo block else page

/-- The bytes that block `b` is to have. -/
def bytes (sz b : Nat) : Set Nat := { a | b * sz ≤ a ∧ a < (b + 1) * sz }

/-- The bytes that an access to block `b` touches. -/
def touched (sz b : Nat) : Set Nat := { a | address sz b ≤ a ∧ a < address sz b + sz }

/-- No two blocks share a byte, and a block keeps what was written to it. -/
structure NeverAliases (bks : Blocks sz) : Prop where
  /-- An access touches the bytes of its block, and they are allocated. -/
  inside : ∀ b < bks.numBlocks,
    touched sz b = bytes sz b ∧ ∀ a ∈ bytes sz b, a < bks.allocated
  disjoint : ∀ b < bks.numBlocks, ∀ b' < bks.numBlocks, b ≠ b' →
    ∀ a ∈ touched sz b, a ∉ touched sz b'
  /-- After any calls, a read succeeds with what was written last, and nothing outside the
  allocated bytes has been accessed. -/
  reads : ∀ (calls : List (BlockCall sz)) (b : Nat) (block : Page sz), b < bks.numBlocks →
    (calls.foldl call bks).blockRead b block =
        (0, calls.foldl (lastWritten bks.numBlocks) bks.page b, calls.foldl call bks) ∧
      (calls.foldl call bks).wild = false

/-- The blocks are those of a constructor that did not return `NULL`. -/
def Constructed (bks : Blocks sz) : Prop :=
  (∃ numBlocks, blockNew sz numBlocks = some bks) ∨ ∃ file, blockLoad file = some ⟨sz, bks⟩

/-! ### The sizes -/

variable {bks : Blocks sz}

/-- Both constructors allocate the product of the sizes, modulo `2 ^ 32`. -/
theorem Constructed.sizes (h : bks.Constructed) :
    bks.allocated = bks.numBlocks * sz % 2 ^ 32 ∧ bks.wild = false := by
  rcases h with ⟨numBlocks, hnew⟩ | ⟨file, hload⟩
  · rw [blockNew] at hnew
    split at hnew
    · cases hnew
    · cases hnew
      exact ⟨rfl, rfl⟩
  · cases file with
    | none => cases hload
    | some file =>
        rw [blockLoad] at hload
        dsimp only at hload
        split at hload
        · cases hload
        split at hload
        · cases hload
        split at hload
        · cases hload
        cases hload
        exact ⟨rfl, rfl⟩

/-- If the sizes fit, all blocks are in the allocated bytes. -/
theorem Constructed.has (h : bks.Constructed) (hfit : bks.numBlocks * sz < 2 ^ 32) {b : Nat}
    (hb : b < bks.numBlocks) : bks.Has b := by
  obtain ⟨halloc, -⟩ := h.sizes
  rw [Nat.mod_eq_of_lt hfit] at halloc
  have hle : (b + 1) * sz ≤ bks.numBlocks * sz := Nat.mul_le_mul_right sz hb
  rw [Nat.add_mul, Nat.one_mul] at hle
  exact ⟨hb, halloc ▸ hle, halloc ▸ hfit⟩

theorem Has.touched_eq {b : Nat} (h : bks.Has b) : touched sz b = bytes sz b := by
  rw [touched, bytes, h.address_eq, Nat.add_mul, Nat.one_mul]

/-- The bytes of different blocks are different. -/
theorem disjoint_bytes {b b' : Nat} (hne : b ≠ b') : ∀ a ∈ bytes sz b, a ∉ bytes sz b' := by
  rintro a ⟨hge, hlt⟩ ⟨hge', hlt'⟩
  rcases Nat.lt_or_gt_of_ne hne with h | h
  · exact absurd (Nat.le_trans (Nat.mul_le_mul_right sz h) hge') (Nat.not_le.mpr hlt)
  · exact absurd (Nat.le_trans (Nat.mul_le_mul_right sz h) hge) (Nat.not_le.mpr hlt')

/-! ### Calls -/

/-- All of so many blocks are in the allocated bytes, and these are their pages. -/
structure Holds (bks : Blocks sz) (numBlocks : Nat) (page : Nat → Page sz) : Prop where
  numBlocks_eq : bks.numBlocks = numBlocks
  has : ∀ b < numBlocks, bks.Has b
  page_eq : ∀ b < numBlocks, bks.page b = page b
  wild : bks.wild = false

variable {numBlocks : Nat} {page : Nat → Page sz}

theorem Holds.read (h : bks.Holds numBlocks page) {b : Nat} (hb : b < numBlocks)
    (block : Page sz) : bks.blockRead b block = (0, page b, bks) := by
  rw [blockRead_of_has (h.has b hb), h.page_eq b hb]

theorem Holds.call (h : bks.Holds numBlocks page) (c : BlockCall sz) :
    (bks.call c).Holds numBlocks (lastWritten numBlocks page c) := by
  cases c with
  | read b block =>
      change Holds (bks.blockRead b block).2.2 numBlocks page
      by_cases hb : b < numBlocks
      · rw [h.read hb]
        exact h
      · rw [blockRead, if_pos (h.numBlocks_eq ▸ Nat.not_lt.mp hb)]
        exact h
  | write b block =>
      rw [Blocks.call, lastWritten]
      by_cases hb : b < numBlocks
      · rw [if_pos hb]
        have hhas := h.has b hb
        refine ⟨(blockWrite_numBlocks b block).trans h.numBlocks_eq,
          fun b' hb' => (blockWrite_has b block).mpr (h.has b' hb'), fun b' hb' => ?_,
          (blockWrite_wild hhas block).trans h.wild⟩
        by_cases hne : b' = b
        · rw [hne, Function.update_self]
          exact page_blockWrite_self hhas.1 block
        · rw [Function.update_of_ne hne, ← h.page_eq b' hb']
          exact page_blockWrite_other hhas (h.has b' hb') hne block
      · rw [if_neg hb, blockWrite, if_pos (h.numBlocks_eq ▸ Nat.not_lt.mp hb)]
        exact h

theorem Holds.calls (h : bks.Holds numBlocks page) (calls : List (BlockCall sz)) :
    (calls.foldl Blocks.call bks).Holds numBlocks (calls.foldl (lastWritten numBlocks) page) := by
  induction calls generalizing bks page with
  | nil => exact h
  | cons c calls ih => exact ih (h.call c)

theorem Constructed.holds (h : bks.Constructed) (hfit : bks.numBlocks * sz < 2 ^ 32) :
    bks.Holds bks.numBlocks bks.page :=
  ⟨rfl, fun _ hb => h.has hfit hb, fun _ _ => rfl, h.sizes.2⟩

/-! ### Aliasing -/

/-- The last block ends at the product of the sizes. -/
theorem NeverAliases.fits (h : bks.NeverAliases)
    (halloc : bks.allocated = bks.numBlocks * sz % 2 ^ 32) : bks.numBlocks * sz < 2 ^ 32 := by
  by_contra hge
  have hpos : 0 < bks.numBlocks * sz := by omega
  have hn := Nat.pos_of_mul_pos_right hpos
  have hsz := Nat.pos_of_mul_pos_left hpos
  have hlast : (bks.numBlocks - 1) * sz + sz = bks.numBlocks * sz := by
    rw [← Nat.succ_mul, Nat.succ_eq_add_one, Nat.sub_add_cancel hn]
  have hin := (h.inside (bks.numBlocks - 1) (by omega)).2 (bks.numBlocks * sz - 1)
    ⟨by omega, by rw [Nat.add_mul, Nat.one_mul]; omega⟩
  have hlt : bks.allocated < 2 ^ 32 := halloc ▸ Nat.mod_lt _ (by decide)
  omega

/-- The blocks of an instance do not alias if and only if all of them together have less than
`2 ^ 32` bytes. -/
theorem neverAliases_iff (h : bks.Constructed) :
    bks.NeverAliases ↔ bks.numBlocks * sz < 2 ^ 32 := by
  refine ⟨fun hn => hn.fits h.sizes.1, fun hfit => ⟨fun b hb => ?_, fun b hb b' hb' hne => ?_,
    fun calls b block hb => ?_⟩⟩
  · have hhas := h.has hfit hb
    refine ⟨hhas.touched_eq, fun a ha => ?_⟩
    have hend := ha.2
    rw [Nat.add_mul, Nat.one_mul] at hend
    exact Nat.lt_of_lt_of_le hend hhas.2.1
  · rw [(h.has hfit hb).touched_eq, (h.has hfit hb').touched_eq]
    exact disjoint_bytes hne
  · have hcalls := (h.holds hfit).calls calls
    exact ⟨hcalls.read hb block, hcalls.wild⟩

/-- The blocks of the server. -/
theorem neverAliases_iff_server :
    ∃ bks : Blocks 512, blockNew 512 16384 = some bks ∧ bks.NeverAliases :=
  ⟨_, rfl, (neverAliases_iff (Or.inl ⟨16384, rfl⟩)).mpr (by decide)⟩

/-- With one block more than `2 ^ 23`, of 512 bytes each, block `2 ^ 23` is block 0. -/
theorem last_block_is_first :
    ∃ bks : Blocks 512, blockNew 512 8388609 = some bks ∧
      ((bks.call (.write 8388608 fun _ => 1)).blockRead 0 fun _ => 0).2.1 = (fun _ => 1) ∧
      lastWritten bks.numBlocks bks.page (.write 8388608 fun _ => 1) 0 = (fun _ => 0) ∧
      ¬ bks.NeverAliases := by
  refine ⟨_, rfl, ?_, rfl, fun h => ?_⟩
  · have hread : ∀ (bks : Blocks 512) (block : Page 512), 0 < bks.numBlocks →
        (bks.blockRead 0 block).2.1 = bks.page 0 := fun bks block h0 => by
      rw [blockRead, if_neg (by omega)]
    rw [Blocks.call, hread _ _ (by rw [blockWrite_numBlocks]; decide)]
    rw [page_congr (show address 512 0 = address 512 8388608 by decide)]
    exact page_blockWrite_self (by decide) _
  · exact absurd (h.fits rfl) (by decide)

/-! ### Images -/

/-- The bytes of `struct blocks_` that `block_store` writes are those of the file. -/
theorem getD_stored {size a : Nat} (ha : a < size) (old : List UInt8) :
    ((List.range size).map bks.byteAt ++ old.drop size).getD a 0 = bks.byteAt a := by
  rw [List.getD_eq_getElem?_getD, List.getElem?_append_left (by simpa using ha),
    List.getElem?_map, List.getElem?_range ha]
  rfl

/-- What was stored is loaded, whatever the file has held before. -/
theorem blockLoad_blockStore (hsz : sz < 2 ^ 32) (hnum : bks.numBlocks < 2 ^ 32)
    (hsize : 8 + bks.numBlocks * sz % 2 ^ 32 ≤ 0x7ffff000) (old : List UInt8) :
    ∃ file bks', bks.blockStore (some old) = (some file, 0) ∧
      blockLoad (some file) = some ⟨sz, bks'⟩ ∧ bks'.numBlocks = bks.numBlocks ∧
      bks'.allocated = bks.numBlocks * sz % 2 ^ 32 ∧
      ∀ a < bks'.allocated, bks'.blocks a = bks.blocks a := by
  generalize hP : bks.numBlocks * sz % 2 ^ 32 = P at hsize
  have hstored : bks.blockStore (some old) =
      (some ((List.range (8 + P)).map bks.byteAt ++ old.drop (8 + P)), 0) := by
    rw [blockStore, Nat.mul_comm sz, hP, Nat.mod_eq_of_lt (by omega), Nat.min_eq_left hsize]
    simp
  generalize hfile : (List.range (8 + P)).map bks.byteAt ++ old.drop (8 + P) = file at hstored
  have hbyte : ∀ a, a < 8 + P → file.getD a 0 = bks.byteAt a := fun a ha => by
    rw [← hfile, getD_stored ha]
  have hlen : 8 + P ≤ file.length := by
    rw [← hfile, List.length_append, List.length_map, List.length_range]
    exact Nat.le_add_right _ _
  have hcount : ∀ off count, off + count ≤ 8 + P → readCount file off count = count := by
    intro off count h
    unfold readCount
    omega
  have hbs : unsignedAt file 0 = sz := by
    refine wordAt_eq hsz fun j hj => ?_
    rw [hbyte _ (by omega), byteAt, if_pos (by omega), Nat.zero_add]
  have hnb : unsignedAt file 4 = bks.numBlocks := by
    refine wordAt_eq hnum fun j hj => ?_
    rw [hbyte _ (by omega), byteAt, if_neg (by omega), if_pos (by omega), Nat.add_sub_cancel_left]
  refine ⟨file, ⟨bks.numBlocks, P, fun a => file.getD (8 + a) 0, false⟩, hstored, ?_, rfl, rfl,
    fun a ha => ?_⟩
  · rw [blockLoad, hbs, hnb]
    dsimp only
    rw [hP, hcount 0 4 (by omega), hcount 4 4 (by omega), hcount 8 P (by omega)]
    simp
  · change file.getD (8 + a) 0 = _
    rw [hbyte _ (Nat.add_lt_add_left ha 8), byteAt, if_neg (by omega), if_neg (by omega),
      Nat.add_sub_cancel_left]

end Blocks

end Sthreads.Snfs
