/-
The storage layer (`snfs_server/block.c`).

The blocks are one array of bytes, allocated by `block_new`; the size of a block is a
parameter of the type.  The sizes and addresses are computed with `unsigned`, that is
modulo `2 ^ 32`, so for very many blocks fewer bytes are allocated than there are block
numbers.  An access outside the allocated bytes has no defined outcome in the source;
here it goes to a byte of its own and sets `wild`, which makes the run that did it halt.
-/
import Mathlib.Algebra.GroupWithZero.Nat

namespace Sthreads.Snfs

/-- The bytes of a block. -/
abbrev Page (n : Nat) := Fin n → UInt8

namespace Page

variable {n : Nat}

/-- A byte; outside the page there is nothing. -/
def get (p : Page n) (i : Nat) : UInt8 := if h : i < n then p ⟨i, h⟩ else 0

def set (p : Page n) (i : Nat) (v : UInt8) : Page n := fun k => if k.val = i then v else p k

theorem get_of_lt (p : Page n) {i : Nat} (h : i < n) : p.get i = p ⟨i, h⟩ := dif_pos h

theorem get_of_ge (p : Page n) {i : Nat} (h : n ≤ i) : p.get i = 0 := dif_neg (by omega)

theorem get_set (p : Page n) (i j : Nat) (v : UInt8) :
    (p.set i v).get j = if j = i ∧ j < n then v else p.get j := by
  by_cases hj : j < n
  · simp [get, set, hj]
  · simp [get, hj]

theorem get_set_of_ne (p : Page n) {i j : Nat} (h : j ≠ i) (v : UInt8) :
    (p.set i v).get j = p.get j := by
  rw [get_set, if_neg fun hc => h hc.1]

end Page

/-- `struct blocks_`, whose `block_size` is `sz` -/
structure Blocks (sz : Nat) where
  numBlocks : Nat
  /-- The length of `blocks` in bytes. -/
  allocated : Nat
  blocks : Nat → UInt8
  /-- Some access has left the allocated bytes. -/
  wild : Bool

/-- `block_new` -/
def blockNew (sz numBlocks : Nat) : Option (Blocks sz) :=
  if numBlocks * sz % 2 ^ 32 = 0 then none
  else some ⟨numBlocks, numBlocks * sz % 2 ^ 32, fun _ => 0, false⟩

namespace Blocks

variable {sz : Nat}

/-- `block_no * bks->block_size` -/
def address (sz blockNo : Nat) : Nat := blockNo * sz % 2 ^ 32

/-- An access to the block at an address. -/
def access (bks : Blocks sz) (addr : Nat) : Blocks sz :=
  { bks with wild := bks.wild || decide (bks.allocated < addr + sz) }

/-- The bytes of a block. -/
def page (bks : Blocks sz) (blockNo : Nat) : Page sz :=
  fun k => bks.blocks (address sz blockNo + k)

/-- `block_num_blocks` -/
def blockNumBlocks (bks : Blocks sz) : Nat := bks.numBlocks

/-- `block_read` into a buffer: the status, the buffer, and the blocks. -/
def blockRead (bks : Blocks sz) (blockNo : Nat) (block : Page sz) : Int × Page sz × Blocks sz :=
  if blockNo ≥ bks.numBlocks then (-1, block, bks)
  else (0, bks.page blockNo, bks.access (address sz blockNo))

/-- `block_write` -/
def blockWrite (bks : Blocks sz) (blockNo : Nat) (block : Page sz) : Int × Blocks sz :=
  if blockNo ≥ bks.numBlocks then (-1, bks)
  else
    let addr := address sz blockNo
    (0, { bks.access addr with
      blocks := fun a => if addr ≤ a ∧ a < addr + sz then block.get (a - addr) else bks.blocks a })

/-- A block number whose block is in the allocated bytes. -/
def Has (bks : Blocks sz) (b : Nat) : Prop :=
  b < bks.numBlocks ∧ b * sz + sz ≤ bks.allocated ∧ bks.allocated < 2 ^ 32

variable {bks : Blocks sz} {b : Nat}

theorem Has.address_eq (h : bks.Has b) : address sz b = b * sz :=
  Nat.mod_eq_of_lt (by unfold Has at h; omega)

/-- A block that is there is read without more ado. -/
theorem blockRead_of_has (h : bks.Has b) (block : Page sz) :
    bks.blockRead b block = (0, bks.page b, bks) := by
  have haddr := h.address_eq
  obtain ⟨hb, hin, -⟩ := h
  unfold blockRead
  rw [if_neg (by omega), access, haddr]
  simp [Nat.not_lt.mpr hin]

theorem blockWrite_numBlocks (b : Nat) (p : Page sz) :
    (bks.blockWrite b p).2.numBlocks = bks.numBlocks := by
  unfold blockWrite
  split <;> rfl

theorem blockWrite_allocated (b : Nat) (p : Page sz) :
    (bks.blockWrite b p).2.allocated = bks.allocated := by
  unfold blockWrite
  split <;> rfl

theorem blockWrite_wild (h : bks.Has b) (p : Page sz) :
    (bks.blockWrite b p).2.wild = bks.wild := by
  have haddr := h.address_eq
  obtain ⟨hb, hin, -⟩ := h
  unfold blockWrite
  rw [if_neg (by omega), haddr]
  simp [access, Nat.not_lt.mpr hin]

theorem blockWrite_has {b' : Nat} (b : Nat) (p : Page sz) :
    (bks.blockWrite b p).2.Has b' ↔ bks.Has b' := by
  unfold Has
  rw [blockWrite_numBlocks, blockWrite_allocated]

theorem blocks_blockWrite (hb : b < bks.numBlocks) (p : Page sz) (a : Nat) :
    (bks.blockWrite b p).2.blocks a =
      if address sz b ≤ a ∧ a < address sz b + sz then p.get (a - address sz b)
      else bks.blocks a := by
  unfold blockWrite
  rw [if_neg (by omega)]

/-- What was written is read back. -/
theorem page_blockWrite_self (hb : b < bks.numBlocks) (p : Page sz) :
    (bks.blockWrite b p).2.page b = p := by
  funext k
  have hk := k.isLt
  have hoff : address sz b + k - address sz b = k := by omega
  rw [page, blocks_blockWrite hb, if_pos (by omega), hoff, Page.get_of_lt _ hk]

/-- Blocks at the same address are the same. -/
theorem page_congr {b' : Nat} (h : address sz b = address sz b') : bks.page b = bks.page b' := by
  unfold page
  rw [h]

/-- Writing a block leaves the others alone. -/
theorem page_blockWrite_other {b' : Nat} (h : bks.Has b) (h' : bks.Has b') (hne : b' ≠ b)
    (p : Page sz) : (bks.blockWrite b p).2.page b' = bks.page b' := by
  funext k
  have hk := k.isLt
  rw [page, blocks_blockWrite h.1, h.address_eq, h'.address_eq, if_neg]
  · rw [page, h'.address_eq]
  rintro ⟨h1, h2⟩
  rcases Nat.lt_or_gt_of_ne hne with hlt | hgt
  · have hle : (b' + 1) * sz ≤ b * sz := Nat.mul_le_mul_right sz hlt
    rw [Nat.add_mul] at hle
    omega
  · have hle : (b + 1) * sz ≤ b' * sz := Nat.mul_le_mul_right sz hgt
    rw [Nat.add_mul] at hle
    omega

end Blocks

end Sthreads.Snfs
