/-
Images of the blocks (`snfs_server/block.c`, `block_load` and `block_store`).

An image is `struct blocks_` as it lies in memory: the size of a block, the number of blocks
and the blocks.  Both numbers are taken from the file as they are, and the number of bytes
that is allocated and read is their product modulo `2 ^ 32`.
-/
import Sthreads.Snfs.Types

namespace Sthreads.Snfs

/-- What `read` returns at an offset of a regular file: it transfers no more than `0x7ffff000`
bytes. -/
def readCount (file : List UInt8) (off count : Nat) : Nat :=
  min (min count 0x7ffff000) (file.length - off)

/-- The `unsigned` at an offset of a file. -/
def unsignedAt (file : List UInt8) (off : Nat) : Nat := wordAt (fun k => file.getD k 0) off

/-- `block_load`; there is no file when its name is `NULL` or it cannot be opened. -/
def blockLoad : Option (List UInt8) → Option (Σ sz, Blocks sz)
  | none => none
  | some file =>
      if readCount file 0 4 ≠ 4 then none
      else
        let blockSize := unsignedAt file 0
        if readCount file 4 4 ≠ 4 then none
        else
          let numBlocks := unsignedAt file 4
          let size := numBlocks * blockSize % 2 ^ 32
          if readCount file 8 size ≠ size then none
          else some ⟨blockSize, numBlocks, size, fun a => file.getD (8 + a) 0, false⟩

namespace Blocks

variable {sz : Nat}

/-- `struct blocks_` in memory. -/
def byteAt (bks : Blocks sz) (a : Nat) : UInt8 :=
  if a < 4 then UInt8.ofNat (sz / 256 ^ a)
  else if a < 8 then UInt8.ofNat (bks.numBlocks / 256 ^ (a - 4))
  else bks.blocks (a - 8)

/-- `block_store`: the file afterwards, and the status.  What was in the file before is `old`,
nothing if it is created, and there is no file if it cannot be opened.  `write` transfers no more
than `0x7ffff000` bytes. -/
def blockStore (bks : Blocks sz) (old : Option (List UInt8)) : Option (List UInt8) × Int :=
  match old with
  | none => (none, -1)
  | some old =>
      let size := (8 + sz * bks.numBlocks % 2 ^ 32) % 2 ^ 32
      let status := min size 0x7ffff000
      (some ((List.range status).map bks.byteAt ++ old.drop status),
        if status ≠ size then -1 else 0)

end Blocks

end Sthreads.Snfs
