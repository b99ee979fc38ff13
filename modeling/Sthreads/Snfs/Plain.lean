/-
The file system without caches: `bc_read`, `bc_write`, `dc_read` and `dc_write` are
`block_read` and `block_write`, `ic_get` returns `&inode_tab[id]`, and `ic_dirty` and
`ic_invalidate` do nothing.  Everything else is the same code.
-/
import Sthreads.Snfs.Cached

namespace Sthreads.Snfs

/-- `struct fs_` without caches, and what is left of the string given to `strtok` -/
structure Plain extends Store where
  strtokRest : List UInt8

namespace Plain

def withStore (fs : Plain) (st : Store) : Plain := { fs with toStore := st }

/-- `block_read(fs->blocks, blkno, buf)` -/
def readBlock (blkno : Nat) (buf : Page 512) (fs : Plain) : Page 512 × Plain :=
  let (_, buf, blocks) := fs.blocks.blockRead blkno buf
  (buf, { fs with blocks := blocks })

/-- `inode_tab[p] = n` -/
def setInode (p : Nat) (n : Inode) (fs : Plain) : Plain :=
  { fs with inodeTab := Function.update fs.inodeTab p n }

/-- Do an operation. -/
def exec : (o : FsOp) → Plain → o.Res × Plain
  | .icGet id, fs => (id, fs)
  | .inode p, fs => (fs.inodeTab p, fs)
  | .setSize p n, fs => ((), fs.setInode p { fs.inodeTab p with size := n })
  | .setBlock p i b, fs =>
      let inode := fs.inodeTab p
      ((), fs.setInode p { inode with blocks := Function.update inode.blocks i b })
  | .icDirty _, fs => ((), fs)
  | .icInvalidate _, fs => ((), fs)
  | .bcRead blkno buf, fs => fs.readBlock blkno buf
  | .bcWrite blkno buf, fs => ((), fs.withStore (fs.writeBlock blkno buf))
  | .dcRead _ blkno page, fs => fs.readBlock blkno page
  | .dcWrite _ blkno page, fs => ((), fs.withStore (fs.writeBlock blkno page))
  | .inodeBmap, fs => (fs.inodeBmap, fs)
  | .blkBmap, fs => (fs.blkBmap, fs)
  | .setInodeBmap num, fs => ((), { fs with inodeBmap := bmapSet fs.inodeBmap num })
  | .setBlkBmap num, fs => ((), { fs with blkBmap := bmapSet fs.blkBmap num })
  | .blockNumBlocks, fs => (fs.blocks.blockNumBlocks, fs)
  | .inodeInit id itype, fs =>
      ((), { fs with inodeTab := Function.update fs.inodeTab id (fsiInodeInit itype) })
  | .storeFsdata, fs => ((), fs.withStore fs.storeBlocks)
  | .strtok s, fs =>
      let (token, rest) := strtok (s.getD fs.strtokRest)
      (token, { fs with strtokRest := rest })

/-- The operations on the file system without caches. -/
def handler : Prog.Handler FsOp FsOp.Res Halt Plain := fun o fs =>
  if Fs.inTable o then
    match exec o fs with
    | (r, fs) => if fs.blocks.wild then .error .wild else .ok (r, fs)
  else .error .wild

/-- Halt if an access has left the allocated blocks. -/
def checked (fs : Plain) : Except Halt Plain := if fs.blocks.wild then .error .wild else .ok fs

/-- `fs_new` -/
def fsNew (numBlocks : Nat) : Except Halt Plain := do
  (Plain.mk (← Store.new numBlocks).loadFsdata []).checked

/-- `fs_format`, whose argument is not `NULL` -/
def fsFormat (fs : Plain) : Except Halt Plain :=
  (fs.withStore fs.formatted.storeBlocks).checked

end Plain

/-- Make calls one after the other: the replies, and the state at the end or how the process
halted.  `junk i` is what is on the stack at call `i`. -/
def runCalls {σ : Type} (h : Prog.Handler FsOp FsOp.Res Halt σ) :
    (Nat → Page 512) → List Call → σ → List Reply × Except Halt σ
  | _, [], s => ([], .ok s)
  | junk, c :: rest, s =>
      match Prog.run h (c.prog (junk 0)) s with
      | .ok (r, s') =>
          let (replies, e) := runCalls h (fun i => junk (i + 1)) rest s'
          (r :: replies, e)
      | .error e => ([], .error e)

/-- What the caller sees of a sequence of calls. -/
def outcome {σ : Type} (h : Prog.Handler FsOp FsOp.Res Halt σ) (junk : Nat → Page 512)
    (calls : List Call) (s : σ) : List Reply × Except Halt Unit :=
  let (replies, e) := runCalls h junk calls s
  (replies, e.map fun _ => ())

/-- A new file system, and calls one after the other: the state at the end. -/
def Fs.session (numBlocks : Nat) (readings : Nat → Int) (junk : Nat → Page 512)
    (calls : List Call) : Except Halt Fs := do
  (runCalls Fs.handler junk calls (← (← Fs.fsNew numBlocks readings).fsFormat)).2

end Sthreads.Snfs
