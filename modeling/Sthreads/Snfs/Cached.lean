/-
The file system with its three caches (`snfs_server/fs.c`).

A cache's functions are those of the library, at the cache's size and over what is
behind it: the blocks for `bcache`, `inode_tab` for `icache`, and the cached blocks for
`dcache`.  The code writes the loops out for each cache; `ic_dirty` and `ic_invalidate`
exist for `icache` only.

`lru_clock` does not wrap here.  The record has two things of the C library as well:
the readings of `time(NULL)` still to come, and the position `strtok` keeps between
calls.
-/
import Sthreads.Lib.Cache
import Sthreads.Snfs.Code

namespace Sthreads.Snfs

/-- `struct fs_` without its caches -/
structure Store where
  blocks : Blocks 512
  inodeBmap : Page 512
  blkBmap : Page 512
  inodeTab : Nat → Inode

/-- `struct fs_` -/
structure Fs extends Store where
  bcache : Fin 10 → Entry Nat (Page 512)
  icache : Fin 4 → Entry Nat Inode
  /-- The key is `dir_inodeid` and `block_no`. -/
  dcache : Fin 4 → Entry (Nat × Nat) (Page 512)
  lruClock : Nat
  /-- What `time(NULL)` will return. -/
  readings : Nat → Int
  /-- What is left of the string given to `strtok`. -/
  strtokRest : List UInt8

namespace Store

/-- `block_write(fs->blocks, blkno, buf)` -/
def writeBlock (st : Store) (blkno : Nat) (buf : Page 512) : Store :=
  { st with blocks := (st.blocks.blockWrite blkno buf).2 }

/-- `fsi_load_fsdata` -/
def loadFsdata (st : Store) : Store :=
  let (_, blkBmap, blocks) := st.blocks.blockRead 0 st.blkBmap
  let (_, inodeBmap, blocks) := blocks.blockRead 1 st.inodeBmap
  let (pages, blocks) := (List.range 8).foldl
    (fun r i =>
      let (_, page, blocks) := r.2.blockRead (i + 2) (r.1 i)
      (Function.update r.1 i page, blocks))
    (tabPage st.inodeTab, blocks)
  ⟨blocks, inodeBmap, blkBmap, tabOfPages pages⟩

/-- The part of `fsi_store_fsdata` that writes the blocks. -/
def storeBlocks (st : Store) : Store :=
  (List.range 8).foldl (fun s i => s.writeBlock (i + 2) (tabPage st.inodeTab i))
    ((st.writeBlock 0 st.blkBmap).writeBlock 1 st.inodeBmap)

/-- The part of `fs_format` before `fsi_store_fsdata`. -/
def formatted (st : Store) : Store :=
  let st := (List.range (asInt st.blocks.blockNumBlocks).toNat).foldl
    (fun s i => s.writeBlock i fun _ => 0) st
  { st with
    blkBmap := (List.range 10).foldl bmapSet st.blkBmap
    inodeBmap := bmapSet (bmapSet st.inodeBmap 0) 1
    inodeTab := Function.update st.inodeTab 1 (fsiInodeInit 1) }

/-- `fs_new` up to `fsi_load_fsdata` -/
def new (numBlocks : Nat) : Except Halt Store :=
  match blockNew 512 numBlocks with
  | none => .error .null
  | some blocks => .ok ⟨blocks, fun _ => 0, fun _ => 0, fun _ => ⟨0, 0, fun _ => 0, fun _ => 0⟩⟩

end Store

namespace Fs

/-- `WRITEBACK_INTERVAL` -/
def writebackInterval : Int := 10

/-- `++fs->lru_clock` -/
def tick (fs : Fs) : Nat × Fs := (fs.lruClock + 1, { fs with lruClock := fs.lruClock + 1 })

/-- `time(NULL)` -/
def time (fs : Fs) : Int × Fs :=
  (fs.readings 0, { fs with readings := fun i => fs.readings (i + 1) })

/-! ### Block cache -/

/-- What is behind `bcache`. -/
def bcBacking : Backing Fs Nat (Page 512) where
  read blkno buf fs :=
    let (_, buf, blocks) := fs.blocks.blockRead blkno buf
    (buf, { fs with blocks := blocks })
  write blkno buf fs := { fs with blocks := (fs.blocks.blockWrite blkno buf).2 }
  tick := tick
  time := time

/-- Keep what a function on `bcache` has made of it. -/
def withBcache (p : (Fin 10 → Entry Nat (Page 512)) × Fs) : Fs := { p.2 with bcache := p.1 }

/-- `bc_read` -/
def bcRead (blkno : Nat) (fs : Fs) : Page 512 × Fs :=
  let (i, p) := Cache.fetch bcBacking writebackInterval blkno (fs.bcache, fs)
  ((p.1 i).data, withBcache p)

/-- `bc_write` -/
def bcWrite (blkno : Nat) (buf : Page 512) (fs : Fs) : Fs :=
  withBcache (Cache.store bcBacking writebackInterval blkno buf (fs.bcache, fs))

/-- `bc_flush_all` -/
def bcFlushAll (fs : Fs) : Fs := withBcache (Cache.flushAll bcBacking (fs.bcache, fs))

/-! ### Inode cache -/

/-- What is behind `icache`. -/
def icBacking : Backing Fs Nat Inode where
  read id _ fs := (fs.inodeTab id, fs)
  write id n fs := { fs with inodeTab := Function.update fs.inodeTab id n }
  tick := tick
  time := time

def withIcache (p : (Fin 4 → Entry Nat Inode) × Fs) : Fs := { p.2 with icache := p.1 }

/-- `ic_get`: the pointer is the number of the slot. -/
def icGet (id : Nat) (fs : Fs) : Nat × Fs :=
  let (i, p) := Cache.fetch icBacking writebackInterval id (fs.icache, fs)
  (i, withIcache p)

/-- The slot a pointer points to. -/
def slot (p : Nat) : Fin 4 := Fin.ofNat 4 p

/-- Write the inode a pointer points to. -/
def setInode (p : Nat) (n : Inode) (fs : Fs) : Fs :=
  { fs with icache := Function.update fs.icache (slot p) { fs.icache (slot p) with data := n } }

/-- `ic_dirty` -/
def icDirty (id : Nat) (fs : Fs) : Fs :=
  match Cache.find fs.icache id with
  | none => fs
  | some i =>
      let fs := { fs with inodeTab := Function.update fs.inodeTab id (fs.icache i).data }
      if (fs.icache i).dirty then fs
      else
        let (now, fs) := fs.time
        { fs with icache :=
            Function.update fs.icache i { fs.icache i with dirty := true, dirtyTime := now } }

/-- `ic_invalidate` -/
def icInvalidate (id : Nat) (fs : Fs) : Fs :=
  withIcache <| (List.finRange 4).foldl
    (fun p i =>
      if (p.1 i).valid && (p.1 i).key == id then
        let p := Cache.flush icBacking i p
        (Function.update p.1 i { p.1 i with valid := false }, p.2)
      else p)
    (fs.icache, fs)

/-- `ic_flush_all` -/
def icFlushAll (fs : Fs) : Fs := withIcache (Cache.flushAll icBacking (fs.icache, fs))

/-! ### Directory cache -/

/-- What is behind `dcache`. -/
def dcBacking : Backing Fs (Nat × Nat) (Page 512) where
  read k _ fs := fs.bcRead k.2
  write k page fs := fs.bcWrite k.2 page
  tick := tick
  time := time

def withDcache (p : (Fin 4 → Entry (Nat × Nat) (Page 512)) × Fs) : Fs := { p.2 with dcache := p.1 }

/-- `dc_read` -/
def dcRead (dirid blkno : Nat) (fs : Fs) : Page 512 × Fs :=
  let (i, p) := Cache.fetch dcBacking writebackInterval (dirid, blkno) (fs.dcache, fs)
  ((p.1 i).data, withDcache p)

/-- `dc_write` -/
def dcWrite (dirid blkno : Nat) (page : Page 512) (fs : Fs) : Fs :=
  withDcache (Cache.store dcBacking writebackInterval (dirid, blkno) page (fs.dcache, fs))

/-- `dc_flush_all` -/
def dcFlushAll (fs : Fs) : Fs := withDcache (Cache.flushAll dcBacking (fs.dcache, fs))

/-! ### Metadata -/

def withStore (fs : Fs) (st : Store) : Fs := { fs with toStore := st }

/-- `fsi_store_fsdata` -/
def storeFsdata (fs : Fs) : Fs :=
  let fs := fs.icFlushAll.dcFlushAll.bcFlushAll
  fs.withStore fs.storeBlocks

/-- A file system with empty caches. -/
def empty (st : Store) (readings : Nat → Int) : Fs where
  toStore := st
  bcache _ := ⟨false, false, 0, 0, 0, fun _ => 0⟩
  icache _ := ⟨false, false, 0, 0, 0, ⟨0, 0, fun _ => 0, fun _ => 0⟩⟩
  dcache _ := ⟨false, false, (0, 0), 0, 0, fun _ => 0⟩
  lruClock := 0
  readings := readings
  strtokRest := []

/-- Halt if an access has left the allocated blocks. -/
def checked (fs : Fs) : Except Halt Fs := if fs.blocks.wild then .error .wild else .ok fs

/-- `fs_new` -/
def fsNew (numBlocks : Nat) (readings : Nat → Int) : Except Halt Fs := do
  (empty (← Store.new numBlocks).loadFsdata readings).checked

/-- `fs_format`, whose argument is not `NULL` -/
def fsFormat (fs : Fs) : Except Halt Fs := (fs.withStore fs.formatted).storeFsdata.checked

/-! ### The operations -/

/-- Do an operation. -/
def exec : (o : FsOp) → Fs → o.Res × Fs
  | .icGet id, fs => fs.icGet id
  | .inode p, fs => ((fs.icache (slot p)).data, fs)
  | .setSize p n, fs => ((), fs.setInode p { (fs.icache (slot p)).data with size := n })
  | .setBlock p i b, fs =>
      let inode := (fs.icache (slot p)).data
      ((), fs.setInode p { inode with blocks := Function.update inode.blocks i b })
  | .icDirty id, fs => ((), fs.icDirty id)
  | .icInvalidate id, fs => ((), fs.icInvalidate id)
  | .bcRead blkno _, fs => fs.bcRead blkno
  | .bcWrite blkno buf, fs => ((), fs.bcWrite blkno buf)
  | .dcRead dirid blkno _, fs => fs.dcRead dirid blkno
  | .dcWrite dirid blkno page, fs => ((), fs.dcWrite dirid blkno page)
  | .inodeBmap, fs => (fs.inodeBmap, fs)
  | .blkBmap, fs => (fs.blkBmap, fs)
  | .setInodeBmap num, fs => ((), { fs with inodeBmap := bmapSet fs.inodeBmap num })
  | .setBlkBmap num, fs => ((), { fs with blkBmap := bmapSet fs.blkBmap num })
  | .blockNumBlocks, fs => (fs.blocks.blockNumBlocks, fs)
  | .inodeInit id itype, fs =>
      ((), { fs with inodeTab := Function.update fs.inodeTab id (fsiInodeInit itype) })
  | .storeFsdata, fs => ((), fs.storeFsdata)
  | .strtok s, fs =>
      let (token, rest) := strtok (s.getD fs.strtokRest)
      (token, { fs with strtokRest := rest })

/-- The inode table has 64 entries. -/
def inTable : FsOp → Bool
  | .icGet id | .inodeInit id _ => decide (id < 64)
  | _ => true

/-- The operations on the cached file system. -/
def handler : Prog.Handler FsOp FsOp.Res Halt Fs := fun o fs =>
  if inTable o then
    match exec o fs with
    | (r, fs) => if fs.blocks.wild then .error .wild else .ok (r, fs)
  else .error .wild

end Fs

/-- The blocks hold the whole file system: nothing is dirty, and the metadata is written. -/
structure Fs.Durable (fs : Fs) : Prop where
  bcache : ∀ i, (fs.bcache i).dirty = false
  icache : ∀ i, (fs.icache i).dirty = false
  dcache : ∀ i, (fs.dcache i).dirty = false
  blkBmap : fs.blocks.page 0 = fs.blkBmap
  inodeBmap : fs.blocks.page 1 = fs.inodeBmap
  inodeTab : ∀ i, i < 8 → fs.blocks.page (i + 2) = tabPage fs.inodeTab i

/-- States reached by `fs_new`, one `fs_format` and then calls. -/
inductive Reached (numBlocks : Nat) : Fs → Prop
  | format {readings : Nat → Int} {fs fs' : Fs} (hnew : Fs.fsNew numBlocks readings = .ok fs)
      (hformat : fs.fsFormat = .ok fs') : Reached numBlocks fs'
  | call {junk : Page 512} {c : Call} {r : Reply} {fs fs' : Fs} (h : Reached numBlocks fs)
      (hok : c.Ok) (hcall : Prog.run Fs.handler (c.prog junk) fs = .ok (r, fs')) :
      Reached numBlocks fs'

end Sthreads.Snfs
