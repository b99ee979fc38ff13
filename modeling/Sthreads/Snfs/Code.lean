/-
The functions of the file system layer (`snfs_server/fs.c`) above its caches.

They are written as programs over the operations below, so that the same text runs on
the cached file system and on the one without caches.  What `ic_get` returns is a
pointer, a number here, and `ic_get` does not promise that the inode it points to stays
there: `inode` follows the pointer when the source does.

A loop of the source is a recursion on a number of rounds that is enough for it.  Where
the source goes outside an array the program halts, and it halts where the source calls
`exit`.  The outputs a function has written through its pointer arguments are part of
what it returns, `none` for one not written.  The arrays on its stack are not
initialised; `junk` is what they hold.
-/
import Sthreads.Lib.Prog
import Sthreads.Snfs.Types

namespace Sthreads.Snfs

/-- How a function does not return. -/
inductive Halt
  /-- `exit(-1)` -/
  | exit
  /-- `fs->blocks` is `NULL`. -/
  | null
  /-- Outside the allocated blocks, or outside `inode_tab`. -/
  | wild
  /-- Past the end of a bitmap. -/
  | bmapOverrun
  /-- Past the end of `blocks` in an inode. -/
  | inodeOverrun
  /-- Past the end of `line` in `fs_lookup`. -/
  | lineOverrun
  /-- Past the end of `entries` in `snfs_readdir`. -/
  | entriesOverrun
  /-- More rounds than a loop has. -/
  | rounds
  deriving DecidableEq, Repr

/-- What the functions do to the file system. -/
inductive FsOp
  | icGet (id : Nat)
  /-- `*p` -/
  | inode (p : Nat)
  /-- `p->size = n` -/
  | setSize (p n : Nat)
  /-- `p->blocks[i] = b` -/
  | setBlock (p i b : Nat)
  | icDirty (id : Nat)
  | icInvalidate (id : Nat)
  | bcRead (blkno : Nat) (buf : Page 512)
  | bcWrite (blkno : Nat) (buf : Page 512)
  | dcRead (dirid blkno : Nat) (page : Page 512)
  | dcWrite (dirid blkno : Nat) (page : Page 512)
  | inodeBmap
  | blkBmap
  | setInodeBmap (num : Nat)
  | setBlkBmap (num : Nat)
  | blockNumBlocks
  /-- `fsi_inode_init(&fs->inode_tab[id], type)` -/
  | inodeInit (id itype : Nat)
  | storeFsdata
  /-- `strtok(s, "/")`, where `none` is `NULL` -/
  | strtok (s : Option (List UInt8))

/-- What the operations return. -/
abbrev FsOp.Res : FsOp → Type
  | icGet _ => Nat
  | inode _ => Inode
  | bcRead .. | dcRead .. | inodeBmap | blkBmap => Page 512
  | blockNumBlocks => Nat
  | strtok _ => Option (List UInt8)
  | _ => Unit

abbrev FsM := Prog FsOp FsOp.Res Halt

def icGet (id : Nat) : FsM Nat := .perform (FsOp.icGet id)
def inode (p : Nat) : FsM Inode := .perform (FsOp.inode p)
def setSize (p n : Nat) : FsM Unit := .perform (FsOp.setSize p n)
def icDirty (id : Nat) : FsM Unit := .perform (FsOp.icDirty id)
def icInvalidate (id : Nat) : FsM Unit := .perform (FsOp.icInvalidate id)
def bcRead (blkno : Nat) (buf : Page 512) : FsM (Page 512) := .perform (FsOp.bcRead blkno buf)
def bcWrite (blkno : Nat) (buf : Page 512) : FsM Unit := .perform (FsOp.bcWrite blkno buf)
def dcRead (dirid blkno : Nat) (page : Page 512) : FsM (Page 512) :=
  .perform (FsOp.dcRead dirid blkno page)
def dcWrite (dirid blkno : Nat) (page : Page 512) : FsM Unit :=
  .perform (FsOp.dcWrite dirid blkno page)
def inodeBmap : FsM (Page 512) := .perform FsOp.inodeBmap
def blkBmap : FsM (Page 512) := .perform FsOp.blkBmap
def setInodeBmap (num : Nat) : FsM Unit := .perform (FsOp.setInodeBmap num)
def setBlkBmap (num : Nat) : FsM Unit := .perform (FsOp.setBlkBmap num)
def blockNumBlocks : FsM Nat := .perform FsOp.blockNumBlocks
def inodeInit (id itype : Nat) : FsM Unit := .perform (FsOp.inodeInit id itype)
def storeFsdata : FsM Unit := .perform FsOp.storeFsdata
def strtokOp (s : Option (List UInt8)) : FsM (Option (List UInt8)) := .perform (FsOp.strtok s)

/-- `p->blocks[i]` -/
def blockOf (p i : Nat) : FsM Nat :=
  if i < 10 then do return (← inode p).blocks i else .halt .inodeOverrun

/-- `p->blocks[i] = b` -/
def setBlock (p i b : Nat) : FsM Unit :=
  if i < 10 then .perform (FsOp.setBlock p i b) else .halt .inodeOverrun

/-! ### Helpers -/

/-- The loop of `fsi_bmap_find_free`, from bit `i` on. -/
def findFreeFrom (bmap : Page 512) : Nat → Nat → Except Halt (Option Nat)
  | 0, _ => .ok none
  | left + 1, i =>
      if i ≥ 4096 then .error .bmapOverrun
      else if bmapIsset bmap i then findFreeFrom bmap left (i + 1)
      else .ok (some i)

/-- `fsi_bmap_find_free`, whose `size` is an `int` -/
def fsiBmapFindFree (bmap : Page 512) (size : Int) : Except Halt (Option Nat) :=
  findFreeFrom bmap size.toNat 0

/-- `fsi_bmap_find_free(fs->inode_bmap, ITAB_SIZE, _)` -/
def findFreeInode : FsM (Option Nat) := do
  match fsiBmapFindFree (← inodeBmap) 64 with
  | .ok r => return r
  | .error e => .halt e

/-- `fsi_bmap_find_free(fs->blk_bmap, block_num_blocks(fs->blocks), _)` -/
def findFreeBlk : FsM (Option Nat) := do
  let bmap ← blkBmap
  match fsiBmapFindFree bmap (asInt (← blockNumBlocks)) with
  | .ok r => return r
  | .error e => .halt e

/-- The inner loop of `fsi_dir_search`: the entries from `i` on of a page. -/
def searchPage (page : Page 512) (file : List UInt8) : Nat → Nat → Option Nat
  | 0, _ => none
  | left + 1, i =>
      if strEq page (16 * i) file then some (entryId page i) else searchPage page file left (i + 1)

/-- The outer loop of `fsi_dir_search`, with `num` entries to go. -/
def searchPages (idir dir : Nat) (file : List UInt8) :
    Nat → Nat → Nat → Page 512 → FsM (Option Nat)
  | 0, num, _, _ => if num > 0 then .halt .rounds else return none
  | left + 1, num, iblock, page =>
      if num > 0 then do
        let page ← dcRead dir (← blockOf idir iblock) page
        match searchPage page file (min num 32) 0 with
        | some id => return some id
        | none => searchPages idir dir file left (num - 32) (iblock + 1) page
      else return none

/-- `fsi_dir_search`: the inode of the entry, `none` for -1 -/
def fsiDirSearch (junk : Page 512) (dir : Nat) (file : List UInt8) : FsM (Option Nat) := do
  let idir ← icGet dir
  let num := (← inode idir).size / 16
  searchPages idir dir file num num 0 junk

/-! ### Attributes and names -/

/-- `fs_file_attrs_t` -/
structure Attrs where
  inodeid : Nat
  itype : Nat
  size : Nat
  numEntries : Int
  deriving DecidableEq, Repr

/-- `fs_get_attrs` -/
def fsGetAttrs (file : Nat) : FsM (Int × Option Attrs) := do
  if file ≥ 64 then return (-1, none)
  if !bmapIsset (← inodeBmap) file then return (-1, none)
  let n ← inode (← icGet file)
  if n.itype = 1 then return (0, some ⟨file, n.itype, n.size, ↑(n.size / 16)⟩)
  if n.itype = 2 then return (0, some ⟨file, n.itype, n.size, -1⟩)
  .halt .exit

/-- The loop of `fs_lookup`: `dir` is where the token is looked up. -/
def lookupTokens (junk : Page 512) :
    Nat → Option (List UInt8) → Nat → Option Nat → FsM (Int × Option Nat)
  | _, none, _, fileid => return (1, fileid)
  | 0, some _, _, _ => .halt .rounds
  | left + 1, some token, dir, fileid => do
      if !bmapIsset (← inodeBmap) dir then return (-1, fileid)
      if (← inode (← icGet dir)).itype ≠ 1 then return (-1, fileid)
      match ← fsiDirSearch junk dir token with
      | none => return (0, fileid)
      | some fid => lookupTokens junk left (← strtokOp none) fid (some fid)

/-- `fs_lookup`, with what it wrote to `*fileid` -/
def fsLookup (junk : Page 512) (file : CStr) : FsM (Int × Option Nat) := do
  if file.chars.head? ≠ some slash then return (-1, none)
  if file.chars.length + 1 > 200 then .halt .lineOverrun
  let token ← strtokOp (some file.chars)
  lookupTokens junk file.chars.length token 1 none

/-! ### Reading and writing -/

/-- `num` bytes of a block from `start` -/
def slice (block : Page 512) (start num : Nat) : List UInt8 :=
  (List.range num).map fun k => block.get (start + k)

/-- The loop of `fs_read`, with the bytes it has copied. -/
def readBlocks (ifile offset max : Nat) :
    Nat → Nat → Nat → Page 512 → List UInt8 → FsM (Nat × List UInt8)
  | 0, _, pos, _, buffer => return (pos, buffer)
  | left + 1, iblock, pos, block, buffer =>
      if pos < max then do
        let block ← bcRead (← blockOf ifile iblock) block
        let start := if pos = 0 then offset % 512 else 0
        let num := min (512 - start) (max - pos)
        readBlocks ifile offset max left (iblock + 1) (pos + num) block
          (buffer ++ slice block start num)
      else return (pos, buffer)

/-- `fs_read`, with what it wrote to `*nread` and to `buffer` -/
def fsRead (junk : Page 512) (file offset count : Nat) :
    FsM (Int × Option Nat × List UInt8) := do
  if file ≥ 64 then return (-1, none, [])
  if !bmapIsset (← inodeBmap) file then return (-1, none, [])
  let ifile ← icGet file
  let n ← inode ifile
  if n.itype ≠ 2 then return (-1, none, [])
  if offset ≥ n.size then return (0, some 0, [])
  let max := (asInt (min count (n.size - offset))).toNat
  let iblock := offset / 512
  let (pos, buffer) ← readBlocks ifile offset max (offsetToBlocks n.size - iblock) iblock 0 junk []
  return (0, some pos, buffer)

/-- The loop of `fs_write` that allocates blocks for the entries from `i` on. -/
def allocBlocks (ifile : Nat) : Nat → Nat → FsM Bool
  | 0, _ => return true
  | left + 1, i => do
      match ← findFreeBlk with
      | none => return false
      | some b => do
          setBlock ifile i b
          setBlkBmap b
          allocBlocks ifile left (i + 1)

/-- `for (int i = start; i < BLOCK_SIZE && num < count; i++, num++) block[i] = buffer[num];` -/
def copyIn (block : Page 512) (buffer : Nat → UInt8) (start num count : Nat) : Page 512 × Nat :=
  let len := min (512 - start) (count - num)
  (fun k => if start ≤ k ∧ k < start + len then buffer (num + (k - start)) else block k, num + len)

/-- The loop of `fs_write` over the blocks the file had. -/
def writeWithin (ifile offset count : Nat) (buffer : Nat → UInt8) :
    Nat → Nat → Nat → Page 512 → FsM (Nat × Nat × Page 512)
  | 0, iblock, num, block => return (iblock, num, block)
  | left + 1, iblock, num, block =>
      if num < count then do
        let b ← blockOf ifile iblock
        let block ← bcRead b block
        let start := if num = 0 then offset % 512 else 0
        let (block, num) := copyIn block buffer start num count
        bcWrite b block
        writeWithin ifile offset count buffer left (iblock + 1) num block
      else return (iblock, num, block)

/-- The loop of `fs_write` over the blocks it has allocated. -/
def writeNew (ifile count : Nat) (buffer : Nat → UInt8) :
    Nat → Nat → Nat → Page 512 → FsM Nat
  | 0, _, num, _ => return num
  | left + 1, iblock, num, block =>
      if num < count then do
        let b ← blockOf ifile iblock
        let (block, num) := copyIn block buffer 0 num count
        bcWrite b block
        writeNew ifile count buffer left (iblock + 1) num block
      else return num

/-- `fs_write` after the allocation of blocks -/
def writeData (junk : Page 512) (ifile file offset count blksUsed blksReq : Nat)
    (buffer : Nat → UInt8) : FsM Int := do
  let icount := (asInt count).toNat
  let (iblock, num, block) ←
    writeWithin ifile offset icount buffer (blksUsed - offset / 512) (offset / 512) 0 junk
  let num ← writeNew ifile icount buffer (blksUsed + blksReq - iblock) iblock num block
  if (num : Int) ≠ asInt count then .halt .exit
  setSize ifile (max ((offset + count) % 2 ^ 32) (← inode ifile).size)
  icDirty file
  storeFsdata
  return 0

/-- `fs_write` -/
def fsWrite (junk : Page 512) (file offset count : Nat) (buffer : Nat → UInt8) : FsM Int := do
  if file ≥ 64 then return -1
  if !bmapIsset (← inodeBmap) file then return -1
  let ifile ← icGet file
  let n ← inode ifile
  if n.itype ≠ 2 then return -1
  let offset := min offset n.size
  let blksUsed := offsetToBlocks n.size
  let blksReq := max (offsetToBlocks ((offset + count) % 2 ^ 32)) blksUsed - blksUsed
  if blksReq > 10 - blksUsed then return -1
  if !(← allocBlocks ifile blksReq blksUsed) then return -1
  writeData junk ifile file offset count blksUsed blksReq buffer

/-! ### Creating -/

/-- The part of `fs_create` that gives a full directory another block: the pointer to its inode,
`none` if there are no free blocks. -/
def growDir (dir idir : Nat) : FsM (Option Nat) := do
  let n ← inode idir
  if n.size % 512 = 0 then
    match ← findFreeBlk with
    | none => return none
    | some fblock => do
        setBlkBmap fblock
        setBlock idir (n.size / 512) fblock
        icDirty dir
        return some (← icGet dir)
  else return some idir

/-- The part of `fs_create` that writes the entry and the inode. -/
def addEntry (itype : Nat) (junk : Page 512) (dir idir finode : Nat) (file : List UInt8) :
    FsM Unit := do
  let blkno ← blockOf idir ((← inode idir).size / 512)
  let page ← dcRead dir blkno junk
  let i := (← inode idir).size % 512 / 16
  dcWrite dir blkno (setEntry page i file finode)
  setSize idir (((← inode idir).size + 16) % 2 ^ 32)
  icDirty dir
  setInodeBmap finode
  inodeInit finode itype
  icInvalidate finode
  storeFsdata

/-- What `fs_create` and `fs_mkdir` share: everything but the type of the new inode. -/
def fsCreateOf (itype : Nat) (junk : Page 512) (dir : Nat) (file : CStr) :
    FsM (Int × Option Nat) := do
  if dir ≥ 64 then return (-1, none)
  if file.chars.length = 0 ∨ file.chars.length + 1 > 14 then return (-1, none)
  if !bmapIsset (← inodeBmap) dir then return (-1, none)
  let idir ← icGet dir
  if (← inode idir).itype ≠ 1 then return (-1, none)
  match ← fsiDirSearch junk dir file.chars with
  | some id => return (-1, some id)
  | none =>
      match ← findFreeInode with
      | none => return (-1, none)
      | some finode =>
          match ← growDir dir idir with
          | none => return (-1, none)
          | some idir => do
              addEntry itype junk dir idir finode file.chars
              return (0, some finode)

/-- `fs_create`, with what it wrote to `*fileid` -/
def fsCreate (junk : Page 512) (dir : Nat) (file : CStr) : FsM (Int × Option Nat) :=
  fsCreateOf 2 junk dir file

/-- `fs_mkdir`, with what it wrote to `*newdirid` -/
def fsMkdir (junk : Page 512) (dir : Nat) (newdir : CStr) : FsM (Int × Option Nat) :=
  fsCreateOf 1 junk dir newdir

/-! ### Listing -/

/-- The inner loop of `fs_readdir`: the entries from `i` on of a page. -/
def listPage (page : Page 512) : Nat → Nat → FsM (List (List UInt8 × Nat))
  | 0, _ => return []
  | left + 1, i => do
      let itype := (← inode (← icGet (entryId page i))).itype
      return (strAt page (16 * i) 512, itype) :: (← listPage page left (i + 1))

/-- The outer loop of `fs_readdir`, with `num` entries to go. -/
def listPages (idir dir : Nat) :
    Nat → Nat → Nat → Page 512 → FsM (List (List UInt8 × Nat))
  | 0, num, _, _ => if num > 0 then .halt .rounds else return []
  | left + 1, num, iblock, page =>
      if num > 0 then do
        let page ← dcRead dir (← blockOf idir iblock) page
        let these ← listPage page (min num 32) 0
        return these ++ (← listPages idir dir left (num - 32) (iblock + 1) page)
      else return []

/-- `fs_readdir`, with the entries it wrote -/
def fsReaddir (junk : Page 512) (dir : Nat) (maxentries : Int) :
    FsM (Int × Option (List (List UInt8 × Nat))) := do
  if dir ≥ 64 ∨ maxentries < 0 then return (-1, none)
  if !bmapIsset (← inodeBmap) dir then return (-1, none)
  let idir ← icGet dir
  let n ← inode idir
  if n.itype ≠ 1 then return (-1, none)
  let num := min (n.size / 16) maxentries.toNat
  return (0, some (← listPages idir dir num num 0 junk))

/-- `fs_copy`, which is still to do -/
def fsCopy (_srcpath _tgtpath : CStr) : FsM Int := return -1

/-! ### Calls -/

/-- A call of the file system's interface. -/
inductive Call
  | getAttrs (file : Nat)
  | lookup (file : CStr)
  | read (file offset count : Nat)
  | write (file offset count : Nat) (buffer : Nat → UInt8)
  | create (dir : Nat) (file : CStr)
  | mkdir (dir : Nat) (newdir : CStr)

/-- What a call returns and writes. -/
inductive Reply
  | attrs (status : Int) (attrs : Option Attrs)
  | lookup (status : Int) (fileid : Option Nat)
  | read (status : Int) (nread : Option Nat) (buffer : List UInt8)
  | write (status : Int)
  | create (status : Int) (fileid : Option Nat)
  deriving DecidableEq, Repr

namespace Call

def prog (junk : Page 512) : Call → FsM Reply
  | getAttrs file => do
      let (status, attrs) ← fsGetAttrs file
      return .attrs status attrs
  | lookup file => do
      let (status, fileid) ← fsLookup junk file
      return .lookup status fileid
  | read file offset count => do
      let (status, nread, buffer) ← fsRead junk file offset count
      return .read status nread buffer
  | write file offset count buffer => do
      return .write (← fsWrite junk file offset count buffer)
  | create dir file => do
      let (status, fileid) ← fsCreate junk dir file
      return .create status fileid
  | mkdir dir newdir => do
      let (status, fileid) ← fsMkdir junk dir newdir
      return .create status fileid

/-- `count <= MAX_WRITE_DATA`, as `snfs_write` checks before it calls `fs_write` -/
def Ok : Call → Prop
  | write _ _ count _ => count ≤ 1024
  | _ => True

end Call

end Sthreads.Snfs
