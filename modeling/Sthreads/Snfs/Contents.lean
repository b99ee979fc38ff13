/-
What is in a file system.

The inode of a number is its copy in `icache` if there is a valid one, and else the one of
`inode_tab`.  In the same way a block is the copy in `bcache` or the block itself, and a
page of a directory is the copy in `dcache` or the block behind it.
-/
import Sthreads.Snfs.Cached
import Sthreads.Snfs.Tree

namespace Sthreads.Snfs.Fs

def inodeOf (fs : Fs) (id : Nat) : Inode :=
  match Cache.find fs.icache id with
  | some i => (fs.icache i).data
  | none => fs.inodeTab id

def blockPage (fs : Fs) (blkno : Nat) : Page 512 :=
  match Cache.find fs.bcache blkno with
  | some i => (fs.bcache i).data
  | none => fs.blocks.page blkno

def dirPage (fs : Fs) (dir blkno : Nat) : Page 512 :=
  match Cache.find fs.dcache (dir, blkno) with
  | some i => (fs.dcache i).data
  | none => fs.blockPage blkno

/-- The inode is used. -/
def Used (fs : Fs) (id : Nat) : Prop := bmapIsset fs.inodeBmap id = true

/-- The bytes of a file. -/
def fileBytes (fs : Fs) (id : Nat) : List UInt8 :=
  (List.range (fs.inodeOf id).size).map fun j =>
    (fs.blockPage ((fs.inodeOf id).blocks (j / 512))).get (j % 512)

/-- The entries of a directory. -/
def dirEntries (fs : Fs) (id : Nat) : List (List UInt8 × Nat) :=
  (List.range ((fs.inodeOf id).size / 16)).map fun j =>
    let page := fs.dirPage id ((fs.inodeOf id).blocks (j / 32))
    (strAt page (16 * (j % 32)) 14, entryId page (j % 32))

/-- The object that names lead to from an object. -/
def walk (fs : Fs) : Nat → List (List UInt8) → Option Nat
  | id, [] => some id
  | id, name :: rest =>
      if (fs.inodeOf id).itype = 1 then
        match findEntry (fs.dirEntries id) name with
        | none => none
        | some id' => fs.walk id' rest
      else none

/-- The path leads to the object. -/
def Leads (fs : Fs) (path : List UInt8) (id : Nat) : Prop :=
  path.head? = some slash ∧ fs.walk 1 (tokens path) = some id

instance (fs : Fs) (path : List UInt8) (id : Nat) : Decidable (fs.Leads path id) :=
  inferInstanceAs (Decidable (_ ∧ _))

end Sthreads.Snfs.Fs
