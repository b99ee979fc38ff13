/-
All of the file system's interface.

`Call` has the functions that the claims about the caches speak of; here `fs_readdir` and
`fs_copy` are added.  `fs_new` and `fs_format` make the first state, and `fs_dump` only
prints.  A run is a sequence of calls that all return.
-/
import Sthreads.Lib.Run
import Sthreads.Snfs.Contents
import Sthreads.Snfs.Plain

namespace Sthreads.Snfs

inductive FsCall
  | call (c : Call)
  | readdir (dir : Nat) (maxentries : Int)
  | copy (srcpath tgtpath : CStr)

inductive FsReply
  | reply (r : Reply)
  | readdir (status : Int) (entries : Option (List (List UInt8 × Nat)))
  | copy (status : Int)
  deriving DecidableEq, Repr

namespace FsCall

def prog (junk : Page 512) : FsCall → FsM FsReply
  | call c => do return .reply (← c.prog junk)
  | readdir dir maxentries => do
      let (status, entries) ← fsReaddir junk dir maxentries
      return .readdir status entries
  | copy srcpath tgtpath => do return .copy (← fsCopy srcpath tgtpath)

/-- The `count` of a write. -/
def count : FsCall → Nat
  | call (.write _ _ count _) => count
  | _ => 0

/-- `count` is an `unsigned`. -/
def Typed (c : FsCall) : Prop := c.count < 2 ^ 32

instance decidableTyped (c : FsCall) : Decidable c.Typed := Nat.decLt ..

end FsCall

/-- Make a call, with what is on the stack. -/
def Fs.step (fs : Fs) (a : Page 512 × FsCall) : Option Fs :=
  if a.2.Typed then
    match Prog.run Fs.handler (a.2.prog a.1) fs with
    | .ok (_, fs') => some fs'
    | .error _ => none
  else none

theorem Fs.step_some {fs fs' : Fs} {a : Page 512 × FsCall} (h : fs.step a = some fs') :
    a.2.Typed ∧ ∃ r, Prog.run Fs.handler (a.2.prog a.1) fs = .ok (r, fs') := by
  rw [Fs.step] at h
  split at h
  · rename_i htyped
    cases hrun : Prog.run Fs.handler (a.2.prog a.1) fs with
    | error e =>
        rw [hrun] at h
        cases h
    | ok p =>
        rw [hrun] at h
        obtain rfl := Option.some.inj h
        exact ⟨htyped, p.1, rfl⟩
  · cases h

/-- The state of a file system that has just been formatted. -/
def JustFormatted (numBlocks : Nat) (fs : Fs) : Prop :=
  ∃ readings fs₀, Fs.fsNew numBlocks readings = .ok fs₀ ∧ fs₀.fsFormat = .ok fs

/-- States reached by `fs_new`, one `fs_format` and then any calls. -/
def FsReached (numBlocks : Nat) (fs : Fs) : Prop :=
  ∃ fs₀, JustFormatted numBlocks fs₀ ∧ Reaches Fs.step fs₀ fs

/-! ### Formatting again -/

/-- What can be done to a file system: a call, with what is on the stack, or `fs_format`. -/
inductive FsAct
  | call (junk : Page 512) (c : FsCall)
  | format

def Fs.act (fs : Fs) : FsAct → Option Fs
  | .call junk c => fs.step (junk, c)
  | .format => fs.fsFormat.toOption

/-- States reached by `fs_new` and then calls and `fs_format`s, in any order. -/
def NewReached (numBlocks : Nat) (fs : Fs) : Prop :=
  ∃ readings fs₀, Fs.fsNew numBlocks readings = .ok fs₀ ∧ Reaches Fs.act fs₀ fs

/-- Only the first inodes and the first blocks are marked. -/
def Fs.FirstMarks (fs : Fs) : Prop :=
  (∀ id, fs.Used id → id ≤ 1) ∧ ∀ b, bmapIsset fs.blkBmap b = true → b < 10

/-- The file system is as one that has just been made and formatted: only the first inodes and the
first blocks are marked, the root directory is empty, and every sequence of calls is answered as
there. -/
structure AsNew (numBlocks : Nat) (fs : Fs) : Prop where
  inodes : ∀ id, fs.Used id ↔ id ≤ 1
  blocks : ∀ b, bmapIsset fs.blkBmap b = true ↔ b < 10
  root : (fs.inodeOf 1).itype = 1 ∧ fs.dirEntries 1 = []
  calls : ∀ new, JustFormatted numBlocks new → ∀ junk junk' calls, (∀ c ∈ calls, c.Ok) →
    outcome Fs.handler junk calls fs = outcome Fs.handler junk' calls new

/-! ### Listings -/

/-- The name and the type of the object that the call is to create in the directory. -/
def FsCall.createsIn (dir : Nat) : FsCall → Option (List UInt8 × Nat)
  | call (.create d file) => if d = dir then some (file.chars, 2) else none
  | call (.mkdir d newdir) => if d = dir then some (newdir.chars, 1) else none
  | _ => none

/-- An object has been created. -/
def FsReply.created : FsReply → Bool
  | reply (.create status _) => status == 0
  | _ => false

/-- What the call creates in the directory. -/
def Fs.createsIn (fs : Fs) (dir : Nat) (a : Page 512 × FsCall) : Option (List UInt8 × Nat) :=
  match Prog.run Fs.handler (a.2.prog a.1) fs with
  | .ok (r, _) => if r.created then a.2.createsIn dir else none
  | .error _ => none

/-- What a run has created in the directory, in this order. -/
def createdIn (dir : Nat) (tr : List (Fs × (Page 512 × FsCall))) : List (List UInt8 × Nat) :=
  tr.filterMap fun p => p.1.createsIn dir p.2

/-- The call lists no more entries of a directory than fit on one page. -/
def Fs.Fits (fs : Fs) : FsCall → Prop
  | .readdir dir maxentries => fs.Used dir → (fs.inodeOf dir).itype = 1 →
      min ((fs.inodeOf dir).size / 16) maxentries.toNat ≤ 32
  | _ => True

/-- The operation reads of the disk only blocks that the directory has, and gets only its inode and
those that its entries name. -/
def Fs.ReadsOnly (fs : Fs) (dir : Nat) : FsOp → Prop
  | .icGet id => id = dir ∨ ∃ e ∈ fs.dirEntries dir, e.2 = id
  | .dcRead dirid blkno _ => dirid = dir ∧
      ∃ i, i < offsetToBlocks (fs.inodeOf dir).size ∧ (fs.inodeOf dir).blocks i = blkno
  | .inode _ | .inodeBmap => True
  | _ => False

end Sthreads.Snfs
