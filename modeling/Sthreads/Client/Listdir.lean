/-
`my_listdir` (`snfs_lib/myfs.c`), and how its caller reads what it returns.

The names are put one behind the other into a block that is allocated for them, each with a
zero at its end.  A copy that does not stay in the block, or in the array `list`, ends the
run.
-/
import Sthreads.Client.Myfs
import Sthreads.Snfs.Contents

namespace Sthreads.Client

open Snfs

/-- What `my_listdir` gives its caller: the block at `*filenames`, and `*numFiles`. -/
structure Listing where
  filenames : List UInt8
  numFiles : Int
  deriving DecidableEq, Repr

/-- `snfs_readdir`: `list` and `*count` -/
def snfsReaddir (dir cmax : UInt32) : ApiM (Option (List DirEntry)) := do
  match ← Prog.perform (ApiCall.readdir dir cmax) with
  | (some (.readdir list), _) => return some list
  | _ => return none

/-- `strcpy` to a position of a block, `none` if it does not stay in the block -/
def strcpyBlock (block : List UInt8) (pos : Nat) (s : CStr) : Option (List UInt8) :=
  if block.length < pos + (s.chars.length + 1) then none
  else some (block.take pos ++ s.chars ++ 0 :: block.drop (pos + (s.chars.length + 1)))

/-- The string at a position of a block -/
def stringAt (block : List UInt8) (pos : Nat) : List UInt8 := (block.drop pos).takeWhile (· != 0)

/-- The loop of `my_listdir` -/
def putNames : List DirEntry → List UInt8 → Nat → Option (List UInt8)
  | [], block, _ => some block
  | e :: rest, block, fnames =>
      (strcpyBlock block fnames (e.name.cstr 0)).bind fun block =>
        putNames rest block (fnames + (stringAt block fnames).length + 1)

/-- The end of `my_listdir`, when the directory has been found; `junk` is what `malloc` finds in its
block. -/
def listIn (junk : Nat → UInt8) (dir : UInt32) : ApiM (Option Listing) := do
  match ← snfsReaddir dir 64 with
  | none => return none
  | some list =>
      if 64 < list.length then .halt .wild
      else
        let numFiles := list.length
        match putNames list ((List.range (15 * numFiles)).map junk) 0 with
        | none => .halt .wild
        | some filenames => return some ⟨filenames, numFiles⟩

/-- `my_listdir`, `none` for -1, as it is for a path of 200 characters or more (see `myOpen`) -/
def myListdir (junk : Nat → UInt8) (path : CStr) : ApiM (Option Listing) := do
  if !myparse path then return none
  if path.chars = [slash] then listIn junk 1
  else
    let (found, dir, _) ← snfsLookup path
    if !found then return none
    listIn junk dir

/-- What a caller reads who goes from name to name with `p += strlen(p) + 1`, as
`teste_cliente.c` does. -/
def namesFrom (block : List UInt8) : Nat → Nat → List (List UInt8)
  | 0, _ => []
  | left + 1, p =>
      stringAt block p :: namesFrom block left (p + (stringAt block p).length + 1)

/-- The names of a listing -/
def Listing.names (l : Listing) : List (List UInt8) := namesFrom l.filenames l.numFiles.toNat 0

/-! ### What there is to list -/

/-- The object that a path leads to -/
def objectAt (fs : Fs) (path : CStr) : Option Nat := fs.walk 1 (tokens path.chars)

/-- The names in the directory that a path leads to, in the order of their entries -/
def namesAt (fs : Fs) (path : CStr) : Option (List (List UInt8)) :=
  (objectAt fs path).bind fun dir =>
    if (fs.inodeOf dir).itype = 1 then some ((fs.dirEntries dir).map Prod.fst) else none

end Sthreads.Client
