/-
What the file system is for: a tree of directories and files, and a number of free
blocks.

Objects are never removed, so the tree is the list of them in the order of their
creation; the inode of the object at place `i` is `i + 1`, and the first is the root.
Inode 0 is used and is no object.  Nothing here knows of blocks, bitmaps or caches but
that an object of so many bytes takes so many blocks.
-/
import Sthreads.Snfs.Code

namespace Sthreads.Snfs

inductive Node
  | dir (entries : List (List UInt8 × Nat))
  | file (bytes : List UInt8)
  deriving DecidableEq, Repr

namespace Node

def itype : Node → Nat
  | dir _ => 1
  | file _ => 2

def size : Node → Nat
  | dir entries => 16 * entries.length
  | file bytes => bytes.length

def numEntries : Node → Int
  | dir entries => entries.length
  | file _ => -1

def entries : Node → List (List UInt8 × Nat)
  | dir entries => entries
  | file _ => []

end Node

structure Tree where
  free : Nat
  nodes : List Node
  deriving DecidableEq, Repr

/-- The components of a path: the first, which may be empty, and the others, which are not. -/
def splitPath : List UInt8 → List UInt8 × List (List UInt8)
  | [] => ([], [])
  | c :: cs =>
      let (w, ws) := splitPath cs
      if c = slash then ([], if w = [] then ws else w :: ws) else (c :: w, ws)

/-- The components of a path that are not empty. -/
def tokens (path : List UInt8) : List (List UInt8) :=
  let (w, ws) := splitPath path
  if w = [] then ws else w :: ws

/-- The object an entry list has under a name. -/
def findEntry (entries : List (List UInt8 × Nat)) (name : List UInt8) : Option Nat :=
  (entries.find? (·.1 == name)).map (·.2)

namespace Tree

/-- A new file system with so many free blocks. -/
def init (free : Nat) : Tree := ⟨free, [.dir []]⟩

def node (t : Tree) (id : Nat) : Option Node := if id = 0 then none else t.nodes[id - 1]?

/-- Replace an object. -/
def setNode (t : Tree) (id : Nat) (n : Node) : Tree := { t with nodes := t.nodes.set (id - 1) n }

def getAttrs (t : Tree) (file : Nat) : Except Halt (Int × Option Attrs) :=
  if file > t.nodes.length then .ok (-1, none)
  else match t.node file with
    | none => .error .exit
    | some n => .ok (0, some ⟨file, n.itype, n.size, n.numEntries⟩)

/-- Follow names from a directory, with the last object found. -/
def walk (t : Tree) : Nat → Option Nat → List (List UInt8) → Int × Option Nat
  | _, last, [] => (1, last)
  | dir, last, name :: rest =>
      match t.node dir with
      | some (.dir entries) =>
          match findEntry entries name with
          | none => (0, last)
          | some id => t.walk id (some id) rest
      | _ => (-1, last)

def lookup (t : Tree) (path : List UInt8) : Except Halt (Int × Option Nat) :=
  if path.head? ≠ some slash then .ok (-1, none)
  else if path.length + 1 > 200 then .error .lineOverrun
  else .ok (t.walk 1 none (tokens path))

def read (t : Tree) (file offset count : Nat) : Int × Option Nat × List UInt8 :=
  match t.node file with
  | some (.file bytes) =>
      let bytes := (bytes.drop offset).take count
      (0, some bytes.length, bytes)
  | _ => (-1, none, [])

/-- `count` bytes at an offset of a file replaced, beyond its end added. -/
def overwrite (bytes : List UInt8) (offset count : Nat) (buffer : Nat → UInt8) : List UInt8 :=
  bytes.take offset ++ (List.range count).map buffer ++ bytes.drop (offset + count)

/-- A failed write may use up the free blocks. -/
def write (t : Tree) (file offset count : Nat) (buffer : Nat → UInt8) : Int × Tree :=
  match t.node file with
  | some (.file bytes) =>
      let offset := min offset bytes.length
      let used := offsetToBlocks bytes.length
      let req := offsetToBlocks (offset + count) - used
      if req > 10 - used then (-1, t)
      else if req > t.free then (-1, { t with free := 0 })
      else (0, { t with free := t.free - req }.setNode file
        (.file (overwrite bytes offset count buffer)))
  | _ => (-1, t)

/-- A new object in a directory. -/
def create (t : Tree) (new : Node) (dir : Nat) (name : List UInt8) :
    (Int × Option Nat) × Tree :=
  match t.node dir with
  | some (.dir entries) =>
      if name.length = 0 ∨ name.length + 1 > 14 then ((-1, none), t)
      else match findEntry entries name with
        | some id => ((-1, some id), t)
        | none =>
            let finode := t.nodes.length + 1
            let req := if entries.length % 32 = 0 then 1 else 0
            if finode ≥ 64 ∨ req > t.free then ((-1, none), t)
            else
              let t' := t.setNode dir (.dir (entries ++ [(name, finode)]))
              ((0, some finode), ⟨t.free - req, t'.nodes ++ [new]⟩)
  | _ => ((-1, none), t)

/-- The entries of a directory, each with the type of its object. -/
def readdir (t : Tree) (dir : Nat) (maxentries : Int) :
    Int × Option (List (List UInt8 × Nat)) :=
  match t.node dir with
  | some (.dir entries) =>
      if maxentries < 0 then (-1, none)
      else (0, some ((entries.take maxentries.toNat).map fun e =>
        (e.1, ((t.node e.2).map Node.itype).getD 0)))
  | _ => (-1, none)

/-- What a call does. -/
def call (t : Tree) : Call → Except Halt (Reply × Tree)
  | .getAttrs file => do
      let (status, attrs) ← t.getAttrs file
      return (.attrs status attrs, t)
  | .lookup file => do
      let (status, fileid) ← t.lookup file.chars
      return (.lookup status fileid, t)
  | .read file offset count =>
      let (status, nread, buffer) := t.read file offset count
      .ok (.read status nread buffer, t)
  | .write file offset count buffer =>
      let (status, t') := t.write file offset count buffer
      .ok (.write status, t')
  | .create dir file =>
      let ((status, fileid), t') := t.create (.file []) dir file.chars
      .ok (.create status fileid, t')
  | .mkdir dir newdir =>
      let ((status, fileid), t') := t.create (.dir []) dir newdir.chars
      .ok (.create status fileid, t')

end Tree

/-! ### Tokens -/

theorem splitPath_eq (s : List UInt8) :
    splitPath s = (s.takeWhile (· != slash), tokens (s.dropWhile (· != slash)).tail) := by
  induction s with
  | nil => rfl
  | cons c cs ih =>
      by_cases hc : c = slash
      · subst hc
        rfl
      · rw [splitPath, ih]
        simp [hc]

theorem tokens_slash (cs : List UInt8) : tokens (slash :: cs) = tokens cs := rfl

theorem tokens_dropWhile (s : List UInt8) : tokens (s.dropWhile (· == slash)) = tokens s := by
  induction s with
  | nil => rfl
  | cons c cs ih =>
      by_cases hc : c = slash
      · subst hc
        rw [List.dropWhile_cons_of_pos rfl, ih, tokens_slash]
      · rw [List.dropWhile_cons_of_neg (by simpa using hc)]

/-- `strtok` takes the tokens one after the other. -/
theorem tokens_strtok (s : List UInt8) :
    tokens s = match strtok s with
      | (none, _) => []
      | (some t, rest) => t :: tokens rest := by
  rw [← tokens_dropWhile s, strtok]
  cases h : s.dropWhile (· == slash) with
  | nil => rfl
  | cons c cs =>
      have hc : (c != slash) = true := by
        have hhead := List.head?_dropWhile_not (· == slash) s
        rw [h] at hhead
        simpa using hhead
      rw [tokens, splitPath_eq]
      simp [hc]

theorem tokens_of_strtok_none {s : List UInt8} (h : (strtok s).1 = none) : tokens s = [] := by
  rw [tokens_strtok]
  rcases hst : strtok s with ⟨token, rest⟩
  rw [hst] at h
  cases h
  rfl

theorem tokens_of_strtok_some {s w : List UInt8} (h : (strtok s).1 = some w) :
    tokens s = w :: tokens (strtok s).2 := by
  rw [tokens_strtok]
  rcases hst : strtok s with ⟨token, rest⟩
  rw [hst] at h
  cases h
  rfl

theorem length_tokens_le (s : List UInt8) : (tokens s).length ≤ s.length := by
  suffices h : (splitPath s).2.length + (if (splitPath s).1 = [] then 0 else 1) ≤ s.length by
    rw [tokens]
    split at h <;> simp_all
  induction s with
  | nil => simp [splitPath]
  | cons c cs ih =>
      rw [splitPath]
      by_cases hc : c = slash
      · simp only [hc, if_true]
        split at ih <;> simp_all <;> omega
      · simp only [hc, if_false]
        simp
        split at ih <;> omega

end Sthreads.Snfs
