/-
What the handlers answer, and what they do to the tree.
-/
import Sthreads.Snfs.Service
import Sthreads.Snfs.Tree

namespace Sthreads.Snfs

/-- A handler of the class `OP_READ` of `Service`. -/
def Args.IsRead : Args → Prop
  | ping | lookup _ | read .. | readdir .. => True
  | _ => False

/-- The listing of a directory is on one page. -/
def Args.OnePage (t : Tree) : Args → Prop
  | readdir dir maxentries => ∀ es, t.node dir = some (.dir es) →
      min es.length (asInt maxentries).toNat ≤ 32
  | _ => True

/-- An entry of a listing: the name, and the type of the object. -/
def DirEntry.of (e : List UInt8 × Nat) : DirEntry :=
  ⟨fun k => e.1.getD k 0, UInt32.ofNat (min e.1.length 14), UInt32.ofNat e.2⟩

namespace Tree

/-- What a handler that reads answers. -/
def answer (t : Tree) (stack : Stack) : Args → Except Halt (Option Results)
  | .ping => .ok (some (.ping [104, 101, 108, 108, 111]))
  | .lookup file => do
      let (found, fileid) ← t.lookup file.chars
      if found ≠ 1 then return none
      let fileid := fileid.getD stack.fileid.toNat
      let (status, attrs) ← t.getAttrs fileid
      if status ≠ 0 then return none
      return attrs.map fun a => .lookup (UInt32.ofNat fileid) (UInt32.ofNat a.size)
  | .read file offset count =>
      if count > 1024 then .ok none
      else
        let (status, nread, data) := t.read file offset count
        .ok (if status ≠ 0 then none else nread.map fun n => .read data (UInt32.ofNat n))
  | .readdir dir maxentries =>
      let (status, entries) := t.readdir dir (asInt maxentries)
      .ok (if status ≠ 0 then none else entries.map fun es => .readdir (es.map DirEntry.of))
  | _ => .ok none

/-- What a handler answers, and the tree it leaves. -/
def handler (t : Tree) (stack : Stack) : Args → Except Halt (Option Results × Tree)
  | .write file offset count data =>
      if count > 1024 then .ok (none, t)
      else
        let (status, t') := t.write file offset count data
        .ok (if status ≠ 0 then none
          else (t'.node file).map fun n => .write (UInt32.ofNat n.size), t')
  | .create dir name =>
      let ((status, fileid), t') := t.create (.file []) dir name.chars
      .ok (if status ≠ 0 then none else fileid.map fun id => .create (UInt32.ofNat id), t')
  | .mkdir dir f =>
      let ((status, dirid), t') := t.create (.dir []) dir f.chars
      .ok (if status ≠ 0 then none else dirid.map fun id => .mkdir (UInt32.ofNat id), t')
  | a => (t.answer stack a).map fun r => (r, t)

end Tree

end Sthreads.Snfs
