/-
What `my_write` and `my_read` do, piece by piece.

Whole pieces of the buffer are written one after the other, up to the first that fails; what
has been written by then stays.  A read goes on until it has as many bytes as it wants, or
for ever if there are not so many.
-/
import Sthreads.Proofs.Client.Files
import Sthreads.Proofs.Snfs.ByteArrays

namespace Sthreads.Client

open Snfs Prog

/-! ### A file -/

section

variable {bytes : List UInt8} {offset a b : Nat} {buffer : Nat → UInt8}

/-- Two pieces of a buffer, one after the other. -/
theorem overwrite_overwrite (hoff : offset ≤ bytes.length) :
    Tree.overwrite (Tree.overwrite bytes offset a buffer) (offset + a) b
      (fun k => buffer (a + k)) = Tree.overwrite bytes offset (a + b) buffer := by
  have hmid : offset + a ≤ (Tree.overwrite bytes offset a buffer).length := by
    rw [length_overwrite hoff]
    omega
  apply List.ext_getElem?
  intro j
  rw [getElem?_overwrite hmid, getElem?_overwrite hoff, getElem?_overwrite hoff]
  by_cases h2 : offset + a ≤ j ∧ j < offset + a + b
  · rw [if_pos h2, if_pos (by omega), show a + (j - (offset + a)) = j - offset by omega]
  · rw [if_neg h2]
    by_cases h1 : offset ≤ j ∧ j < offset + a
    · rw [if_pos h1, if_pos (by omega)]
    · rw [if_neg h1, if_neg (by omega)]

end

/-- The file, and how many blocks there are for it. -/
structure FileIs (t : Tree) (file : Nat) (bytes : List UInt8) (room : Nat) : Prop where
  small : file < 2 ^ 16
  node : t.node file = some (.file bytes)
  size : bytes.length ≤ 5120
  room : offsetToBlocks bytes.length + t.free = room

/-- So many bytes can be written there. -/
structure Fits (bytes : List UInt8) (room offset count : Nat) : Prop where
  inside : offset ≤ bytes.length
  size : offset + count ≤ 5120
  blocks : offsetToBlocks (max bytes.length (offset + count)) ≤ room

section

variable {t : Tree} {file room offset count : Nat} {bytes : List UInt8}

theorem fileIs_of_wf (hwf : t.WF) (hnode : t.node file = some (.file bytes)) :
    FileIs t file bytes (offsetToBlocks bytes.length + t.free) := by
  obtain ⟨-, hle, -, hmem⟩ := Tree.node_some hnode
  have hcount := hwf.count
  exact ⟨by omega, hnode, hwf.sizes _ hmem bytes rfl, rfl⟩

theorem FileIs.write (h : FileIs t file bytes room) (hfits : Fits bytes room offset count)
    (buffer : Nat → UInt8) :
    ∃ t', t.write file offset count buffer = (0, t') ∧
      FileIs t' file (Tree.overwrite bytes offset count buffer) room := by
  obtain ⟨hoff, hend, hblocks⟩ := hfits
  have hroom := h.room
  have hsize := h.size
  obtain ⟨hpos, hle, -, -⟩ := Tree.node_some h.node
  have hlen : (Tree.overwrite bytes offset count buffer).length =
      max bytes.length (offset + count) := length_overwrite hoff
  rw [offsetToBlocks_eq] at hblocks hroom
  refine ⟨_, ?_, h.small, (Tree.node_setNode (t := { t with free := t.free -
    (offsetToBlocks (offset + count) - offsetToBlocks bytes.length) }) hpos hle _ file).trans
      (if_pos rfl), by omega, ?_⟩
  · rw [Tree.write, h.node]
    dsimp only
    rw [Nat.min_eq_left hoff, offsetToBlocks_eq, offsetToBlocks_eq, if_neg (by omega),
      if_neg (by omega)]
  · change offsetToBlocks (Tree.overwrite bytes offset count buffer).length + (t.free -
      (offsetToBlocks (offset + count) - offsetToBlocks bytes.length)) = room
    rw [hlen, offsetToBlocks_eq, offsetToBlocks_eq, offsetToBlocks_eq]
    omega

/-- Otherwise the write fails. -/
theorem FileIs.write_fails (h : FileIs t file bytes room) (hoff : offset ≤ bytes.length)
    (hno : ¬ Fits bytes room offset count) (buffer : Nat → UInt8) :
    ∃ free, t.write file offset count buffer = (-1, { t with free := free }) := by
  rcases t.write_cases file offset count buffer with hfail | ⟨old, free, hnode, hten, hfree, -⟩
  · exact hfail
  · rw [h.node] at hnode
    obtain rfl := Node.file.inj (Option.some.inj hnode)
    have hroom := h.room
    have hsize := h.size
    rw [Nat.min_eq_left hoff, offsetToBlocks_eq, offsetToBlocks_eq] at hten hfree
    rw [offsetToBlocks_eq] at hroom
    refine absurd ⟨hoff, by omega, ?_⟩ hno
    rw [offsetToBlocks_eq]
    omega

theorem FileIs.fits_zero (h : FileIs t file bytes room) (hoff : offset ≤ bytes.length) :
    Fits bytes room offset 0 := by
  have hroom := h.room
  have hsize := h.size
  refine ⟨hoff, by omega, ?_⟩
  rw [Nat.add_zero, Nat.max_eq_left hoff]
  omega

theorem Fits.mono {fewer : Nat} (h : Fits bytes room offset count) (hle : fewer ≤ count) :
    Fits bytes room offset fewer := by
  obtain ⟨hoff, hend, hblocks⟩ := h
  rw [offsetToBlocks_eq] at hblocks
  refine ⟨hoff, by omega, ?_⟩
  rw [offsetToBlocks_eq]
  omega

/-- The first bytes fit, and after them the others. -/
theorem fits_add {a b : Nat} (buffer : Nat → UInt8) :
    Fits bytes room offset (a + b) ↔ Fits bytes room offset a ∧
      Fits (Tree.overwrite bytes offset a buffer) room (offset + a) b := by
  constructor
  · intro h
    have hlen : (Tree.overwrite bytes offset a buffer).length = max bytes.length (offset + a) :=
      length_overwrite h.inside
    obtain ⟨hoff, hend, hblocks⟩ := h
    rw [offsetToBlocks_eq] at hblocks
    refine ⟨⟨hoff, by omega, ?_⟩, ⟨by omega, by omega, ?_⟩⟩
    · rw [offsetToBlocks_eq]
      omega
    · rw [hlen, offsetToBlocks_eq]
      omega
  · rintro ⟨⟨hoff, -, -⟩, ⟨-, hend, hblocks⟩⟩
    have hlen : (Tree.overwrite bytes offset a buffer).length = max bytes.length (offset + a) :=
      length_overwrite hoff
    rw [hlen, offsetToBlocks_eq] at hblocks
    refine ⟨hoff, by omega, ?_⟩
    rw [offsetToBlocks_eq]
    omega

end

/-! ### Open files -/

theorem Lib.get_assign {lib : Lib} {fileId : Nat} {d d' : FileDesc} (h : lib.get fileId = some d)
    (hid : d'.fileId = fileId) : (lib.assign d').get fileId = some d' := by
  subst hid
  have hlist : ∀ l : List FileDesc, l.find? (·.fileId == d'.fileId) = some d →
      (Lib.assign.assignFirst d' l).find? (·.fileId == d'.fileId) = some d' := by
    intro l
    induction l with
    | nil => exact fun h => by cases h
    | cons e l ih =>
        intro hfind
        rw [Lib.assign.assignFirst]
        by_cases he : (e.fileId == d'.fileId) = true
        · rw [if_pos he]
          simp
        · rw [if_neg he]
          rw [List.find?_cons, Bool.eq_false_of_not_eq_true he] at hfind ⊢
          exact ih hfind
  exact hlist _ h

theorem Lib.fileId_of_get {lib : Lib} {fileId : Nat} {d : FileDesc} (h : lib.get fileId = some d) : d.fileId = fileId := by
  simpa using List.find?_some h

theorem Lib.get_assign_other {lib : Lib} {id : Nat} {d' : FileDesc} (hid : id ≠ d'.fileId) :
    (lib.assign d').get id = lib.get id := by
  have hlist : ∀ l : List FileDesc, (Lib.assign.assignFirst d' l).find? (·.fileId == id) =
      l.find? (·.fileId == id) := by
    intro l
    have hnot : (d'.fileId == id) = false := beq_eq_false_iff_ne.mpr (Ne.symm hid)
    induction l with
    | nil => rfl
    | cons e l ih =>
        rw [Lib.assign.assignFirst]
        by_cases he : (e.fileId == d'.fileId) = true
        · have hne : (e.fileId == id) = false := by rw [beq_iff_eq.mp he]; exact hnot
          rw [if_pos he, List.find?_cons, List.find?_cons, hnot, hne]
        · rw [if_neg he, List.find?_cons, List.find?_cons, ih]
  exact hlist lib.openFilesList

theorem myClose_list (lib : Lib) (fileId : Nat) : (myClose fileId lib).2.openFilesList =
    lib.openFilesList.eraseP (·.fileId == fileId) := by
  rw [myClose, Lib.remove]
  by_cases hany : lib.openFilesList.any (·.fileId == fileId) = true
  · rw [if_pos hany]
  · rw [if_neg hany, List.eraseP_of_forall_not]
    intro d hd hid
    exact hany (List.any_eq_true.mpr ⟨d, hd, hid⟩)

/-! ### Writing -/

/-- A write that fails -/
theorem answered_write_fails {t t' : Tree} {H : Halt → Prop} {file offset count : Nat}
    (hfile : file < 2 ^ 16) (hoffset : offset < 2 ^ 32) (hcount : count ≤ 1024)
    {buffer : Nat → UInt8} (hwrite : t.write file offset count buffer = (-1, t'))
    {Q : Option Nat → Tree → Prop} (hq : Q none t') :
    wp Answered H (snfsWrite file offset count buffer) Q t := by
  have hans : ∀ stack, t.handler stack (ApiCall.write (.ofNat file) (.ofNat offset) (.ofNat count)
      buffer).args = .ok (none, t') := by
    intro stack
    rw [args_write hoffset (by omega), inodeid_ofNat hfile, Tree.handler, if_neg (by omega),
      @Tree.write_congr t file offset count _ buffer (fun i hi => if_pos hi), hwrite]
    rfl
  refine ⟨fun stack => ⟨_, hans stack⟩, simple_write _ _ hcount buffer,
    fun stack r t'' hr there => ?_⟩
  obtain ⟨rfl, rfl⟩ := Prod.mk.inj (Except.ok.inj ((hans stack).symm.trans hr))
  exact hq

/-- So many bytes of the buffer have been written. -/
structure Wrote (t t' : Tree) (file : Nat) (bytes : List UInt8) (offset count : Nat)
    (buffer : Nat → UInt8) : Prop where
  node : t'.node file = some (.file (Tree.overwrite bytes offset count buffer))
  others : ∀ id, id ≠ file → t'.node id = t.node id
  length : t'.nodes.length = t.nodes.length

/-- The descriptor after that: its size is what the server has returned last. -/
def FileDesc.wrote (d : FileDesc) (bytes : List UInt8) (count : Nat) : FileDesc :=
  { d with
    size := if count = 0 then d.size else max bytes.length (d.writeOffset + count)
    writeOffset := d.writeOffset + count }

section

variable {t t' t'' : Tree} {H : Halt → Prop} {file room offset count : Nat} {bytes : List UInt8}
variable {buffer : Nat → UInt8}

theorem Wrote.nothing (h : t.node file = some (.file bytes)) (free : Nat) :
    Wrote t { t with free := free } file bytes offset 0 buffer :=
  ⟨by rw [overwrite_zero]; exact h, fun _ _ => rfl, rfl⟩

theorem FileIs.wrote (hwrite : t.write file offset count buffer = (0, t'))
    (h : FileIs t' file (Tree.overwrite bytes offset count buffer) room) :
    Wrote t t' file bytes offset count buffer := by
  refine ⟨h.node, fun id hid => ?_, ?_⟩
  · have hother := @Tree.write_other t file offset count buffer id hid
    rwa [hwrite] at hother
  · rcases t.write_cases file offset count buffer with ⟨free, hw⟩ | ⟨old, free, -, -, -, hw⟩
    · rw [hwrite] at hw
      cases hw
    · rw [hwrite] at hw
      obtain rfl := (Prod.mk.inj hw).2
      exact Tree.setNode_length ..

theorem Wrote.trans {a b : Nat} (hoff : offset ≤ bytes.length)
    (h : Wrote t t' file bytes offset a buffer)
    (h' : Wrote t' t'' file (Tree.overwrite bytes offset a buffer) (offset + a) b
      fun k => buffer (a + k)) : Wrote t t'' file bytes offset (a + b) buffer := by
  refine ⟨?_, fun id hid => (h'.others id hid).trans (h.others id hid), h'.length.trans h.length⟩
  rw [h'.node, overwrite_overwrite hoff]

theorem FileDesc.wrote_add (d : FileDesc) (hoff : d.writeOffset ≤ bytes.length) {a : Nat}
    (ha : a ≠ 0) (b : Nat) :
    (d.wrote bytes a).wrote (Tree.overwrite bytes d.writeOffset a buffer) b =
      d.wrote bytes (a + b) := by
  have hlen : (Tree.overwrite bytes d.writeOffset a buffer).length =
      max bytes.length (d.writeOffset + a) := length_overwrite hoff
  simp only [FileDesc.wrote, hlen, FileDesc.mk.injEq]
  refine ⟨trivial, ?_, trivial, by omega⟩
  split <;> split <;> omega

/-- The loop of `my_write`: it ends when everything is written, or before a piece that does not
fit. -/
theorem answered_writeLoop {buffer : Nat → UInt8} {Q : Option Nat × FileDesc → Tree → Prop} :
    ∀ (left : Nat) (bytes : List UInt8) (t : Tree) (d : FileDesc) (n wBytes counter : Nat),
      FileIs t file bytes room → d.writeOffset ≤ bytes.length → n ≤ left → wBytes ≤ 1024 →
      (n = 0 ∨ 0 < wBytes) →
      (∀ m r t', Wrote t t' file bytes d.writeOffset m (fun k => buffer (counter + k)) →
        Fits bytes room d.writeOffset m →
        (r = some (counter + n) ∧ m = n ∧ FileIs t' file
            (Tree.overwrite bytes d.writeOffset n fun k => buffer (counter + k)) room ∨
          r = none ∧ ¬ Fits bytes room d.writeOffset n ∧
            (m = 0 ↔ ¬ Fits bytes room d.writeOffset (min wBytes n))) →
        Q (r, d.wrote bytes m) t') →
      wp Answered H (writeLoop file buffer left d n wBytes counter) Q t := by
  intro left
  induction left with
  | zero =>
      intro bytes t d n wBytes counter hfile hoff hleft hw hpos hq
      obtain rfl : n = 0 := by omega
      exact hq 0 _ t (Wrote.nothing hfile.node t.free) (hfile.fits_zero hoff)
        (Or.inl ⟨rfl, rfl, by rw [overwrite_zero]; exact hfile⟩)
  | succ left ih =>
      intro bytes t d n wBytes counter hfile hoff hleft hw hpos hq
      have hsize := hfile.size
      rw [writeLoop]
      by_cases hn : n = 0
      · subst hn
        rw [if_pos rfl]
        exact hq 0 _ t (Wrote.nothing hfile.node t.free) (hfile.fits_zero hoff)
          (Or.inl ⟨rfl, rfl, by rw [overwrite_zero]; exact hfile⟩)
      · rw [if_neg hn]
        dsimp only
        generalize hpiece : min wBytes n = piece at hq ⊢
        obtain ⟨rest, rfl⟩ : ∃ rest, n = piece + rest := ⟨n - piece, by omega⟩
        rw [wp_bind answered_mono]
        by_cases hfits : Fits bytes room d.writeOffset piece
        · -- the piece is written, and the loop goes on after it
          obtain ⟨t₁, hwrite, hfile₁⟩ := hfile.write hfits fun k => buffer (counter + k)
          have hlen : (Tree.overwrite bytes d.writeOffset piece fun k => buffer (counter + k)).length =
              max bytes.length (d.writeOffset + piece) := length_overwrite hoff
          have hwrote := hfile₁.wrote hwrite
          have hend := hfits.size
          refine answered_write hfile.small (by omega) (by omega) hwrite hfile₁.node
            (by have := hfile₁.size; omega) ?_
          dsimp only
          rw [Nat.mod_eq_of_lt (by omega), Nat.add_sub_cancel_left, hlen]
          have hdesc : { d with
              size := max bytes.length (d.writeOffset + piece)
              writeOffset := d.writeOffset + piece } = d.wrote bytes piece := by
            rw [FileDesc.wrote, if_neg (by omega)]
          rw [hdesc]
          refine ih _ t₁ (d.wrote bytes piece) rest piece (counter + piece) hfile₁ ?_ (by omega)
            (by omega) (by omega) fun m r t' hwrote' hfits' hr => ?_
          · rw [hlen]
            exact Nat.le_max_right ..
          · rw [d.wrote_add hoff (by omega)]
            simp only [Nat.add_assoc] at hwrote'
            refine hq (piece + m) r t' (hwrote.trans hoff hwrote')
              ((fits_add _).mpr ⟨hfits, hfits'⟩) ?_
            rcases hr with ⟨rfl, rfl, hfile'⟩ | ⟨rfl, hno, -⟩
            · refine Or.inl ⟨by rw [Nat.add_assoc], rfl, ?_⟩
              have hjoin := @overwrite_overwrite _ _ piece m (fun k => buffer (counter + k)) hoff
              simp only [← Nat.add_assoc] at hjoin
              rw [← hjoin]
              exact hfile'
            · refine Or.inr ⟨rfl, fun hall => hno ((fits_add _).mp hall).2, ?_⟩
              constructor
              · intro hzero
                omega
              · exact fun h => absurd hfits h
        · -- the piece does not fit, and the loop ends
          obtain ⟨free, hwrite⟩ := hfile.write_fails hoff hfits fun k => buffer (counter + k)
          refine answered_write_fails hfile.small (by omega) (by omega) hwrite ?_
          refine hq 0 none _ (Wrote.nothing hfile.node free) (hfile.fits_zero hoff)
            (Or.inr ⟨rfl, fun hall => hfits (hall.mono (Nat.le_add_right ..)), ?_⟩)
          exact ⟨fun _ => hfits, fun _ => rfl⟩

theorem asInt_ofNat {n : Nat} (h : n ≤ 5120) : asInt n = n := asInt_of_lt (by omega)

/-- `my_write`, of a file that is open -/
theorem answered_myWrite_file {lib : Lib} {buffer : Nat → UInt8} {d : FileDesc} {n : Nat}
    (hfile : FileIs t file bytes room) (hd : lib.get file = some d)
    (hoff : d.writeOffset ≤ bytes.length) {Q : Int × Lib → Tree → Prop}
    (hq : ∀ m (r : Int) t', Wrote t t' file bytes d.writeOffset m buffer →
      Fits bytes room d.writeOffset m →
      (r = n ∧ m = n ∧ FileIs t' file (Tree.overwrite bytes d.writeOffset n buffer) room ∨
        r = -1 ∧ ¬ Fits bytes room d.writeOffset n ∧
          (m = 0 ↔ ¬ Fits bytes room d.writeOffset (min n 1024))) →
      Q (r, lib.assign (d.wrote bytes m)) t') :
    wp Answered H (myWrite file buffer n lib) Q t := by
  rw [myWrite, hd]
  dsimp only
  rw [wp_bind answered_mono]
  refine answered_writeLoop n bytes t d n (min n 1024) 0 hfile hoff (Nat.le_refl _)
    (by omega) (by omega) fun m r t' hwrote hfits hr => ?_
  simp only [Nat.zero_add] at hwrote hr
  refine hq m _ t' hwrote hfits ?_
  rcases hr with ⟨rfl, rfl, hfile'⟩ | ⟨rfl, hno, hfirst⟩
  · have hend := hfits.size
    exact Or.inl ⟨asInt_ofNat (by omega), rfl, hfile'⟩
  · rw [Nat.min_eq_left (Nat.min_le_left n 1024)] at hfirst
    exact Or.inr ⟨rfl, hno, hfirst⟩

/-- Nothing is written to what is not a file. -/
theorem answered_writeLoop_other (hsmall : file < 2 ^ 16)
    (hnode : ∀ bytes, t.node file ≠ some (.file bytes)) {d : FileDesc} (hoff : d.writeOffset < 2 ^ 32)
    {left n wBytes counter : Nat} (hw : wBytes ≤ 1024) (hleft : n ≤ left)
    {Q : Option Nat × FileDesc → Tree → Prop}
    (hq : Q (if n = 0 then some counter else none, d) t) :
    wp Answered H (writeLoop file buffer left d n wBytes counter) Q t := by
  cases left with
  | zero =>
      obtain rfl : n = 0 := by omega
      exact hq
  | succ left =>
      rw [writeLoop]
      by_cases hn : n = 0
      · rw [if_pos hn] at hq ⊢
        exact hq
      · rw [if_neg hn] at hq ⊢
        dsimp only
        rw [wp_bind answered_mono]
        have hwrite : ∀ b, t.write file d.writeOffset (min wBytes n) b = (-1, t) := by
          intro b
          rw [Tree.write]
          split
          · rename_i bytes hfile
            exact absurd hfile (hnode bytes)
          · rfl
        exact answered_write_fails hsmall hoff (by omega) (hwrite _) hq

end

/-! ### Reading -/

section

variable {t : Tree} {H : Halt → Prop} {file room : Nat} {bytes : List UInt8}

/-- The loop of `my_read` ends only if there are as many bytes as it wants, and the offset stays in
the file. -/
theorem served_readLoop (hfile : FileIs t file bytes room)
    {Q : Option Nat × List UInt8 × FileDesc → Tree → Prop} :
    ∀ (left : Nat) (d : FileDesc) (n rBytes counter : Nat) (buffer : List UInt8),
      d.readOffset ≤ bytes.length → rBytes ≤ 1024 →
      (∀ r data ro, ro ≤ bytes.length → (n < 2 ^ 32 → n ≤ bytes.length - d.readOffset) →
        Q (r, data, { d with readOffset := ro }) t) →
      wp Served (fun _ => True) (readLoop file left d n rBytes counter buffer) Q t := by
  have hsize := hfile.size
  intro left
  induction left with
  | zero =>
      intro d n rBytes counter buffer hoff hr hq
      rw [readLoop]
      split
      · exact hq _ _ d.readOffset hoff (fun _ => by omega)
      · trivial
  | succ left ih =>
      intro d n rBytes counter buffer hoff hr hq
      rw [readLoop]
      split
      · exact hq _ _ d.readOffset hoff (fun _ => by omega)
      · dsimp only
        have hlen : ((bytes.drop d.readOffset).take (min rBytes n)).length =
            min (min rBytes n) (bytes.length - d.readOffset) := by
          rw [List.length_take, List.length_drop]
        rw [wp_bind served_mono]
        refine wp_served (answered_read hfile.small (by omega) (by omega) hfile.node ?_)
        dsimp only
        rw [hlen, Nat.mod_eq_of_lt (by omega)]
        refine ih _ _ _ _ _ (by dsimp only; omega) (by omega) fun r data ro hro hle => ?_
        dsimp only at hle
        refine hq r data ro hro fun hlt => ?_
        have hrest := hle (Nat.mod_lt _ (by decide))
        omega

/-- Nothing is read of what is not a file. -/
theorem served_readLoop_other (hnode : ∀ bytes, t.node file ≠ some (.file bytes))
    (hsmall : file < 2 ^ 16) {d : FileDesc} {left n rBytes counter : Nat} {buffer : List UInt8}
    {Q : Option Nat × List UInt8 × FileDesc → Tree → Prop} (hq : ∀ r, Q (r, buffer, d) t) :
    wp Served (fun _ => True) (readLoop file left d n rBytes counter buffer) Q t := by
  have hread : ∀ offset count {Q : Option (List UInt8 × Nat) → Tree → Prop}, Q none t →
      wp Served (fun _ => True) (snfsRead file offset count) Q t := by
    intro offset count Q hq
    refine ⟨⟨trivial, trivial, fun _ => trivial⟩, fun stack r t' hr there => ?_⟩
    have hnone : ∀ count, t.answer stack (.read file (UInt32.ofNat offset).toNat count) =
        .ok none := by
      intro count
      have hread : t.read file (UInt32.ofNat offset).toNat count = (-1, none, []) := by
        rw [Tree.read]
        split
        · rename_i bytes hfile
          exact absurd hfile (hnode bytes)
        · rfl
      rw [Tree.answer, hread]
      split <;> rfl
    rw [ApiCall.args, inodeid_ofNat hsmall] at hr
    change (t.answer stack _).map _ = _ at hr
    rw [hnone] at hr
    obtain ⟨rfl, rfl⟩ := Prod.mk.inj (Except.ok.inj hr)
    exact hq
  cases left with
  | zero =>
      rw [readLoop]
      split
      · exact hq _
      · trivial
  | succ left =>
      rw [readLoop]
      split
      · exact hq _
      · dsimp only
        rw [wp_bind served_mono]
        exact hread _ _ (hq none)

end

end Sthreads.Client
