/-
`fs_write` does what the tree says.

Blocks are allocated one after the other, each for the next place of the inode.  If they
run out, those that were allocated stay marked and the inode in the cache keeps them, but
it is not told of them with `ic_dirty`.  The bytes are then copied block by block: before
each block the file is what it was with so many bytes replaced, and this carries the two
loops, over the blocks that the file had and over those that are new.
-/
import Sthreads.Proofs.Snfs.Readers

namespace Sthreads.Snfs

open Prog Sthreads.Snfs.Tree

/-! ### Allocation -/

section

variable {A : View} {id : Nat} {bs : List Nat}

theorem allocs_ino : (A.allocs id bs).ino =
    Function.update A.ino id { A.ino id with blks := (A.ino id).blks ++ bs } := by
  induction bs generalizing A with
  | nil => simp [View.allocs]
  | cons b bs ih =>
      rw [View.allocs, List.foldl_cons, ← View.allocs, ih]
      simp [View.alloc]

theorem allocs_blks : ((A.allocs id bs).ino id).blks = (A.ino id).blks ++ bs := by
  rw [allocs_ino, Function.update_self]

theorem allocs_other {id' : Nat} (h : id' ≠ id) : (A.allocs id bs).ino id' = A.ino id' := by
  rw [allocs_ino, Function.update_of_ne h]

/-- Only the inode and the bitmap of the blocks change. -/
theorem allocs_fields (A : View) (id : Nat) (bs : List Nat) : (A.allocs id bs).numBlocks = A.numBlocks ∧
    (A.allocs id bs).inodeBmap = A.inodeBmap ∧ (A.allocs id bs).known = A.known ∧
    (A.allocs id bs).tab = A.tab ∧ (A.allocs id bs).data = A.data ∧
    (A.allocs id bs).dirOf = A.dirOf ∧ (A.allocs id bs).ptr = A.ptr := by
  induction bs generalizing A with
  | nil => exact ⟨rfl, rfl, rfl, rfl, rfl, rfl, rfl⟩
  | cons b bs ih => exact ih (A.alloc id b)

end

section

variable {A : View} {H : Halt → Prop} {n : Nat}

/-- A free block is found if there is one. -/
theorem wp_findFreeBlk {α : Type} {Q : α → View → Prop} {f : Option Nat → FsM α} (h : Layout A n)
    (hnone : A.limit ≤ 4096 → freeCount A.blkBmap A.limit = 0 → wp spec H (f none) Q A)
    (hsome : ∀ b, b < A.limit → b < 4096 → bmapIsset A.blkBmap b = false →
      wp spec H (f (some b)) Q A) :
    wp spec H (findFreeBlk >>= f) Q A := by
  rw [findFreeBlk, wp_bind spec_mono]
  refine wp_blkBmap (wp_blockNumBlocks ?_)
  have hroom : 0 + A.limit ≤ 4096 ∨
      ∃ b, 0 ≤ b ∧ b < 0 + A.limit ∧ b < 4096 ∧ bmapIsset A.blkBmap b = false := by
    by_cases hlim : A.limit ≤ 4096
    · exact Or.inl (by omega)
    · obtain ⟨b, hb, hfree⟩ := h.exists_free (by omega)
      exact Or.inr ⟨b, Nat.zero_le b, by omega, hb, hfree⟩
  unfold fsiBmapFindFree
  rw [← View.limit]
  rcases findFreeFrom_spec A.blkBmap _ _ hroom with ⟨hres, hall⟩ | ⟨b, hres, -, hb, hb4, hfree, -⟩
  · rw [hres]
    refine hnone ?_ (freeCount_eq_zero.mpr fun b hb => hall b (Nat.zero_le b) (by omega))
    by_contra hlim
    obtain ⟨b, hb, hfree⟩ := h.exists_free (by omega)
    rw [hall b (Nat.zero_le b) (by omega)] at hfree
    cases hfree
  · rw [hres]
    exact hsome b (by omega) hb4 hfree

/-- The loop of `fs_write` that allocates blocks. -/
theorem wp_allocBlocks {p id : Nat} (hid : id ≤ n) {Q : Bool → View → Prop} :
    ∀ (left : Nat) (A : View), Layout A n → A.ptr p = some id →
      (A.ino id).blks.length + left ≤ 10 →
      (∀ bs, bs.length = left → Layout (A.allocs id bs) n →
        freeCount (A.allocs id bs).blkBmap A.limit + left = freeCount A.blkBmap A.limit →
        Q true (A.allocs id bs)) →
      (∀ bs, bs.length < left → Layout (A.allocs id bs) n → A.limit ≤ 4096 →
        freeCount A.blkBmap A.limit = bs.length →
        freeCount (A.allocs id bs).blkBmap A.limit = 0 → Q false (A.allocs id bs)) →
      wp spec H (allocBlocks p left (A.ino id).blks.length) Q A := by
  intro left
  induction left with
  | zero =>
      intro A h _ _ htrue _
      exact htrue [] rfl h rfl
  | succ left ih =>
      intro A h hp hlen htrue hfalse
      rw [allocBlocks]
      refine wp_findFreeBlk h ?_ ?_
      · intro hlim hzero
        exact hfalse [] (by simp) h hlim (by simpa using hzero) hzero
      · intro b hb hb4 hfree
        have hcount := freeCount_bmapSet hb hb4 hfree
        have hnext := h.alloc hid (by omega) hb hb4 hfree
        have hblks : ((A.alloc id b).ino id).blks.length = (A.ino id).blks.length + 1 := by
          simp [View.alloc]
        refine wp_setBlock hp rfl (by omega) (wp_setBlkBmap ?_)
        have hrest := ih (A.alloc id b) hnext hp (by omega) ?_ ?_
        · rw [hblks] at hrest
          exact hrest
        · intro bs hbs hlay hfc
          refine htrue (b :: bs) (by simpa using hbs) hlay ?_
          have hfc' : freeCount (A.allocs id (b :: bs)).blkBmap A.limit + left =
              freeCount (bmapSet A.blkBmap b) A.limit := hfc
          omega
        · intro bs hbs hlay hlim hfc hzero
          refine hfalse (b :: bs) (by simpa using hbs) hlay hlim ?_ hzero
          have hfc' : freeCount (bmapSet A.blkBmap b) A.limit = bs.length := hfc
          rw [List.length_cons]
          omega

end

/-! ### The bytes of a file -/

section

variable {bytes : List UInt8} {offset count : Nat} {buffer : Nat → UInt8}

theorem getElem?_overwrite (hoff : offset ≤ bytes.length) (j : Nat) :
    (overwrite bytes offset count buffer)[j]? =
      if offset ≤ j ∧ j < offset + count then some (buffer (j - offset)) else bytes[j]? := by
  have htake : (bytes.take offset).length = offset := by
    rw [List.length_take]
    omega
  have hmap : ((List.range count).map buffer).length = count := by
    rw [List.length_map, List.length_range]
  rw [overwrite, List.append_assoc]
  rcases Nat.lt_or_ge j offset with hlt | hge
  · rw [List.getElem?_append_left (by omega), List.getElem?_take, if_pos hlt, if_neg (by omega)]
  · rw [List.getElem?_append_right (by omega), htake]
    rcases Nat.lt_or_ge j (offset + count) with hlt' | hge'
    · rw [List.getElem?_append_left (by omega), if_pos ⟨hge, hlt'⟩, List.getElem?_map,
        List.getElem?_range (by omega)]
      rfl
    · rw [List.getElem?_append_right (by omega), hmap, List.getElem?_drop, if_neg (by omega)]
      congr 1
      omega

theorem length_overwrite (hoff : offset ≤ bytes.length) :
    (overwrite bytes offset count buffer).length = max bytes.length (offset + count) := by
  rw [overwrite, List.length_append, List.length_append, List.length_take, List.length_map,
    List.length_range, List.length_drop]
  omega

theorem overwrite_zero : overwrite bytes offset 0 buffer = bytes := by
  rw [overwrite]
  simp

end

/-- A page with `len` bytes of a buffer from `num` on put at `start`. -/
def patch (page : Page 512) (buffer : Nat → UInt8) (start num len : Nat) : Page 512 := fun k =>
  if start ≤ k ∧ k < start + len then buffer (num + (k - start)) else page k

theorem copyIn_eq (page : Page 512) (buffer : Nat → UInt8) (start num count : Nat) :
    copyIn page buffer start num count =
      (patch page buffer start num (min (512 - start) (count - num)),
        num + min (512 - start) (count - num)) := rfl

theorem get_patch {page : Page 512} {buffer : Nat → UInt8} {start num len k : Nat} (hk : k < 512) :
    (patch page buffer start num len).get k =
      if start ≤ k ∧ k < start + len then buffer (num + (k - start)) else page.get k := by
  rw [Page.get_of_lt _ hk, Page.get_of_lt _ hk]
  rfl

section

variable {A : View} {n id : Nat} {bytes : List UInt8} {offset : Nat} {buffer : Nat → UInt8}

/-- Writing a block of the file replaces the bytes that are on it, if the page written had the
other bytes of the file that are on it. -/
theorem inBlocks_patch (hlay : Layout A n) (hid : id ≤ n) (hoff : offset ≤ bytes.length)
    {b iblock start num len : Nat} (hb : (A.ino id).blks[iblock]? = some b)
    (hat : offset + num = 512 * iblock + start) (hlen : start + len ≤ 512) {page : Page 512}
    (h : InBlocks A id (.file (overwrite bytes offset num buffer)))
    (hpage : ∀ j c, j / 512 = iblock → (overwrite bytes offset num buffer)[j]? = some c →
      page.get (j % 512) = c) {d : Nat → Page 512} (hd : A.data = d) {st : Bool} :
    InBlocks (A.withData (Function.update d b (patch page buffer start num len)) st) id
      (.file (overwrite bytes offset (num + len) buffer)) := by
  subst hd
  intro j c hj
  rw [getElem?_overwrite hoff] at hj
  by_cases hin : j / 512 = iblock
  · refine ⟨b, by rw [hin]; exact hb, ?_⟩
    simp only [View.withData, Function.update_self]
    rw [get_patch (by omega)]
    by_cases hnew : start ≤ j % 512 ∧ j % 512 < start + len
    · rw [if_pos (by omega), Option.some.injEq] at hj
      rw [if_pos hnew, ← hj]
      congr 1
      omega
    · rw [if_neg hnew]
      refine hpage j c hin ?_
      rw [getElem?_overwrite hoff, ← hj]
      by_cases hold : offset ≤ j ∧ j < offset + num
      · rw [if_pos hold, if_pos (by omega)]
      · rw [if_neg hold, if_neg (by omega)]
  · have hj' : (overwrite bytes offset num buffer)[j]? = some c := by
      rw [getElem?_overwrite hoff, ← hj]
      by_cases hold : offset ≤ j ∧ j < offset + num
      · rw [if_pos hold, if_pos (by omega)]
      · rw [if_neg hold, if_neg (by omega)]
    obtain ⟨b', hb', hc⟩ := h j c hj'
    have hne : b' ≠ b := fun heq =>
      hin (hlay.inj id id _ _ b hid hid (heq ▸ hb') hb).2
    refine ⟨b', hb', ?_⟩
    simp only [View.withData, Function.update_of_ne hne]
    exact hc

end

/-- In the pages `d`, `num` bytes of the file have been replaced, and no other block has changed. -/
structure Written (A : View) (id : Nat) (bytes : List UInt8) (offset : Nat) (buffer : Nat → UInt8)
    (num : Nat) (d : Nat → Page 512) : Prop where
  bytes : InBlocks (A.withData d false) id (.file (overwrite bytes offset num buffer))
  others : ∀ b, b ∉ (A.ino id).blks → d b = A.data b

section

variable {A : View} {n id p : Nat} {bytes : List UInt8} {offset count : Nat}
  {buffer : Nat → UInt8} {H : Halt → Prop}

theorem Written.patch (hlay : Layout A n) (hid : id ≤ n) (hoff : offset ≤ bytes.length)
    {b iblock start num len : Nat} {d : Nat → Page 512}
    (h : Written A id bytes offset buffer num d) (hb : (A.ino id).blks[iblock]? = some b)
    (hat : offset + num = 512 * iblock + start) (hlen : start + len ≤ 512) {page : Page 512}
    (hpage : ∀ j c, j / 512 = iblock → (overwrite bytes offset num buffer)[j]? = some c →
      page.get (j % 512) = c) :
    Written A id bytes offset buffer (num + len)
      (Function.update d b (patch page buffer start num len)) := by
  constructor
  · have hlay' : Layout (A.withData d false) n :=
      hlay.congr rfl rfl (fun _ => rfl) hlay.dirOf
    exact inBlocks_patch hlay' hid hoff hb hat hlen h.bytes hpage rfl
  · intro b' hb'
    have hne : b' ≠ b := fun heq => hb' (heq ▸ List.mem_of_getElem? hb)
    rw [Function.update_of_ne hne]
    exact h.others b' hb'

/-- The blocks that the file had. -/
theorem wp_writeWithin (hlay : Layout A n) (hid : id ≤ n) (htype : (A.ino id).itype = 2)
    (hp : A.ptr p = some id) (hoff : offset ≤ bytes.length)
    (hused : offsetToBlocks bytes.length ≤ (A.ino id).blks.length)
    {Q : Nat × Nat × Page 512 → View → Prop}
    (hq : ∀ iblock num block d st, iblock ≤ offsetToBlocks bytes.length → num ≤ count →
      (num < count → offset + num = 512 * iblock ∧ iblock = offsetToBlocks bytes.length) →
      Written A id bytes offset buffer num d → Q (iblock, num, block) (A.withData d st)) :
    ∀ (left iblock num : Nat) (block : Page 512) (d : Nat → Page 512) (st : Bool),
      iblock + left = offsetToBlocks bytes.length → num ≤ count →
      (num < count → offset + num = 512 * iblock + if num = 0 then offset % 512 else 0) →
      Written A id bytes offset buffer num d →
      wp spec H (writeWithin p offset count buffer left iblock num block) Q
        (A.withData d st) := by
  have hten := hlay.short id hid
  intro left
  induction left with
  | zero =>
      intro iblock num block d st hleft hnum hat h
      refine hq iblock num block d st (by omega) hnum (fun hlt => ?_) h
      have := hat hlt
      rw [offsetToBlocks_eq] at hleft ⊢
      split at this <;> omega
  | succ left ih =>
      intro iblock num block d st hleft hnum hat h
      rw [writeWithin]
      by_cases hlt : num < count
      · rw [if_pos hlt]
        have hstart := hat hlt
        generalize hst : (if num = 0 then offset % 512 else 0) = start at hstart ⊢
        have hst512 : start < 512 := by
          rw [← hst]
          split <;> omega
        have hb := List.getElem?_eq_getElem (show iblock < (A.ino id).blks.length by omega)
        generalize (A.ino id).blks[iblock] = b at hb
        have hmem := List.mem_of_getElem? hb
        have hdir : A.dirOf b = none := hlay.dirOf_file hid (by omega) hmem
        have hdata := (hlay.data id b hid hmem).1
        refine wp_blockOf (A := A.withData d st) hp (by omega) hb ?_
        refine wp_bcRead (A := A.withData d st) hdata hdir ?_
        dsimp only
        rw [copyIn_eq]
        refine wp_bcWrite (A := (A.withData d st).touch) hdata hdir ?_
        have hfull : num + min (512 - start) (count - num) < count →
            min (512 - start) (count - num) = 512 - start := by omega
        have hlen : start + min (512 - start) (count - num) ≤ 512 := by omega
        have hle : num + min (512 - start) (count - num) ≤ count := by omega
        have hpos : 0 < min (512 - start) (count - num) := by omega
        dsimp only [View.withData]
        generalize min (512 - start) (count - num) = len at hfull hlen hle hpos ⊢
        refine ih (iblock + 1) (num + len) _ _ false (by omega) hle (fun hlt' => ?_)
          (h.patch hlay hid hoff hb hstart hlen fun j c hj hc => ?_)
        · have := hfull hlt'
          rw [if_neg (by omega)]
          omega
        · obtain ⟨b', hb', hget⟩ := h.bytes j c hc
          rw [hj] at hb'
          rw [show b' = b from Option.some.inj (hb'.symm.trans hb)] at hget
          exact hget
      · rw [if_neg hlt]
        exact hq iblock num block d st (by omega) hnum (fun hlt' => absurd hlt' hlt) h

/-- The blocks that are new. -/
theorem wp_writeNew (hlay : Layout A n) (hid : id ≤ n) (htype : (A.ino id).itype = 2)
    (hp : A.ptr p = some id) (hoff : offset ≤ bytes.length)
    (hroom : offset + count ≤ 512 * (A.ino id).blks.length) {Q : Nat → View → Prop}
    (hq : ∀ d st, Written A id bytes offset buffer count d → Q count (A.withData d st)) :
    ∀ (left iblock num : Nat) (block : Page 512) (d : Nat → Page 512) (st : Bool),
      iblock + left = (A.ino id).blks.length → num ≤ count →
      (num < count → offset + num = 512 * iblock ∧ bytes.length ≤ 512 * iblock) →
      Written A id bytes offset buffer num d →
      wp spec H (writeNew p count buffer left iblock num block) Q (A.withData d st) := by
  have hten := hlay.short id hid
  have done : ∀ num d st, num ≤ count → ¬ num < count → Written A id bytes offset buffer num d →
      Q num (A.withData d st) := by
    intro num d st hnum hlt h
    obtain rfl : num = count := by omega
    exact hq d st h
  intro left
  induction left with
  | zero =>
      intro iblock num block d st hleft hnum hat h
      exact done num d st hnum (fun hlt => by have := hat hlt; omega) h
  | succ left ih =>
      intro iblock num block d st hleft hnum hat h
      rw [writeNew]
      by_cases hlt : num < count
      · rw [if_pos hlt]
        obtain ⟨hstart, hbeyond⟩ := hat hlt
        have hb := List.getElem?_eq_getElem (show iblock < (A.ino id).blks.length by omega)
        generalize (A.ino id).blks[iblock] = b at hb
        have hmem := List.mem_of_getElem? hb
        have hdir : A.dirOf b = none := hlay.dirOf_file hid (by omega) hmem
        have hdata := (hlay.data id b hid hmem).1
        refine wp_blockOf (A := A.withData d st) hp (by omega) hb ?_
        rw [copyIn_eq]
        refine wp_bcWrite (A := A.withData d st) hdata hdir ?_
        have hfull : num + min (512 - 0) (count - num) < count →
            min (512 - 0) (count - num) = 512 := by omega
        have hlen : 0 + min (512 - 0) (count - num) ≤ 512 := by omega
        have hle : num + min (512 - 0) (count - num) ≤ count := by omega
        dsimp only [View.withData]
        generalize min (512 - 0) (count - num) = len at hfull hlen hle ⊢
        refine ih (iblock + 1) (num + len) _ _ false (by omega) hle (fun hlt' => ?_)
          (h.patch hlay hid hoff hb hstart hlen fun j c hj hc => ?_)
        · have := hfull hlt'
          omega
        · -- this block is beyond the end of the file
          have hlt := (List.getElem?_eq_some_iff.mp hc).1
          rw [length_overwrite hoff] at hlt
          omega
      · rw [if_neg hlt]
        exact done num d st hnum hlt h

end

/-! ### Writing -/

/-- The pages of a file and its size have been written and stored. -/
def View.written (A : View) (id size : Nat) (d : Nat → Page 512) : View :=
  { A with
    data := d
    ino := Function.update A.ino id { A.ino id with size := size }
    tab := Function.update A.tab id { A.ino id with size := size }
    stored := true }

section

variable {A : View} {t : Tree} {H : Halt → Prop} {file p : Nat} {bytes : List UInt8}
  {buffer : Nat → UInt8}

/-- `fs_write` after the allocation of blocks. -/
theorem wp_writeData {n offset count req : Nat} (hlay : Layout A n) (hid : file ≤ n)
    (htype : (A.ino file).itype = 2) (hsize : (A.ino file).size = bytes.length)
    (hp : A.ptr p = some file) (hoff : offset ≤ bytes.length)
    (heq : ∀ id, id ≠ file → A.ino id = A.tab id)
    (hblks : (A.ino file).blks.length = offsetToBlocks bytes.length + req)
    (hroom : offset + count ≤ 512 * (A.ino file).blks.length)
    (hold : InBlocks A file (.file bytes)) (junk : Page 512) {Q : Int → View → Prop}
    (hq : ∀ d, Written A file bytes offset buffer count d →
      Q 0 (A.written file (max (offset + count) bytes.length) d)) :
    wp spec H
      (writeData junk p file offset count (offsetToBlocks bytes.length) req buffer) Q A := by
  have hten := hlay.short file hid
  have hint : asInt count = count := asInt_of_lt (by omega)
  have hfirst : Written A file bytes offset buffer 0 A.data := by
    refine ⟨?_, fun _ _ => rfl⟩
    rw [overwrite_zero]
    exact hold
  have hused := offsetToBlocks_eq bytes.length
  rw [writeData, hint, Int.toNat_natCast]
  dsimp only
  rw [wp_bind spec_mono]
  refine wp_writeWithin hlay hid htype hp hoff (by omega) ?_ _ (offset / 512) 0 junk A.data
    A.stored (by omega) (Nat.zero_le _) (fun _ => ?_) hfirst
  · intro iblock num block d st hiblock hnum hat h
    rw [wp_bind spec_mono]
    refine wp_writeNew hlay hid htype hp hoff hroom ?_ _ iblock num block d st (by omega) hnum
      (fun hlt => ?_) h
    · intro d' st' h'
      rw [if_neg (by simp), Nat.mod_eq_of_lt (by omega)]
      refine wp_inode (A := A.withData d' st') hp fun n hn => ?_
      rw [hn.2.1]
      refine wp_setSize (A := A.withData d' st') hp (wp_icDirty (p := p) hp (wp_storeFsdata ?_ ?_))
      · funext id
        by_cases hi : id = file
        · subst hi
          simp [View.sync, View.setIno, View.withData]
        · simpa [View.sync, View.setIno, View.withData, Function.update_of_ne hi] using heq id hi
      · have hdone := hq d' h'
        rw [← hsize] at hdone
        simpa [View.written, View.sync, View.setIno, View.withData] using hdone
    · obtain ⟨h1, h2⟩ := hat hlt
      exact ⟨h1, by omega⟩
  · rw [if_pos rfl]
    omega

/-- The tree after a write that succeeded. -/
theorem rep_written {offset count : Nat} {bs : List Nat} {A' : View} {d : Nat → Page 512}
    (hrep : Rep A t) (hfile : t.node file = some (.file bytes)) (hoff : offset ≤ bytes.length)
    (hroom : offset + count ≤ 5120) (hlay : Layout A' t.nodes.length)
    (hA : A'.numBlocks = A.numBlocks ∧ A'.inodeBmap = A.inodeBmap ∧ A'.known = A.known ∧
      A'.data = A.data)
    (hino : A'.ino =
      Function.update A.ino file { A.ino file with blks := (A.ino file).blks ++ bs })
    (hbs : offsetToBlocks (max bytes.length (offset + count)) =
      offsetToBlocks bytes.length + bs.length)
    (hfree : freeCount A'.blkBmap A.limit + bs.length = freeCount A.blkBmap A.limit)
    (hd : Written A' file bytes offset buffer count d) :
    Rep (A'.written file (max (offset + count) bytes.length) d)
      ({ t with free := t.free - bs.length }.setNode file
        (.file (overwrite bytes offset count buffer))) := by
  obtain ⟨hpos, hle, -, -⟩ := Tree.node_some hfile
  have hnode := hrep.node file _ hfile
  obtain ⟨a1, a2, a3, a4⟩ := hA
  have hself : A'.ino file = { A.ino file with blks := (A.ino file).blks ++ bs } := by
    rw [hino, Function.update_self]
  have hother : ∀ id, id ≠ file → A'.ino id = A.ino id := fun id hid => by
    rw [hino, Function.update_of_ne hid]
  have hlen : (overwrite bytes offset count buffer).length = max bytes.length (offset + count) :=
    length_overwrite hoff
  have hbytes : bytes.length ≤ 5120 := hrep.wf.sizes _ (Tree.node_some hfile).2.2.2 bytes rfl
  have hwf : ({ t with free := t.free - bs.length } : Tree).WF :=
    ⟨hrep.wf.root, hrep.wf.count, hrep.wf.entries, hrep.wf.ids, hrep.wf.names, hrep.wf.sizes⟩
  refine ⟨?_, hwf.setFile hfile (by omega), ?_, ?_, ?_, ?_, ?_⟩
  · rw [Tree.setNode_length]
    refine hlay.congr rfl rfl (fun id => ?_) (fun b i hb => ?_)
    · by_cases hi : id = file
      · subst hi
        simp [View.written]
      · simp [View.written, Function.update_of_ne hi]
    · obtain ⟨h1, h2, h3⟩ := hlay.dirOf b i hb
      refine ⟨h1, h2, ?_⟩
      by_cases hi : i = file
      · subst hi
        simpa [View.written] using h3
      · simpa [View.written, Function.update_of_ne hi] using h3
  · intro id
    rw [Tree.setNode_length]
    exact a3 ▸ hrep.known id
  · intro id
    rw [Tree.setNode_length]
    exact a2 ▸ hrep.inodeBmap id
  · simp only [View.written]
    rw [Function.update_of_ne (by omega), hother 0 (by omega)]
    exact hrep.zero
  · intro id n hn
    rw [Tree.node_setNode (t := { t with free := t.free - bs.length }) hpos hle] at hn
    by_cases hi : id = file
    · subst hi
      rw [if_pos rfl, Option.some.injEq] at hn
      subst hn
      refine ⟨?_, ?_, ?_, ?_⟩
      · simp only [View.written, Function.update_self, hself]
        exact hnode.itype
      · simp only [View.written, Function.update_self, Node.size, hlen]
        omega
      · simp only [View.written, Function.update_self, hself, Node.size, hlen,
          List.length_append, hbs, hnode.blks]
      · intro j c hc
        obtain ⟨b, hb, hget⟩ := hd.bytes j c hc
        refine ⟨b, ?_, hget⟩
        simp only [View.written, Function.update_self]
        exact hb
    · rw [if_neg hi] at hn
      obtain ⟨-, hle', -, -⟩ := Tree.node_some hn
      refine (hrep.node id n hn).congr ?_ fun b hb => ?_
      · simp only [View.written, Function.update_of_ne hi]
        exact hother id hi
      · refine (hd.others b fun hmem => hi ?_).trans (congrFun a4 b)
        rw [← hother id hi] at hb
        exact hlay.disjoint hle' hle hb hmem
  · have hlim : A'.limit = A.limit := by rw [View.limit, View.limit, a1]
    have := hrep.free
    change t.free - bs.length = freeCount A'.blkBmap A'.limit
    rw [hlim]
    omega

/-- The tree after a write that ran out of blocks. -/
theorem after_outOfBlocks {bs : List Nat} {A' : View} (hrep : Rep A t) (heq : A.ino = A.tab)
    (hlim : A.limit ≤ 4096) (hlay : Layout A' t.nodes.length)
    (hA : A'.numBlocks = A.numBlocks ∧ A'.inodeBmap = A.inodeBmap ∧ A'.known = A.known ∧
      A'.tab = A.tab ∧ A'.data = A.data ∧ A'.dirOf = A.dirOf)
    (hino : A'.ino =
      Function.update A.ino file { A.ino file with blks := (A.ino file).blks ++ bs })
    (hzero : freeCount A'.blkBmap A.limit = 0) : After A' { t with free := 0 } := by
  obtain ⟨a1, a2, a3, a4, a5, a6⟩ := hA
  have hino' : A'.forget.ino = A.ino := a4.trans heq.symm
  have hlim' : A'.limit = A.limit := by rw [View.limit, View.limit, a1]
  have hle : ∀ id, (A.ino id).le (A'.ino id) := by
    intro id
    rw [hino]
    by_cases hi : id = file
    · subst hi
      rw [Function.update_self]
      exact ⟨rfl, rfl, List.prefix_append _ _⟩
    · rw [Function.update_of_ne hi]
      exact AInode.le_refl _
  refine ⟨⟨?_, ?_, ?_, ?_, ?_, ?_, ?_⟩, fun id => ?_⟩
  · refine hlay.fewer (by omega) rfl rfl (fun id => ?_) (fun b d hd => ?_)
    · rw [hino']
      exact (hle id).2.2
    · rw [hino']
      exact hrep.dirOf b d (a6 ▸ hd)
  · exact ⟨hrep.wf.root, hrep.wf.count, hrep.wf.entries, hrep.wf.ids, hrep.wf.names,
      hrep.wf.sizes⟩
  · exact fun id => a3 ▸ hrep.known id
  · exact fun id => a2 ▸ hrep.inodeBmap id
  · rw [hino']
    exact hrep.zero
  · intro id n hn
    exact (hrep.node id n hn).congr (congrFun hino' id) fun b _ => congrFun a5 b
  · exact (hlim' ▸ hzero).symm
  · rw [a4, ← heq]
    exact hle id

/-- `fs_write` to a file, up to where it allocates blocks. -/
theorem wp_write_file (hrep : Rep A t) (heq : A.ino = A.tab)
    (hnode : t.node file = some (.file bytes)) (junk : Page 512) (offset count : Nat)
    {Q : Int → View → Prop}
    (h : ∀ p off req, off = min offset bytes.length →
      req = max (offsetToBlocks ((off + count) % 2 ^ 32)) (offsetToBlocks bytes.length) -
        offsetToBlocks bytes.length →
      wp spec H (do
        if req > 10 - offsetToBlocks bytes.length then return -1
        if !(← allocBlocks p req (offsetToBlocks bytes.length)) then return -1
        writeData junk p file off count (offsetToBlocks bytes.length) req buffer) Q
        (A.setPtr p file)) :
    wp spec H (fsWrite junk file offset count buffer) Q A := by
  obtain ⟨-, hlen, -, -⟩ := Tree.node_some hnode
  have hmany := hrep.wf.count
  have hnd := hrep.node file _ hnode
  rw [fsWrite, if_neg (by omega)]
  refine wp_inodeBmap ?_
  rw [hrep.inodeBmap, if_neg (by simp [hlen])]
  refine wp_icGet heq ((hrep.known file).mpr hlen) fun p _ => ?_
  refine wp_inode (A := A.setPtr p file) (Function.update_self ..) fun n hn => ?_
  obtain ⟨hn1, hn2, -⟩ := hn
  have htype : n.itype = 2 := hn1.trans hnd.itype
  have hsize : n.size = bytes.length := hn2.trans hnd.size
  rw [if_neg (by omega), hsize]
  exact h p _ _ rfl rfl

/-- `fs_write` where there is no file. -/
theorem wp_write_other (hrep : Rep A t) (heq : A.ino = A.tab)
    (hnode : ∀ bytes, t.node file ≠ some (.file bytes)) (junk : Page 512) (offset count : Nat)
    {Q : Int → View → Prop} (hq : ∀ A', After A' t → Q (-1) A') :
    wp spec H (fsWrite junk file offset count buffer) Q A := by
  have hmany := hrep.wf.count
  have hval := hq A (After.of_rep hrep heq)
  rw [fsWrite]
  by_cases hlen : file ≤ t.nodes.length
  swap
  · by_cases h64 : file ≥ 64
    · rw [if_pos h64]
      exact hval
    · rw [if_neg h64]
      refine wp_inodeBmap ?_
      rw [hrep.inodeBmap, if_pos (by simp [hlen])]
      exact hval
  rw [if_neg (by omega)]
  refine wp_inodeBmap ?_
  rw [hrep.inodeBmap, if_neg (by simp [hlen])]
  refine wp_icGet heq ((hrep.known file).mpr hlen) fun p _ => ?_
  have hrep' : Rep (A.setPtr p file) t :=
    hrep.of_sameTree ⟨rfl, rfl, rfl, rfl, rfl, rfl, rfl⟩ hrep.dirOf
  refine wp_inode (A := A.setPtr p file) (Function.update_self ..) fun n hn => ?_
  have htype : n.itype ≠ 2 := by
    rw [hn.1]
    cases hnd : t.node file with
    | none =>
        rw [hrep'.itype_of_none hlen hnd]
        decide
    | some nd =>
        rw [(hrep'.node file nd hnd).itype]
        cases nd with
        | dir es => simp [Node.itype]
        | file bytes => exact absurd hnd (hnode bytes)
  rw [if_pos htype]
  exact hq _ (After.of_rep hrep' heq)

/-- Where a write of so many bytes ends. -/
theorem Tree.WF.end_lt (h : t.WF) {offset count : Nat} (hcount : count ≤ 1024) :
    ∀ bytes, t.node file = some (.file bytes) → min offset bytes.length + count < 2 ^ 32 := by
  intro bytes hnode
  obtain ⟨-, -, -, hmem⟩ := Tree.node_some hnode
  have := h.sizes _ hmem bytes rfl
  omega

/-- `fs_write` writes as the tree does, if the end of the write is an `unsigned`. -/
theorem wp_write (hrep : Rep A t) (heq : A.ino = A.tab) (junk : Page 512) (file offset : Nat)
    {count : Nat} (buffer : Nat → UInt8)
    (hend : ∀ bytes, t.node file = some (.file bytes) → min offset bytes.length + count < 2 ^ 32)
    {Q : Int → View → Prop}
    (hq : ∀ A', After A' (t.write file offset count buffer).2 →
      ((t.write file offset count buffer).1 = 0 → A'.stored = true) →
      Q (t.write file offset count buffer).1 A') :
    wp spec H (fsWrite junk file offset count buffer) Q A := by
  by_cases hfile : ∃ bytes, t.node file = some (.file bytes)
  swap
  · have hno : ∀ bytes, t.node file ≠ some (.file bytes) := fun bytes hb => hfile ⟨bytes, hb⟩
    have hwrite : t.write file offset count buffer = (-1, t) := by
      rw [Tree.write]
      split
      · rename_i bytes hb
        exact absurd hb (hno bytes)
      · rfl
    rw [hwrite] at hq
    exact wp_write_other hrep heq hno junk offset count fun A' hA' =>
      hq A' hA' fun h => by simp at h
  obtain ⟨bytes, hnode⟩ := hfile
  have hend := hend bytes hnode
  obtain ⟨-, hlen, -, hmem⟩ := Tree.node_some hnode
  have hbytes := hrep.wf.sizes _ hmem bytes rfl
  have hused := offsetToBlocks_eq bytes.length
  refine wp_write_file hrep heq hnode junk offset count fun p off req hoff hreq => ?_
  rw [← hoff] at hend
  have hoffend := offsetToBlocks_eq (off + count)
  have hrq : offsetToBlocks (off + count) - offsetToBlocks bytes.length = req := by
    rw [hreq, Nat.mod_eq_of_lt hend]
    omega
  have hrep' : Rep (A.setPtr p file) t :=
    hrep.of_sameTree ⟨rfl, rfl, rfl, rfl, rfl, rfl, rfl⟩ hrep.dirOf
  have hp : (A.setPtr p file).ptr p = some file := Function.update_self ..
  have hnd := hrep'.node file _ hnode
  have hle : off ≤ bytes.length := by omega
  rw [Tree.write, hnode] at hq
  dsimp only at hq
  rw [← hoff, hrq] at hq
  clear hreq
  by_cases hroom : req > 10 - offsetToBlocks bytes.length
  · rw [if_pos hroom]
    rw [if_pos hroom] at hq
    exact hq _ (After.of_rep hrep' heq) (fun h => by simp at h)
  rw [if_neg hroom]
  rw [if_neg hroom] at hq
  have hblks := hnd.blks
  simp only [Node.size] at hblks
  have hfree := hrep.free
  rw [wp_bind spec_mono]
  have halloc := wp_allocBlocks (H := H) (p := p) hlen (Q := fun r A' =>
    wp spec H (do
      if !r then return -1
      writeData junk p file off count (offsetToBlocks bytes.length) req buffer) Q A')
    req (A.setPtr p file) hrep'.toLayout hp (by omega) ?_ ?_
  · rw [hblks] at halloc
    exact halloc
  · intro bs hbs hlay hcnt
    obtain ⟨a1, a2, a3, a4, a5, a6, a7⟩ := allocs_fields (A.setPtr p file) file bs
    have hmany : ¬ req > t.free := by
      change freeCount _ A.limit + req = freeCount A.blkBmap A.limit at hcnt
      omega
    rw [if_neg hmany] at hq
    have hself : ((A.setPtr p file).allocs file bs).ino file =
        { (A.setPtr p file).ino file with
          blks := ((A.setPtr p file).ino file).blks ++ bs } := by
      rw [allocs_ino, Function.update_self]
    have hlen' : (((A.setPtr p file).allocs file bs).ino file).blks.length =
        offsetToBlocks bytes.length + req := by
      rw [allocs_blks, List.length_append, hblks, hbs]
    refine wp_writeData hlay hlen ?_ ?_ (a7 ▸ hp) hle (fun id hi => ?_) hlen'
      (by rw [hlen']; omega) ?_ junk fun d hd => ?_
    · rw [hself]
      exact hnd.itype
    · rw [hself]
      exact hnd.size
    · rw [allocs_other hi, a4]
      exact congrFun heq id
    · intro j c hc
      obtain ⟨b, hb, hbyte⟩ := hnd.inBlocks j c hc
      refine ⟨b, ?_, by rw [a5]; exact hbyte⟩
      rw [allocs_blks, List.getElem?_append_left (List.getElem?_eq_some_iff.mp hb).1]
      exact hb
    · have hmax : offsetToBlocks (max bytes.length (off + count)) =
          offsetToBlocks bytes.length + bs.length := by
        have := offsetToBlocks_eq (max bytes.length (off + count))
        omega
      have hfinal := rep_written hrep' hnode hle (by omega) hlay ⟨a1, a2, a3, a5⟩
        allocs_ino hmax (by rw [hbs]; exact hcnt) hd
      rw [hbs] at hfinal
      refine hq _ (After.of_rep hfinal ?_) fun _ => rfl
      funext id
      simp only [View.written]
      by_cases hi : id = file
      · rw [hi, Function.update_self, Function.update_self]
      · rw [Function.update_of_ne hi, Function.update_of_ne hi, allocs_other hi, a4]
        exact congrFun heq id
  · intro bs hbs hlay hlim hcnt hzero
    obtain ⟨a1, a2, a3, a4, a5, a6, a7⟩ := allocs_fields (A.setPtr p file) file bs
    have hmany : req > t.free := by
      change freeCount A.blkBmap A.limit = bs.length at hcnt
      omega
    rw [if_pos hmany] at hq
    exact hq _ (after_outOfBlocks hrep' heq hlim hlay ⟨a1, a2, a3, a4, a5, a6⟩
      allocs_ino hzero) (fun h => by simp at h)

/-- A write whose end is no `unsigned` ends the server: `count` is negative as an `int`. -/
theorem wp_write_wraps (hrep : Rep A t) (heq : A.ino = A.tab)
    (hnode : t.node file = some (.file bytes)) (junk : Page 512) {offset count : Nat}
    (buffer : Nat → UInt8) (hcount : count < 2 ^ 32)
    (hend : 2 ^ 32 ≤ min offset bytes.length + count) :
    wp spec (· = .exit) (fsWrite junk file offset count buffer) (fun _ _ => False) A := by
  obtain ⟨-, -, -, hmem⟩ := Tree.node_some hnode
  have hbytes := hrep.wf.sizes _ hmem bytes rfl
  refine wp_write_file hrep heq hnode junk offset count fun p off req hoff hreq => ?_
  rw [← hoff] at hend
  have hused := offsetToBlocks_eq bytes.length
  have hoffend := offsetToBlocks_eq ((off + count) % 2 ^ 32)
  have hzero : req = 0 := by omega
  have hneg : asInt count < 0 := by
    rw [asInt]
    omega
  subst hzero
  rw [if_neg (by omega), allocBlocks]
  change wp spec _ (writeData junk p file off count (offsetToBlocks bytes.length) 0 buffer) _ _
  have hnone : (asInt count).toNat = 0 := by omega
  have hwithin : ∀ left iblock block, writeWithin p off 0 buffer left iblock 0 block =
      (pure (iblock, 0, block) : FsM _) := by
    intro left iblock block
    cases left with
    | zero => rfl
    | succ left => rw [writeWithin, if_neg (by omega)]
  have hnew : ∀ left iblock block, writeNew p 0 buffer left iblock 0 block =
      (pure 0 : FsM _) := by
    intro left iblock block
    cases left with
    | zero => rfl
    | succ left => rw [writeNew, if_neg (by omega)]
  rw [writeData, hnone, hwithin]
  dsimp only
  rw [wp_bind spec_mono, wp_pure]
  dsimp only
  rw [hnew, wp_bind spec_mono, wp_pure, if_pos (by omega)]
  exact rfl

end

end Sthreads.Snfs
