/-
`fs_write` and `fs_read` are the operations of an array of bytes.
-/
import Sthreads.Proofs.Snfs.Invariant

namespace Sthreads.Snfs

open Prog Sthreads.Snfs.Tree

section

variable {numBlocks : Nat} {s : Fs} {t : Tree}

theorem isTree_shows (ht : IsTree CachedRel numBlocks s t) : Shows s t := by
  obtain ⟨A, hrel, hrep, heq, -⟩ := ht
  exact hrel.shows hrep heq

/-- The object of a file's inode. -/
theorem Shows.node_file (h : Shows s t) {file : Nat} (hused : s.Used file)
    (htype : (s.inodeOf file).itype = 2) : t.node file = some (.file (s.fileBytes file)) := by
  have hle := (h.used file).mp hused
  have hpos : 1 ≤ file := by
    rcases Nat.eq_zero_or_pos file with rfl | hpos
    · rw [h.zero.1] at htype
      cases htype
    · exact hpos
  obtain ⟨n, hn⟩ := Tree.node_of_le hpos hle
  rw [h.itype file n hn] at htype
  cases n with
  | dir es => cases htype
  | file bytes => rw [hn, h.file file bytes hn]

/-- The inode is of the same type and size and has the same contents. -/
structure SameObject (s s' : Fs) (id : Nat) : Prop where
  itype : (s'.inodeOf id).itype = (s.inodeOf id).itype
  size : (s'.inodeOf id).size = (s.inodeOf id).size
  file : (s.inodeOf id).itype = 2 → s'.fileBytes id = s.fileBytes id
  dir : (s.inodeOf id).itype = 1 → s'.dirEntries id = s.dirEntries id

theorem Shows.sameObject {s' : Fs} {t' : Tree} (h : Shows s t) (h' : Shows s' t') {id : Nat}
    (hused : s.Used id) (hnode : t'.node id = t.node id) : SameObject s s' id := by
  rcases Nat.eq_zero_or_pos id with rfl | hpos
  · refine ⟨h'.zero.1.trans h.zero.1.symm, h'.zero.2.trans h.zero.2.symm, fun htype => ?_,
      fun htype => ?_⟩
    · rw [h.zero.1] at htype
      cases htype
    · rw [h.zero.1] at htype
      cases htype
  · obtain ⟨n, hn⟩ := Tree.node_of_le hpos ((h.used id).mp hused)
    rw [hn] at hnode
    refine ⟨?_, ?_, fun htype => ?_, fun htype => ?_⟩
    · rw [h.itype id n hn, h'.itype id n hnode]
    · rw [h.size id n hn, h'.size id n hnode]
    · rw [h.itype id n hn] at htype
      cases n with
      | dir es => cases htype
      | file bytes => rw [h.file id bytes hn, h'.file id bytes hnode]
    · rw [h.itype id n hn] at htype
      cases n with
      | dir es => rw [h.dir id es hn, h'.dir id es hnode]
      | file bytes => cases htype

/-- Where there is a file, the blocks that can be found to be free are all those below
`numBlocks`. -/
theorem isTree_free (ht : IsTree CachedRel numBlocks s t) (hlt : numBlocks < 2 ^ 32) {file : Nat}
    {bytes : List UInt8} (hfile : t.node file = some (.file bytes)) :
    t.free = freeCount s.blkBmap numBlocks := by
  obtain ⟨A, hrel, hrep, -, rfl⟩ := ht
  have hpos := hrep.limit_pos hfile
  have hlimit : A.limit = A.numBlocks := by
    unfold View.limit asInt at hpos ⊢
    split at hpos <;> omega
  rw [hrep.free, hlimit, hrel.blkBmap]

end

/-- When `fs_write` succeeds and what it does then, and what `fs_read` returns. -/
theorem byte_arrays {numBlocks : Nat} (hn : 10 ≤ numBlocks) (hn' : numBlocks < 2 ^ 32) {s : Fs}
    (h : Reached numBlocks s) {file : Nat} (hused : s.Used file)
    (htype : (s.inodeOf file).itype = 2) (junk : Page 512) :
    (∀ offset count (buffer : Nat → UInt8), count ≤ 1024 →
      let bytes := s.fileBytes file
      let o := min offset bytes.length
      let need := offsetToBlocks (o + count) - offsetToBlocks bytes.length
      ∃ status s', run Fs.handler (fsWrite junk file offset count buffer) s = .ok (status, s') ∧
        (status = 0 ↔
          need = 0 ∨ offsetToBlocks (o + count) ≤ 10 ∧ need ≤ freeCount s.blkBmap numBlocks) ∧
        (status = 0 →
          s'.fileBytes file =
            bytes.take o ++ (List.range count).map buffer ++ bytes.drop (o + count) ∧
          ∀ id, id ≠ file → (s'.Used id ↔ s.Used id) ∧ (s.Used id → SameObject s s' id))) ∧
    ∀ offset count, ∃ s', run Fs.handler (fsRead junk file offset count) s =
      .ok ((0, some (min count ((s.fileBytes file).length - offset)),
        ((s.fileBytes file).drop offset).take count), s') := by
  obtain ⟨t, ht⟩ := h.isTree hn
  have hshows := isTree_shows ht
  have hfile := hshows.node_file hused htype
  have hfree := isTree_free ht hn' hfile
  generalize hbytes : s.fileBytes file = bytes at hfile ⊢
  obtain ⟨hpos, hle, -, hmem⟩ := Tree.node_some hfile
  refine ⟨fun offset count buffer hcount => ?_, fun offset count => ?_⟩
  · have hten : offsetToBlocks bytes.length ≤ 10 := by
      obtain ⟨A, -, hrep, -, -⟩ := ht
      exact hrep.wf.blocks_le hmem
    obtain ⟨status, s', t', hrun, ⟨hstatus, ht'⟩, hs'⟩ := isTree_run cached_sound cached_forgets ht
      (T := fun r t' => r = (t.write file offset count buffer).1 ∧
        t' = (t.write file offset count buffer).2) fun A hrep heq =>
      wp_write hrep heq junk file offset buffer (hrep.wf.end_lt hcount) fun A' hA' _ => ⟨_, ⟨rfl, rfl⟩, hA'⟩
    have hwrite := hstatus
    rw [Tree.write, hfile] at hwrite ht'
    dsimp only at hwrite ht' ⊢
    generalize min offset bytes.length = o at hwrite ht' ⊢
    generalize hneed : offsetToBlocks (o + count) - offsetToBlocks bytes.length = need
      at hwrite ht' ⊢
    refine ⟨status, s', hrun, ?_, fun hzero => ?_⟩
    · rw [hwrite, ← hfree]
      split
      · simp only [Int.reduceNeg, Int.neg_eq_zero, one_ne_zero, false_iff]
        omega
      · split
        · simp only [Int.reduceNeg, Int.neg_eq_zero, one_ne_zero, false_iff]
          omega
        · simp only [true_iff]
          omega
    · have hok : ¬ need > 10 - offsetToBlocks bytes.length ∧ ¬ need > t.free := by
        constructor <;> intro hbig
        · rw [if_pos hbig] at hwrite
          omega
        · rw [if_pos hbig] at hwrite
          split at hwrite <;> omega
      rw [if_neg hok.1, if_neg hok.2] at ht'
      have hshows' := isTree_shows hs'
      have hnode := fun id => Tree.node_setNode (t := { t with free := t.free - need }) hpos hle
        (.file (overwrite bytes o count buffer)) id
      rw [ht'] at hshows'
      refine ⟨hshows'.file file _ (by rw [hnode, if_pos rfl]; rfl), fun id hid => ⟨?_, fun hu => ?_⟩⟩
      · rw [hshows'.used, hshows.used, Tree.setNode_length]
      · exact hshows.sameObject hshows' hu (by rw [hnode, if_neg hid]; rfl)
  · obtain ⟨r, s', t', hrun, ⟨hr, -⟩, -⟩ := isTree_run cached_sound cached_forgets ht
      (T := fun r t' => r = t.read file offset count ∧ t' = t) fun A hrep heq =>
      wp_mono spec_mono (fun a A' h => by
          obtain ⟨r', ha, -, hA'⟩ := h
          exact ⟨t, ⟨ha, rfl⟩, hA'.after heq⟩) _ _
        (wp_of_read _ hrep (SameTree.refl A) heq ⟨fun _ _ hp => hp, rfl⟩
          (read_read (G := (· ≤ t.nodes.length)) (r := A.reader) hrep (fun _ hid => hid) junk file
            offset count fun _ => rfl))
    refine ⟨s', ?_⟩
    rw [hrun, hr, Tree.read, hfile]
    dsimp only
    rw [List.length_take, List.length_drop]

/-- Twelve blocks and an empty file, to which three bytes are written. -/
theorem byte_arrays_twelve_blocks :
    ∃ s s', Fs.session 12 (fun i => 7 * i) (fun _ _ => 0) [.create 1 ⟨[102], by decide⟩] = .ok s ∧
      run Fs.handler (fsWrite (fun _ => 0) 2 9 3 fun _ => 65) s = .ok (0, s') ∧
      s'.fileBytes 2 = [65, 65, 65] := by
  have hfacts : (Fs.session 12 (fun i => 7 * i) (fun _ _ => 0)
      [.create 1 ⟨[102], by decide⟩]).map (fun s => (bmapIsset s.inodeBmap 2, (s.inodeOf 2).itype,
        s.fileBytes 2, freeCount s.blkBmap 12)) = .ok (true, 2, [], 1) := by
    decide +kernel
  cases hs : Fs.session 12 (fun i => 7 * i) (fun _ _ => 0) [.create 1 ⟨[102], by decide⟩] with
  | error e =>
      rw [hs] at hfacts
      cases hfacts
  | ok s =>
      rw [hs] at hfacts
      have hval := Except.ok.inj hfacts
      simp only [Prod.mk.injEq] at hval
      obtain ⟨hused, htype, hbytes, hfree⟩ := hval
      obtain ⟨status, s', hrun, hzero, hdone⟩ := (byte_arrays (by decide) (by decide)
        (Reached.session (by simp [Call.Ok]) hs) hused htype (fun _ => 0)).1 9 3 (fun _ => 65)
        (by decide)
      rw [hbytes] at hzero hdone
      obtain rfl := hzero.mpr (Or.inr ⟨by decide, by rw [hfree]; decide⟩)
      exact ⟨s, s', rfl, hrun, (hdone rfl).1⟩

end Sthreads.Snfs
