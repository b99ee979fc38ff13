/-
What it is for a call to change nothing.

An inode is the same if its type, its size, the blocks that its size needs and what is in
them are.  A file system is unchanged if both bitmaps and all used inodes are.  What is in
the caches and what is left for `strtok` may differ.
-/
import Sthreads.Proofs.Snfs.Service
import Sthreads.Proofs.Snfs.ByteArrays

namespace Sthreads.Snfs

open Prog

structure SameInode (s s' : Fs) (id : Nat) : Prop extends SameObject s s' id where
  blocks : ∀ i, i < offsetToBlocks (s.inodeOf id).size →
    (s'.inodeOf id).blocks i = (s.inodeOf id).blocks i

structure Unchanged (s s' : Fs) : Prop where
  inodeBmap : s'.inodeBmap = s.inodeBmap
  blkBmap : s'.blkBmap = s.blkBmap
  inode : ∀ id, s.Used id → SameInode s s' id

section

variable {s s' : Fs} {A A' : View} {t : Tree} {id : Nat}

/-- The blocks that the size of an inode needs are those of the view. -/
theorem CachedRel.blocks (h : CachedRel s A) (hrep : Rep A t) (heq : A.ino = A.tab)
    (hused : s.Used id) {i : Nat} (hi : i < offsetToBlocks (s.inodeOf id).size) :
    (A.ino id).blks[i]? = some ((s.inodeOf id).blocks i) := by
  have hshows := h.shows hrep heq
  have hle := (hshows.used id).mp hused
  have hpos : 1 ≤ id := by
    rcases Nat.eq_zero_or_pos id with rfl | hpos
    · rw [hshows.zero.2] at hi
      exact absurd hi (Nat.not_lt_zero i)
    · exact hpos
  obtain ⟨n, hn⟩ := Tree.node_of_le hpos hle
  rw [hshows.size id n hn, ← (hrep.node id n hn).blks] at hi
  have hb := List.getElem?_eq_getElem hi
  rw [(h.inodeOf heq ((hrep.known id).mpr hle)).2.2 i _ hb]
  exact hb

/-- Two views of one tree with the same inode. -/
theorem CachedRel.sameInode (h : CachedRel s A) (h' : CachedRel s' A') (hrep : Rep A t)
    (hrep' : Rep A' t) (heq : A.ino = A.tab) (heq' : A'.ino = A'.tab) (hused : s.Used id)
    (hino : A'.ino id = A.ino id) : SameInode s s' id := by
  have hshows := h.shows hrep heq
  have hshows' := h'.shows hrep' heq'
  have hobj := hshows.sameObject hshows' hused rfl
  refine ⟨hobj, fun i hi => ?_⟩
  have hb := h.blocks hrep heq hused hi
  have hused' : s'.Used id := (hshows'.used id).mpr ((hshows.used id).mp hused)
  rw [← hobj.size] at hi
  have hb' := h'.blocks hrep' heq' hused' hi
  rw [hino, hb, Option.some.injEq] at hb'
  exact hb'.symm

theorem CachedRel.unchanged (h : CachedRel s A) (h' : CachedRel s' A') (hrep : Rep A t)
    (hrep' : Rep A' t) (heq : A.ino = A.tab) (hsame : SameTree A A') : Unchanged s s' := by
  obtain ⟨-, hibm, hbbm, -, hino, htab, -⟩ := hsame
  have heq' : A'.ino = A'.tab := by rw [hino, htab, heq]
  refine ⟨?_, ?_, fun id hused => ?_⟩
  · rw [h'.inodeBmap, hibm, h.inodeBmap]
  · rw [h'.blkBmap, hbbm, h.blkBmap]
  · exact h.sameInode h' hrep hrep' heq heq' hused (congrFun hino id)

end

section

variable {numBlocks : Nat} {s : Fs} {t : Tree}

/-- A program that reads changes nothing. -/
theorem isTree_unchanged (ht : IsTree CachedRel numBlocks s t) {α : Type} {p : FsM α}
    {x : Except Halt α}
    (hw : ∀ A r, Rep A t → wp (readSpec A (· ≤ t.nodes.length)) (fun e => x = .error e) p
      (fun a _ => x = .ok a) r) :
    (∃ a s', x = .ok a ∧ run Fs.handler p s = .ok (a, s') ∧ Unchanged s s') ∨
      ∃ e, x = .error e ∧ run Fs.handler p s = .error e := by
  obtain ⟨A, hR, hrep, heq, -⟩ := ht
  have hwp := wp_of_read p hrep (SameTree.refl A) heq (r := A.reader) ⟨fun _ _ hp => hp, rfl⟩
    (hw A A.reader hrep)
  rcases run_sound cached_sound _ hR hwp with
    ⟨a, s', A', hrun, hR', r', ha, -, hafter⟩ | ⟨e, hrun, he⟩
  · exact Or.inl ⟨a, s', ha, hrun, hR.unchanged hR' hrep hafter.rep heq hafter.same⟩
  · exact Or.inr ⟨e, he, hrun⟩

end

end Sthreads.Snfs
