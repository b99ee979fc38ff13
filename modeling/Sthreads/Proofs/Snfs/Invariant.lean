/-
The representation invariant of the file system.

`Consistent` says it of the caches, the bitmaps and the inode table.  It follows from the
view being a tree: the blocks of the inodes are laid out without overlap, and the sizes of
directories are bounded because each entry has an inode of its own.
-/
import Sthreads.Proofs.Snfs.Contents

namespace Sthreads.Snfs

structure Consistent (numBlocks : Nat) (s : Fs) : Prop where
  reserved : ∀ b, b < 10 → bmapIsset s.blkBmap b = true
  /-- The blocks that the size of an inode needs are data blocks, and marked. -/
  owned : ∀ id i, 1 ≤ id → s.Used id → i < offsetToBlocks (s.inodeOf id).size →
    10 ≤ (s.inodeOf id).blocks i ∧ (s.inodeOf id).blocks i < numBlocks ∧
      bmapIsset s.blkBmap ((s.inodeOf id).blocks i) = true
  distinct : ∀ id id' i i', 1 ≤ id → 1 ≤ id' → s.Used id → s.Used id' →
    i < offsetToBlocks (s.inodeOf id).size → i' < offsetToBlocks (s.inodeOf id').size →
    (s.inodeOf id).blocks i = (s.inodeOf id').blocks i' → id = id' ∧ i = i'
  itype : ∀ id, 1 ≤ id → s.Used id → (s.inodeOf id).itype = 1 ∨ (s.inodeOf id).itype = 2
  file : ∀ id, 1 ≤ id → s.Used id → (s.inodeOf id).itype = 2 → (s.inodeOf id).size ≤ 10 * 512
  dir : ∀ id, 1 ≤ id → s.Used id → (s.inodeOf id).itype = 1 →
    (s.inodeOf id).size % 16 = 0 ∧ (s.inodeOf id).size ≤ 62 * 16

/-- An inode that is used is an object's. -/
theorem Tree.node_of_le {t : Tree} {id : Nat} (hpos : 1 ≤ id) (hle : id ≤ t.nodes.length) :
    ∃ n, t.node id = some n := by
  cases hn : t.node id with
  | none => rcases Tree.node_none hn with h | h <;> omega
  | some n => exact ⟨n, rfl⟩

theorem CachedRel.consistent {s : Fs} {A : View} {t : Tree} (h : CachedRel s A) (hrep : Rep A t)
    (heq : A.ino = A.tab) : Consistent A.numBlocks s := by
  have hshows := h.shows hrep heq
  have hlimit : A.limit ≤ A.numBlocks := (asInt_toNat_le A.numBlocks).1
  -- the blocks of an inode are those of the view
  have hblock : ∀ id i, 1 ≤ id → s.Used id → i < offsetToBlocks (s.inodeOf id).size →
      id ≤ t.nodes.length ∧ (A.ino id).blks[i]? = some ((s.inodeOf id).blocks i) := by
    intro id i hpos hused hi
    have hle := (hshows.used id).mp hused
    obtain ⟨n, hn⟩ := Tree.node_of_le hpos hle
    rw [hshows.size id n hn, ← (hrep.node id n hn).blks] at hi
    have hb := List.getElem?_eq_getElem hi
    rw [(h.inodeOf heq ((hrep.known id).mpr hle)).2.2 i _ hb]
    exact ⟨hle, hb⟩
  refine ⟨?_, ?_, ?_, ?_, ?_, ?_⟩
  · rw [h.blkBmap]
    exact hrep.low
  · intro id i hpos hused hi
    obtain ⟨hle, hb⟩ := hblock id i hpos hused hi
    obtain ⟨⟨hten, hlt⟩, hset⟩ := hrep.data id _ hle (List.mem_of_getElem? hb)
    rw [h.blkBmap]
    exact ⟨hten, by omega, hset⟩
  · intro id id' i i' hpos hpos' hused hused' hi hi' heqb
    obtain ⟨hle, hb⟩ := hblock id i hpos hused hi
    obtain ⟨hle', hb'⟩ := hblock id' i' hpos' hused' hi'
    exact hrep.inj id id' i i' _ hle hle' hb (heqb ▸ hb')
  · intro id hpos hused
    obtain ⟨n, hn⟩ := Tree.node_of_le hpos ((hshows.used id).mp hused)
    rw [hshows.itype id n hn]
    cases n with
    | dir es => exact Or.inl rfl
    | file bytes => exact Or.inr rfl
  · intro id hpos hused htype
    obtain ⟨n, hn⟩ := Tree.node_of_le hpos ((hshows.used id).mp hused)
    rw [hshows.itype id n hn] at htype
    rw [hshows.size id n hn]
    cases n with
    | dir es => cases htype
    | file bytes => exact hrep.wf.sizes _ (Tree.node_some hn).2.2.2 bytes rfl
  · intro id hpos hused htype
    obtain ⟨n, hn⟩ := Tree.node_of_le hpos ((hshows.used id).mp hused)
    rw [hshows.itype id n hn] at htype
    rw [hshows.size id n hn]
    cases n with
    | dir es =>
        have := hrep.wf.entries_le (Tree.node_some hn).2.2.2
        simp only [Node.entries] at this
        simp only [Node.size]
        omega
    | file bytes => cases htype

/-- A block that is found to be free is in the bitmap. -/
theorem findFreeFrom_lt {bmap : Page 512} {left i b : Nat}
    (h : findFreeFrom bmap left i = .ok (some b)) : b < 4096 := by
  induction left generalizing i with
  | zero => cases h
  | succ left ih =>
      rw [findFreeFrom] at h
      split at h
      · cases h
      · split at h
        · exact ih h
        · obtain rfl := Option.some.inj (Except.ok.inj h)
          omega

/-- A call ends the process only for the attributes of inode 0 or a path that is too long. -/
theorem Tree.call_error {t : Tree} {c : Call} {e : Halt} (h : t.call c = .error e) :
    e = .exit ∨ e = .lineOverrun := by
  cases c with
  | getAttrs file =>
      rw [Tree.call, Tree.getAttrs] at h
      split at h
      · cases h
      · split at h
        · exact Or.inl (Except.error.inj h).symm
        · cases h
  | lookup file =>
      rw [Tree.call, Tree.lookup] at h
      split at h
      · cases h
      · split at h
        · exact Or.inr (Except.error.inj h).symm
        · cases h
  | read file offset count => cases h
  | write file offset count buffer => cases h
  | create dir file => cases h
  | mkdir dir newdir => cases h

/-- In every state that is reached the file system is consistent, the search for a free block
returns one that the bitmap has, and no call goes past the end of a bitmap, of an inode's
blocks or of the allocated bytes. -/
theorem representation_invariant {numBlocks : Nat} (hn : 10 ≤ numBlocks) {s : Fs}
    (h : Reached numBlocks s) :
    Consistent numBlocks s ∧
      (∀ bmap size b, fsiBmapFindFree bmap size = .ok (some b) → b < 4096) ∧
      ∀ (c : Call) (junk : Page 512) (e : Halt), c.Ok →
        Prog.run Fs.handler (c.prog junk) s = .error e → e = .exit ∨ e = .lineOverrun := by
  obtain ⟨t, ht⟩ := h.isTree hn
  refine ⟨?_, fun _ _ _ hb => findFreeFrom_lt hb, fun c junk e hok hrun => ?_⟩
  · obtain ⟨A, hrel, hrep, heq, rfl⟩ := ht
    exact hrel.consistent hrep heq
  · rcases isTree_call cached_sound cached_forgets ht hok junk with
      ⟨r, t', s', -, hrun', -⟩ | ⟨e', hcall, hrun'⟩
    · rw [hrun'] at hrun
      cases hrun
    · rw [hrun'] at hrun
      obtain rfl := Except.error.inj hrun
      exact Tree.call_error hcall

/-- Twelve blocks, and a file that is created and written. -/
theorem representation_invariant_twelve_blocks :
    ∃ s, Fs.session 12 (fun i => 7 * i) (fun _ _ => 0)
        [.create 1 ⟨[102], by decide⟩, .write 2 0 513 (fun _ => 65)] = .ok s ∧
      Consistent 12 s := by
  have hok : (Fs.session 12 (fun i => 7 * i) (fun _ _ => 0)
      [.create 1 ⟨[102], by decide⟩, .write 2 0 513 (fun _ => 65)]).isOk = true := by
    decide +kernel
  cases hs : Fs.session 12 (fun i => 7 * i) (fun _ _ => 0)
      [.create 1 ⟨[102], by decide⟩, .write 2 0 513 (fun _ => 65)] with
  | error e =>
      rw [hs] at hok
      cases hok
  | ok s =>
      exact ⟨s, rfl, (representation_invariant (by decide)
        (Reached.session (by simp [Call.Ok]) hs)).1⟩

end Sthreads.Snfs
