/-
What is in a file system is what the tree says.

`Shows` reads the tree off the caches and the blocks.  It holds of every state that is a
tree, and the claims about the contents of a file system follow from it and from what calls
do to the tree.
-/
import Sthreads.Snfs.Contents
import Sthreads.Proofs.Snfs.Calls

namespace Sthreads.Snfs

open Cache

section

variable {s : Fs} {A : View} {t : Tree}

theorem CachedRel.inodeOf (h : CachedRel s A) (heq : A.ino = A.tab) {id : Nat}
    (hid : A.known id) : Agrees (s.inodeOf id) (A.ino id) := by
  obtain ⟨hsome, hnone⟩ := h.inodes.lookup hid
  unfold Fs.inodeOf
  split
  · rename_i i hi
    exact hsome i hi
  · rename_i hi
    rw [heq]
    exact hnone hi

theorem CachedRel.dirPage (h : CachedRel s A) {dir b : Nat} (hb : A.DataBlock b)
    (hdir : A.dirOf b = none ∨ A.dirOf b = some dir) : s.dirPage dir b = A.data b := by
  obtain ⟨m, ⟨dev, ⟨-, -, -, hdev⟩, hbc⟩, hdc, hout⟩ := h.pages
  -- behind `dcache` is what `bcache` shows
  have hblock : s.blockPage b = m b := by
    obtain ⟨hsome, hnone⟩ := hbc.lookup (k := b) hb
    unfold Fs.blockPage
    split
    · rename_i i hi
      exact hsome i hi
    · rename_i hi
      exact (hdev b hb).2.symm.trans (hnone hi)
  rcases hdir with hdir | hdir
  · -- no directory has the block, so it is in no slot
    have hno : find s.dcache (dir, b) = none := by
      cases hfind : find s.dcache (dir, b) with
      | none => rfl
      | some i =>
          obtain ⟨hv, hkey⟩ := find_some hfind
          have hown := (hdc.dom i hv).2
          rw [hkey, hdir] at hown
          cases hown
    rw [Fs.dirPage, hno]
    refine hblock.trans (hout b fun k hk hkb => ?_)
    have hown := hk.2
    rw [hkb, hdir] at hown
    cases hown
  · obtain ⟨hsome, hnone⟩ := hdc.lookup (k := (dir, b)) ⟨hb, hdir⟩
    unfold Fs.dirPage
    split
    · rename_i i hi
      exact hsome i hi
    · rename_i hi
      exact hblock.trans (hnone hi)

theorem CachedRel.blockPage (h : CachedRel s A) {b : Nat} (hb : A.DataBlock b)
    (hdir : A.dirOf b = none) : s.blockPage b = A.data b := by
  have hno : find s.dcache (0, b) = none := by
    cases hfind : find s.dcache (0, b) with
    | none => rfl
    | some i =>
        obtain ⟨m, -, hdc, -⟩ := h.pages
        obtain ⟨hv, hkey⟩ := find_some hfind
        have hown := (hdc.dom i hv).2
        rw [hkey, hdir] at hown
        cases hown
  have hpage : s.dirPage 0 b = A.data b := h.dirPage hb (Or.inl hdir)
  rw [Fs.dirPage, hno] at hpage
  exact hpage

end

/-- The tree, read off a state. -/
structure Shows (fs : Fs) (t : Tree) : Prop where
  used : ∀ id, fs.Used id ↔ id ≤ t.nodes.length
  itype : ∀ id n, t.node id = some n → (fs.inodeOf id).itype = n.itype
  size : ∀ id n, t.node id = some n → (fs.inodeOf id).size = n.size
  file : ∀ id bytes, t.node id = some (.file bytes) → fs.fileBytes id = bytes
  dir : ∀ id es, t.node id = some (.dir es) → fs.dirEntries id = es
  zero : (fs.inodeOf 0).itype = 0 ∧ (fs.inodeOf 0).size = 0

theorem CachedRel.shows {s : Fs} {A : View} {t : Tree} (h : CachedRel s A) (hrep : Rep A t)
    (heq : A.ino = A.tab) : Shows s t := by
  have hknown : ∀ id n, t.node id = some n → A.known id := fun id n hn =>
    (hrep.known id).mpr (Tree.node_some hn).2.1
  refine ⟨fun id => ?_, fun id n hn => ?_, fun id n hn => ?_, fun id bytes hn => ?_,
    fun id es hn => ?_, ?_⟩
  · rw [Fs.Used, h.inodeBmap, hrep.inodeBmap, decide_eq_true_eq]
  · exact (h.inodeOf heq (hknown id n hn)).1.trans (hrep.node id n hn).itype
  · exact (h.inodeOf heq (hknown id n hn)).2.1.trans (hrep.node id n hn).size
  · obtain ⟨-, hsize, hblocks⟩ := h.inodeOf heq (hknown id _ hn)
    obtain ⟨-, hle, -, -⟩ := Tree.node_some hn
    have hnode := hrep.node id _ hn
    rw [hnode.size] at hsize
    simp only [Node.size] at hsize
    apply List.ext_getElem?
    intro j
    rw [Fs.fileBytes, List.getElem?_map, hsize]
    rcases Nat.lt_or_ge j bytes.length with hj | hj
    · rw [List.getElem?_range hj, List.getElem?_eq_getElem hj]
      obtain ⟨b, hb, hbyte⟩ := hnode.inBlocks j _ (List.getElem?_eq_getElem hj)
      have hmem := List.mem_of_getElem? hb
      have htype : (A.ino id).itype ≠ 1 := by
        rw [hnode.itype]
        simp [Node.itype]
      rw [Option.map_some, hblocks _ _ hb,
        h.blockPage (hrep.data id b hle hmem).1 (hrep.dirOf_file hle htype hmem), hbyte]
    · rw [List.getElem?_eq_none (by simpa using hj), List.getElem?_eq_none hj]
      rfl
  · obtain ⟨-, hsize, hblocks⟩ := h.inodeOf heq (hknown id _ hn)
    obtain ⟨-, hle, -, hmem⟩ := Tree.node_some hn
    have hnode := hrep.node id _ hn
    rw [hnode.size] at hsize
    simp only [Node.size] at hsize
    apply List.ext_getElem?
    intro j
    rw [Fs.dirEntries, List.getElem?_map, hsize, show 16 * es.length / 16 = es.length by omega]
    rcases Nat.lt_or_ge j es.length with hj | hj
    · rw [List.getElem?_range hj, List.getElem?_eq_getElem hj]
      have he := List.getElem?_eq_getElem hj
      generalize es[j] = e at he
      obtain ⟨b, hb, hname, hentry⟩ := hnode.inBlocks j e he
      have hmemb := List.mem_of_getElem? hb
      obtain ⟨hshort, hnul⟩ := hrep.wf.names _ hmem e (List.mem_of_getElem? he)
      dsimp only
      rw [Option.map_some, hblocks _ _ hb,
        h.dirPage (hrep.data id b hle hmemb).1 (hrep.dirOf_dir hle hmemb),
        strAt_of_strEq hname hnul (by omega), hentry]
    · rw [List.getElem?_eq_none (by simpa using hj), List.getElem?_eq_none hj]
      rfl
  · have hino := h.inodeOf heq ((hrep.known 0).mpr (Nat.zero_le _))
    rw [hrep.zero] at hino
    exact ⟨hino.1, hino.2.1⟩

/-- A path that is not empty leads where the tree says. -/
theorem Shows.walk {fs : Fs} {t : Tree} (h : Shows fs t) (hwf : t.WF) (ws : List (List UInt8))
    {dir : Nat} (hdir : 1 ≤ dir ∧ dir ≤ t.nodes.length) (last : Option Nat) (id : Nat) :
    t.walk dir last ws = (1, some id) ↔
      (ws = [] ∧ last = some id) ∨ (ws ≠ [] ∧ fs.walk dir ws = some id) := by
  induction ws generalizing dir last with
  | nil => simp [Tree.walk]
  | cons w ws ih =>
      obtain ⟨n, hn⟩ : ∃ n, t.node dir = some n := by
        cases hn : t.node dir with
        | none => rcases Tree.node_none hn with h | h <;> omega
        | some n => exact ⟨n, rfl⟩
      have htype := h.itype dir n hn
      rw [Tree.walk, Fs.walk, htype, hn]
      cases n with
      | file bytes => simp [Node.itype]
      | dir es =>
          rw [h.dir dir es hn]
          dsimp only
          cases hfind : findEntry es w with
          | none => simp [Node.itype]
          | some id' =>
              obtain ⟨-, -, -, hmem⟩ := Tree.node_some hn
              simp only [Node.itype, if_true]
              rw [ih (hwf.ids _ hmem (w, id') (findEntry_some hfind)) (some id')]
              cases ws with
              | nil => simp [Fs.walk]
              | cons w' ws => simp

theorem Shows.leads {fs : Fs} {t : Tree} (h : Shows fs t) (hwf : t.WF) {path : List UInt8}
    (hlen : path.length < 200) (htokens : tokens path ≠ []) (id : Nat) :
    t.lookup path = .ok (1, some id) ↔ fs.Leads path id := by
  have hwalk := h.walk hwf (tokens path) ⟨Nat.le_refl _, hwf.length_pos⟩ none id
  rw [Tree.lookup, Fs.Leads]
  by_cases hhead : path.head? = some slash
  · rw [if_neg (by simpa using hhead), if_neg (by omega), Except.ok.injEq, hwalk]
    simp [hhead, htokens]
  · rw [if_pos hhead]
    simp [hhead]

end Sthreads.Snfs
