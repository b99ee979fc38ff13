/-
How a tree is laid out in the blocks.

`Rep` says that a view is a tree: the inode of each object has the object's type and
size and just the blocks that its size needs, the bytes and the entries are in those
blocks, no block is used twice, and the bitmaps have a bit for what is used.  `Tree.WF`
says what holds of the tree itself, above all that there is one entry for each object but
the root: this is why a directory never needs an eleventh block.

A failed write may leave a block marked that nothing uses; it can do so only if there are
at most 4096 blocks.  With more, every marked block is used, and there are too few objects
for 4096 blocks to be used: this is why no search in the bitmap runs past its end.
-/
import Mathlib.Algebra.Order.BigOperators.Group.List
import Mathlib.Algebra.Order.Group.Nat
import Mathlib.Data.List.Perm.Subperm
import Sthreads.Proofs.Snfs.View
import Sthreads.Snfs.Tree

namespace Sthreads.Snfs

/-! ### Trees -/

/-- What holds of every tree that the file system can be. -/
structure Tree.WF (t : Tree) : Prop where
  root : ∃ es, t.node 1 = some (.dir es)
  count : t.nodes.length ≤ 63
  entries : (t.nodes.map fun n => n.entries.length).sum + 1 = t.nodes.length
  ids : ∀ n ∈ t.nodes, ∀ e ∈ n.entries, 1 ≤ e.2 ∧ e.2 ≤ t.nodes.length
  names : ∀ n ∈ t.nodes, ∀ e ∈ n.entries, e.1.length ≤ 13 ∧ ∀ c ∈ e.1, c ≠ 0
  sizes : ∀ n ∈ t.nodes, ∀ bytes, n = .file bytes → bytes.length ≤ 5120

theorem Tree.node_some {t : Tree} {id : Nat} {n : Node} (h : t.node id = some n) :
    1 ≤ id ∧ id ≤ t.nodes.length ∧ t.nodes[id - 1]? = some n ∧ n ∈ t.nodes := by
  unfold Tree.node at h
  split at h
  · cases h
  · have hlt := (List.getElem?_eq_some_iff.mp h).1
    exact ⟨by omega, by omega, h, List.mem_of_getElem? h⟩

theorem Tree.node_none {t : Tree} {id : Nat} (h : t.node id = none) :
    id = 0 ∨ t.nodes.length < id := by
  unfold Tree.node at h
  split at h
  · exact Or.inl ‹_›
  · rw [List.getElem?_eq_none_iff] at h
    omega

theorem Tree.WF.length_pos {t : Tree} (h : t.WF) : 1 ≤ t.nodes.length := by
  obtain ⟨es, hroot⟩ := h.root
  exact (Tree.node_some hroot).2.1

theorem Tree.setNode_length (t : Tree) (id : Nat) (n : Node) :
    (t.setNode id n).nodes.length = t.nodes.length := List.length_set ..

/-- The object that was replaced, and the others. -/
theorem Tree.node_setNode {t : Tree} {id : Nat} (hpos : 1 ≤ id) (hle : id ≤ t.nodes.length)
    (n : Node) (id' : Nat) :
    (t.setNode id n).node id' = if id' = id then some n else t.node id' := by
  unfold Tree.node Tree.setNode
  by_cases h0 : id' = 0
  · rw [if_pos h0, if_pos h0, if_neg (by omega)]
  · rw [if_neg h0, if_neg h0, List.getElem?_set]
    by_cases hid : id' = id
    · rw [if_pos hid, if_pos (by omega), if_pos (by omega)]
    · rw [if_neg hid, if_neg (by omega)]

/-- The objects, and the one that was added. -/
theorem Tree.node_append {t : Tree} (free : Nat) (new : Node) (id : Nat) :
    (Tree.mk free (t.nodes ++ [new])).node id =
      if id = t.nodes.length + 1 then some new else t.node id := by
  unfold Tree.node
  by_cases h0 : id = 0
  · rw [if_pos h0, if_pos h0, if_neg (by omega)]
  · rw [if_neg h0, if_neg h0]
    by_cases hid : id = t.nodes.length + 1
    · rw [if_pos hid, show id - 1 = t.nodes.length by omega, List.getElem?_concat_length]
    · rw [if_neg hid]
      rcases Nat.lt_or_ge (id - 1) t.nodes.length with hlt | hge
      · exact List.getElem?_append_left hlt
      · rw [List.getElem?_eq_none (by simp; omega), List.getElem?_eq_none hge]

/-- What an object created in a directory leaves of a tree. -/
theorem Tree.node_created {t : Tree} {dir : Nat} (hpos : 1 ≤ dir) (hle : dir ≤ t.nodes.length)
    (free : Nat) (n new : Node) (id : Nat) :
    (Tree.mk free ((t.setNode dir n).nodes ++ [new])).node id =
      if id = t.nodes.length + 1 then some new else if id = dir then some n else t.node id := by
  rw [Tree.node_append, Tree.setNode_length, Tree.node_setNode hpos hle]

theorem Tree.node_of_gt {t : Tree} {id : Nat} (h : t.nodes.length < id) : t.node id = none := by
  rw [Tree.node, if_neg (by omega), List.getElem?_eq_none (by omega)]

/-- Replacing an element changes a sum by the difference. -/
theorem sum_map_set {l : List Node} (f : Node → Nat) {i : Nat} {old : Node} (new : Node)
    (h : l[i]? = some old) : ((l.set i new).map f).sum + f old = (l.map f).sum + f new := by
  induction l generalizing i with
  | nil => cases h
  | cons n l ih =>
      cases i with
      | zero =>
          obtain rfl : n = old := by simpa using h
          rw [List.set_cons_zero, List.map_cons, List.map_cons, List.sum_cons, List.sum_cons]
          omega
      | succ i =>
          have := ih (i := i) (by simpa using h)
          rw [List.set_cons_succ, List.map_cons, List.map_cons, List.sum_cons, List.sum_cons]
          omega

/-- A file gets other bytes. -/
theorem Tree.WF.setFile {t : Tree} (h : t.WF) {id : Nat} {bytes bytes' : List UInt8}
    (hfile : t.node id = some (.file bytes)) (hlen : bytes'.length ≤ 5120) :
    (t.setNode id (.file bytes')).WF := by
  obtain ⟨-, -, hget, -⟩ := Tree.node_some hfile
  have hmem : ∀ n ∈ (t.setNode id (.file bytes')).nodes, n ∈ t.nodes ∨ n = .file bytes' :=
    fun n hn => List.mem_or_eq_of_mem_set hn
  have hsum := sum_map_set (fun n => n.entries.length) (.file bytes') hget
  have hold := h.entries
  refine ⟨?_, ?_, ?_, ?_, ?_, ?_⟩
  · obtain ⟨es, hroot⟩ := h.root
    obtain ⟨hpos, hle, -, -⟩ := Tree.node_some hfile
    refine ⟨es, ?_⟩
    rw [Tree.node_setNode hpos hle, if_neg, hroot]
    rintro rfl
    rw [hroot] at hfile
    cases hfile
  · rw [Tree.setNode_length]
    exact h.count
  · rw [Tree.setNode_length, ← hold]
    exact congrArg (· + 1) hsum
  · intro n hn e he
    rw [Tree.setNode_length]
    rcases hmem n hn with hn | rfl
    · exact h.ids n hn e he
    · cases he
  · intro n hn e he
    rcases hmem n hn with hn | rfl
    · exact h.names n hn e he
    · cases he
  · intro n hn bytes'' hb
    rcases hmem n hn with hn | rfl
    · exact h.sizes n hn bytes'' hb
    · cases hb
      exact hlen

/-- A directory gets an entry for a new object. -/
theorem Tree.WF.create {t : Tree} (h : t.WF) {dir : Nat} {es : List (List UInt8 × Nat)}
    (hdir : t.node dir = some (.dir es)) (hroom : t.nodes.length + 1 < 64) {name : List UInt8}
    (hname : name.length ≤ 13 ∧ ∀ c ∈ name, c ≠ 0) {new : Node} (hnew : new.size = 0)
    (free : Nat) :
    (Tree.mk free ((t.setNode dir (.dir (es ++ [(name, t.nodes.length + 1)]))).nodes ++ [new])).WF := by
  obtain ⟨-, -, hget, hin⟩ := Tree.node_some hdir
  have hempty : new.entries = [] := by
    cases new with
    | dir es' =>
        simp only [Node.size] at hnew
        have hes : es' = [] := List.length_eq_zero_iff.mp (by omega)
        exact hes
    | file _ => rfl
  have hmem : ∀ n ∈ (t.setNode dir (.dir (es ++ [(name, t.nodes.length + 1)]))).nodes ++ [new],
      n ∈ t.nodes ∨ n = .dir (es ++ [(name, t.nodes.length + 1)]) ∨ n = new := by
    intro n hn
    rcases List.mem_append.mp hn with hn | hn
    · rcases List.mem_or_eq_of_mem_set hn with hn | hn
      · exact Or.inl hn
      · exact Or.inr (Or.inl hn)
    · exact Or.inr (Or.inr (List.mem_singleton.mp hn))
  have hlen : ((t.setNode dir (.dir (es ++ [(name, t.nodes.length + 1)]))).nodes ++ [new]).length =
      t.nodes.length + 1 := by
    rw [List.length_append, Tree.setNode_length, List.length_singleton]
  have hsum := sum_map_set (fun n => n.entries.length)
    (.dir (es ++ [(name, t.nodes.length + 1)])) hget
  have hold := h.entries
  refine ⟨?_, ?_, ?_, ?_, ?_, ?_⟩
  · obtain ⟨hpos, hle, -, -⟩ := Tree.node_some hdir
    obtain ⟨es', hroot⟩ := h.root
    rw [Tree.node_append, Tree.setNode_length, if_neg (by omega), Tree.node_setNode hpos hle]
    split
    · exact ⟨_, rfl⟩
    · exact ⟨es', hroot⟩
  · rw [hlen]
    omega
  · rw [hlen, List.map_append, List.sum_append]
    have hlen' : (Node.dir (es ++ [(name, t.nodes.length + 1)])).entries.length =
        (Node.dir es).entries.length + 1 := List.length_append
    simp only [Tree.setNode, List.map_cons, List.map_nil, List.sum_cons, List.sum_nil, hempty,
      List.length_nil]
    omega
  · intro n hn e he
    rw [hlen]
    rcases hmem n hn with hn | rfl | rfl
    · have := h.ids n hn e he
      omega
    · simp only [Node.entries, List.mem_append, List.mem_singleton] at he
      rcases he with he | rfl
      · have := h.ids _ hin e he
        omega
      · exact ⟨by omega, Nat.le_refl _⟩
    · rw [hempty] at he
      cases he
  · intro n hn e he
    rcases hmem n hn with hn | rfl | rfl
    · exact h.names n hn e he
    · simp only [Node.entries, List.mem_append, List.mem_singleton] at he
      rcases he with he | rfl
      · exact h.names _ hin e he
      · exact hname
    · rw [hempty] at he
      cases he
  · intro n hn bytes hb
    rcases hmem n hn with hn | rfl | rfl
    · exact h.sizes n hn bytes hb
    · cases hb
    · rw [hb] at hnew
      simp only [Node.size] at hnew
      omega

/-- A directory has at most 62 entries. -/
theorem Tree.WF.entries_le {t : Tree} (h : t.WF) {n : Node} (hn : n ∈ t.nodes) :
    n.entries.length ≤ 62 := by
  have hle : n.entries.length ≤ (t.nodes.map fun n => n.entries.length).sum :=
    List.le_sum_of_mem (List.mem_map_of_mem (f := fun n => n.entries.length) hn)
  have := h.entries
  have := h.count
  omega

theorem offsetToBlocks_eq (n : Nat) : offsetToBlocks n = (n + 511) / 512 := by
  unfold offsetToBlocks
  split <;> omega

/-- No object needs more than ten blocks. -/
theorem Tree.WF.blocks_le {t : Tree} (h : t.WF) {n : Node} (hn : n ∈ t.nodes) :
    offsetToBlocks n.size ≤ 10 := by
  rw [offsetToBlocks_eq]
  cases n with
  | dir entries =>
      have := h.entries_le hn
      simp only [Node.entries] at this
      simp only [Node.size]
      omega
  | file bytes =>
      have := h.sizes _ hn bytes rfl
      simp only [Node.size]
      omega

/-! ### Bitmaps -/

/-- The blocks that are not marked. -/
def freeCount (bmap : Page 512) (limit : Nat) : Nat :=
  (List.range limit).countP fun b => !bmapIsset bmap b

theorem freeCount_succ (bmap : Page 512) (n : Nat) :
    freeCount bmap (n + 1) = freeCount bmap n + if bmapIsset bmap n then 0 else 1 := by
  rw [freeCount, List.range_succ, List.countP_append, ← freeCount]
  cases h : bmapIsset bmap n <;> simp [h]

theorem freeCount_eq_zero {bmap : Page 512} {limit : Nat} :
    freeCount bmap limit = 0 ↔ ∀ b, b < limit → bmapIsset bmap b = true := by
  rw [freeCount, List.countP_eq_zero]
  simp

/-- Marking a free block leaves one less. -/
theorem freeCount_bmapSet {bmap : Page 512} {limit b : Nat} (hb : b < limit) (h4 : b < 4096)
    (hfree : bmapIsset bmap b = false) :
    freeCount (bmapSet bmap b) limit + 1 = freeCount bmap limit := by
  have hbelow : ∀ n, n ≤ b → freeCount (bmapSet bmap b) n = freeCount bmap n := by
    intro n hn
    induction n with
    | zero => rfl
    | succ n ih =>
        rw [freeCount_succ, freeCount_succ, ih (by omega), bmapIsset_bmapSet h4]
        have hne : n ≠ b := by omega
        simp [hne]
  obtain ⟨k, rfl⟩ : ∃ k, limit = b + 1 + k := ⟨limit - (b + 1), by omega⟩
  clear hb
  induction k with
  | zero =>
      rw [Nat.add_zero, freeCount_succ, freeCount_succ, hbelow b (Nat.le_refl b),
        bmapIsset_bmapSet h4, hfree]
      simp
  | succ k ih =>
      rw [← Nat.add_assoc, freeCount_succ, freeCount_succ, bmapIsset_bmapSet h4, ← ih]
      have hne : b + 1 + k ≠ b := by omega
      simp only [hne, decide_false, Bool.false_or]
      omega

/-- The search finds the first free bit, if there is one before the end of the bitmap. -/
theorem findFreeFrom_spec (bmap : Page 512) (left i : Nat)
    (h : i + left ≤ 4096 ∨ ∃ b, i ≤ b ∧ b < i + left ∧ b < 4096 ∧ bmapIsset bmap b = false) :
    (findFreeFrom bmap left i = .ok none ∧ ∀ b, i ≤ b → b < i + left → bmapIsset bmap b = true) ∨
      ∃ b, findFreeFrom bmap left i = .ok (some b) ∧ i ≤ b ∧ b < i + left ∧ b < 4096 ∧
        bmapIsset bmap b = false ∧ ∀ c, i ≤ c → c < b → bmapIsset bmap c = true := by
  induction left generalizing i with
  | zero => exact Or.inl ⟨rfl, fun b _ _ => by omega⟩
  | succ left ih =>
      have hi : i < 4096 := by
        rcases h with h | ⟨b, h1, -, h2, -⟩ <;> omega
      rw [findFreeFrom, if_neg (by omega)]
      cases hset : bmapIsset bmap i with
      | false =>
          exact Or.inr ⟨i, by simp, by omega, by omega, hi, hset, fun c _ _ => by omega⟩
      | true =>
          rw [if_pos rfl]
          have hnext : ∀ b, i ≤ b → bmapIsset bmap b = false → i + 1 ≤ b := by
            intro b hb hfalse
            rcases Nat.eq_or_lt_of_le hb with rfl | hlt
            · rw [hset] at hfalse
              cases hfalse
            · exact hlt
          have h' : i + 1 + left ≤ 4096 ∨
              ∃ b, i + 1 ≤ b ∧ b < i + 1 + left ∧ b < 4096 ∧ bmapIsset bmap b = false := by
            rcases h with h | ⟨b, h1, h2, h3, h4⟩
            · exact Or.inl (by omega)
            · exact Or.inr ⟨b, hnext b h1 h4, by omega, h3, h4⟩
          rcases ih _ h' with ⟨hnone, hall⟩ | ⟨b, hsome, h1, h2, h3, h4, h5⟩
          · refine Or.inl ⟨hnone, fun b hb hb' => ?_⟩
            rcases Nat.eq_or_lt_of_le hb with rfl | hlt
            · exact hset
            · exact hall b hlt (by omega)
          · refine Or.inr ⟨b, hsome, by omega, by omega, h3, h4, fun c hc hcb => ?_⟩
            rcases Nat.eq_or_lt_of_le hc with rfl | hlt
            · exact hset
            · exact h5 c hlt hcb

/-! ### Views -/

/-- The object is in the blocks of its inode. -/
def InBlocks (A : View) (id : Nat) : Node → Prop
  | .dir entries => ∀ j e, entries[j]? = some e →
      ∃ b, (A.ino id).blks[j / 32]? = some b ∧ IsEntry (A.data b) (j % 32) e.1 e.2
  | .file bytes => ∀ j c, bytes[j]? = some c →
      ∃ b, (A.ino id).blks[j / 512]? = some b ∧ (A.data b).get (j % 512) = c

/-- The inode is that of the object. -/
structure NodeRep (A : View) (id : Nat) (n : Node) : Prop where
  itype : (A.ino id).itype = n.itype
  size : (A.ino id).size = n.size
  blks : (A.ino id).blks.length = offsetToBlocks n.size
  inBlocks : InBlocks A id n

/-- Each block belongs to one place of one of the inodes up to `n`. -/
structure Layout (A : View) (n : Nat) : Prop where
  count : n ≤ 63
  short : ∀ id, id ≤ n → (A.ino id).blks.length ≤ 10
  data : ∀ id b, id ≤ n → b ∈ (A.ino id).blks → A.DataBlock b ∧ bmapIsset A.blkBmap b = true
  inj : ∀ id id' i i' b : Nat, id ≤ n → id' ≤ n →
    (A.ino id).blks[i]? = some b → (A.ino id').blks[i']? = some b → id = id' ∧ i = i'
  low : ∀ b, b < 10 → bmapIsset A.blkBmap b = true
  dirOf : ∀ b d, A.dirOf b = some d → d ≤ n ∧ b ∈ (A.ino d).blks ∧ (A.ino d).itype = 1
  used : 4096 < A.limit → ∀ b, bmapIsset A.blkBmap b = true →
    b < 10 ∨ ∃ id, id ≤ n ∧ b ∈ (A.ino id).blks

/-- The view is this tree. -/
structure Rep (A : View) (t : Tree) : Prop extends Layout A t.nodes.length where
  wf : t.WF
  known : ∀ id, A.known id ↔ id ≤ t.nodes.length
  inodeBmap : ∀ id, bmapIsset A.inodeBmap id = decide (id ≤ t.nodes.length)
  zero : A.ino 0 = ⟨0, 0, []⟩
  node : ∀ id n, t.node id = some n → NodeRep A id n
  free : t.free = freeCount A.blkBmap A.limit

section

variable {A : View} {n : Nat}

/-- The blocks of different inodes differ. -/
theorem Layout.disjoint (h : Layout A n) {id id' b : Nat} (hid : id ≤ n) (hid' : id' ≤ n)
    (hb : b ∈ (A.ino id).blks) (hb' : b ∈ (A.ino id').blks) : id = id' := by
  obtain ⟨i, hi⟩ := List.mem_iff_getElem?.mp hb
  obtain ⟨i', hi'⟩ := List.mem_iff_getElem?.mp hb'
  exact (h.inj id id' i i' b hid hid' hi hi').1

/-- The blocks of a file belong to no directory. -/
theorem Layout.dirOf_file (h : Layout A n) {id b : Nat} (hid : id ≤ n)
    (htype : (A.ino id).itype ≠ 1) (hb : b ∈ (A.ino id).blks) : A.dirOf b = none := by
  cases hd : A.dirOf b with
  | none => rfl
  | some d =>
      obtain ⟨hlen, hmem, hone⟩ := h.dirOf b d hd
      rw [h.disjoint hlen hid hmem hb] at hone
      exact absurd hone htype

/-- The blocks of a directory belong to no other. -/
theorem Layout.dirOf_dir (h : Layout A n) {id b : Nat} (hid : id ≤ n)
    (hb : b ∈ (A.ino id).blks) : A.dirOf b = none ∨ A.dirOf b = some id := by
  cases hd : A.dirOf b with
  | none => exact Or.inl rfl
  | some d =>
      obtain ⟨hlen, hmem, -⟩ := h.dirOf b d hd
      rw [h.disjoint hlen hid hmem hb]
      exact Or.inr rfl

/-- A block that is not marked is nobody's. -/
theorem Layout.fresh (h : Layout A n) {b : Nat} (hb : bmapIsset A.blkBmap b = false) :
    10 ≤ b ∧ A.dirOf b = none ∧ ∀ id, id ≤ n → b ∉ (A.ino id).blks := by
  have hnone : ∀ id, id ≤ n → b ∉ (A.ino id).blks := fun id hid hmem => by
    rw [(h.data id b hid hmem).2] at hb
    cases hb
  refine ⟨?_, ?_, hnone⟩
  · by_contra hlt
    rw [h.low b (by omega)] at hb
    cases hb
  · cases hd : A.dirOf b with
    | none => rfl
    | some d =>
        obtain ⟨hlen, hmem, -⟩ := h.dirOf b d hd
        exact absurd hmem (hnone d hlen)

/-- If nothing is marked that is not used, one of the first 4096 blocks is free. -/
theorem Layout.exists_free (h : Layout A n) (hlim : 4096 < A.limit) :
    ∃ b, b < 4096 ∧ bmapIsset A.blkBmap b = false := by
  by_contra hno
  have hall : ∀ b, b < 4096 → bmapIsset A.blkBmap b = true := by
    intro b hb
    cases hset : bmapIsset A.blkBmap b with
    | true => rfl
    | false => exact absurd ⟨b, hb, hset⟩ hno
  -- all the blocks that are used, in a list that is too short
  have hlen : ∀ k, k ≤ n + 1 →
      ((List.range k).flatMap fun id => (A.ino id).blks).length ≤ 10 * k := by
    intro k hk
    induction k with
    | zero => simp
    | succ k ih =>
        rw [List.range_succ, List.flatMap_append, List.length_append]
        have := ih (by omega)
        have := h.short k (by omega)
        simp only [List.flatMap_cons, List.flatMap_nil, List.append_nil]
        omega
  have hsub : List.range 4096 ⊆ List.range 10 ++
      (List.range (n + 1)).flatMap fun id => (A.ino id).blks := by
    intro b hb
    rw [List.mem_append, List.mem_range, List.mem_flatMap]
    rcases h.used hlim b (hall b (List.mem_range.mp hb)) with hlt | ⟨id, hid, hmem⟩
    · exact Or.inl hlt
    · exact Or.inr ⟨id, List.mem_range.mpr (by omega), hmem⟩
  have hle := (List.nodup_range.subperm hsub).length_le
  have := hlen (n + 1) (Nat.le_refl _)
  have := h.count
  rw [List.length_append, List.length_range, List.length_range] at hle
  omega

/-- What the inodes are like but for their sizes is all that matters. -/
theorem Layout.congr {A' : View} (h : Layout A n) (hnum : A'.numBlocks = A.numBlocks)
    (hbmap : A'.blkBmap = A.blkBmap) (hblks : ∀ id, (A'.ino id).blks = (A.ino id).blks)
    (hdir : ∀ b d, A'.dirOf b = some d → d ≤ n ∧ b ∈ (A.ino d).blks ∧ (A'.ino d).itype = 1) :
    Layout A' n := by
  have hlim : A'.limit = A.limit := by rw [View.limit, View.limit, hnum]
  refine ⟨h.count, ?_, ?_, ?_, ?_, ?_, ?_⟩
  · simpa only [hblks] using h.short
  · simpa only [hblks, hbmap, View.DataBlock, hlim] using h.data
  · simpa only [hblks] using h.inj
  · rw [hbmap]
    exact h.low
  · simpa only [hblks] using hdir
  · simpa only [hblks, hbmap, hlim] using h.used

/-- Blocks are taken away from inodes, but stay marked. -/
theorem Layout.fewer {A' : View} (h : Layout A n) (hlim : A.limit ≤ 4096)
    (hnum : A'.numBlocks = A.numBlocks) (hbmap : A'.blkBmap = A.blkBmap)
    (hblks : ∀ id, (A'.ino id).blks <+: (A.ino id).blks)
    (hdir : ∀ b d, A'.dirOf b = some d → d ≤ n ∧ b ∈ (A'.ino d).blks ∧ (A'.ino d).itype = 1) :
    Layout A' n := by
  have hlim' : A'.limit = A.limit := by rw [View.limit, View.limit, hnum]
  have hget : ∀ id i b : Nat,
      (A'.ino id).blks[i]? = some b → (A.ino id).blks[i]? = some b := by
    intro id i b hb
    obtain ⟨rest, hrest⟩ := hblks id
    rw [← hrest, List.getElem?_append_left (List.getElem?_eq_some_iff.mp hb).1]
    exact hb
  refine ⟨h.count, ?_, ?_, ?_, ?_, hdir, ?_⟩
  · exact fun id hid => Nat.le_trans (hblks id).length_le (h.short id hid)
  · intro id b hid hb
    rw [View.DataBlock, hlim', hbmap]
    exact h.data id b hid ((hblks id).subset hb)
  · intro id id' i i' b hid hid' hb hb'
    exact h.inj id id' i i' b hid hid' (hget id i b hb) (hget id' i' b hb')
  · rw [hbmap]
    exact h.low
  · intro hbig
    omega

/-- A free block is marked and given to an inode. -/
theorem Layout.alloc (h : Layout A n) {id b : Nat} (hid : id ≤ n)
    (hshort : (A.ino id).blks.length < 10) (hlim : b < A.limit) (hlt : b < 4096)
    (hfree : bmapIsset A.blkBmap b = false) : Layout (A.alloc id b) n := by
  obtain ⟨hten, -, hnobody⟩ := h.fresh hfree
  have hmark : ∀ b', bmapIsset (A.alloc id b).blkBmap b' =
      (decide (b' = b) || bmapIsset A.blkBmap b') := bmapIsset_bmapSet hlt
  -- the blocks of each inode
  have hblks : ∀ id' b', b' ∈ ((A.alloc id b).ino id').blks ↔
      b' ∈ (A.ino id').blks ∨ id' = id ∧ b' = b := by
    intro id' b'
    by_cases hi : id' = id
    · subst hi
      simp [View.alloc]
    · simp [View.alloc, hi]
  have hget : ∀ id' i b', ((A.alloc id b).ino id').blks[i]? = some b' →
      (A.ino id').blks[i]? = some b' ∨ id' = id ∧ i = (A.ino id).blks.length ∧ b' = b := by
    intro id' i b' hb'
    by_cases hi : id' = id
    · subst hi
      simp only [View.alloc, Function.update_self] at hb'
      rw [List.getElem?_append] at hb'
      split at hb'
      · exact Or.inl hb'
      · have hlast := (List.getElem?_eq_some_iff.mp hb').1
        rw [List.length_singleton] at hlast
        refine Or.inr ⟨rfl, by omega, ?_⟩
        rw [show i - (A.ino id').blks.length = 0 by omega] at hb'
        exact (Option.some.inj hb').symm
    · simp only [View.alloc, Function.update_of_ne hi] at hb'
      exact Or.inl hb'
  refine ⟨h.count, ?_, ?_, ?_, ?_, ?_, ?_⟩
  · intro id' hid'
    by_cases hi : id' = id
    · subst hi
      simp only [View.alloc, Function.update_self, List.length_append, List.length_singleton]
      omega
    · simp only [View.alloc, Function.update_of_ne hi]
      exact h.short id' hid'
  · intro id' b' hid' hb'
    rw [hmark]
    rcases (hblks id' b').mp hb' with hold | ⟨-, rfl⟩
    · obtain ⟨hdata, hset⟩ := h.data id' b' hid' hold
      exact ⟨hdata, by rw [hset, Bool.or_true]⟩
    · exact ⟨⟨hten, hlim⟩, by simp⟩
  · intro id₁ id₂ i₁ i₂ b' h₁ h₂ hb₁ hb₂
    rcases hget id₁ i₁ b' hb₁ with hold₁ | ⟨rfl, rfl, rfl⟩ <;>
      rcases hget id₂ i₂ b' hb₂ with hold₂ | ⟨e₂, e₃, e₄⟩
    · exact h.inj id₁ id₂ i₁ i₂ b' h₁ h₂ hold₁ hold₂
    · exact absurd (List.mem_of_getElem? (e₄ ▸ hold₁)) (hnobody id₁ h₁)
    · exact absurd (List.mem_of_getElem? hold₂) (hnobody id₂ h₂)
    · exact ⟨e₂.symm, e₃.symm⟩
  · intro b' hb'
    rw [hmark, h.low b' hb', Bool.or_true]
  · intro b' d hd
    obtain ⟨hle, hmem, htype⟩ := h.dirOf b' d hd
    refine ⟨hle, (hblks d b').mpr (Or.inl hmem), ?_⟩
    by_cases hi : d = id
    · subst hi
      simpa [View.alloc] using htype
    · simpa [View.alloc, Function.update_of_ne hi] using htype
  · intro hbig b' hset
    rw [hmark, Bool.or_eq_true, decide_eq_true_eq] at hset
    rcases hset with rfl | hset
    · exact Or.inr ⟨id, hid, (hblks id b').mpr (Or.inr ⟨rfl, rfl⟩)⟩
    · rcases h.used hbig b' hset with hlow | ⟨id', hid', hmem⟩
      · exact Or.inl hlow
      · exact Or.inr ⟨id', hid', (hblks id' b').mpr (Or.inl hmem)⟩

/-- An inode without blocks is added. -/
theorem Layout.addInode (h : Layout A n) (hn : n + 1 ≤ 63) (itype : Nat) :
    Layout (A.addInode (n + 1) itype) (n + 1) := by
  have hnew : ((A.addInode (n + 1) itype).ino (n + 1)).blks = [] := by
    simp [View.addInode]
  have hold : ∀ id, id ≤ n → (A.addInode (n + 1) itype).ino id = A.ino id := by
    intro id hid
    simp [View.addInode, Function.update_of_ne (show id ≠ n + 1 by omega)]
  have hle : ∀ id, id ≤ n + 1 → id = n + 1 ∨ id ≤ n := fun id hid => by omega
  refine ⟨hn, ?_, ?_, ?_, h.low, ?_, ?_⟩
  · intro id hid
    rcases hle id hid with rfl | hid
    · rw [hnew]
      exact Nat.zero_le _
    · rw [hold id hid]
      exact h.short id hid
  · intro id b hid hb
    rcases hle id hid with rfl | hid
    · rw [hnew] at hb
      cases hb
    · rw [hold id hid] at hb
      exact h.data id b hid hb
  · intro id id' i i' b hid hid' hb hb'
    rcases hle id hid with rfl | hid
    · rw [hnew] at hb
      cases hb
    · rcases hle id' hid' with rfl | hid'
      · rw [hnew] at hb'
        cases hb'
      · rw [hold id hid] at hb
        rw [hold id' hid'] at hb'
        exact h.inj id id' i i' b hid hid' hb hb'
  · intro b d hd
    obtain ⟨hd, hmem, htype⟩ := h.dirOf b d hd
    rw [hold d hd]
    exact ⟨by omega, hmem, htype⟩
  · intro hbig b hb
    rcases h.used hbig b hb with hlow | ⟨id, hid, hmem⟩
    · exact Or.inl hlow
    · exact Or.inr ⟨id, by omega, by rwa [hold id hid]⟩

end

/-- A number that is used and is no object is 0, whose inode has no type. -/
theorem Rep.itype_of_none {A : View} {t : Tree} (h : Rep A t) {id : Nat}
    (hle : id ≤ t.nodes.length) (hn : t.node id = none) : (A.ino id).itype = 0 := by
  rw [(Tree.node_none hn).resolve_right (by omega), h.zero]

/-- Where there is a file there are blocks for data: its directory has one. -/
theorem Rep.limit_pos {A : View} {t : Tree} (h : Rep A t) {id : Nat} {bytes : List UInt8}
    (hfile : t.node id = some (.file bytes)) : 0 < A.limit := by
  obtain ⟨es, hroot⟩ := h.wf.root
  obtain ⟨hpos, hle, -, -⟩ := Tree.node_some hfile
  have htwo : id ≠ 1 := by
    rintro rfl
    rw [hroot] at hfile
    cases hfile
  -- some directory has an entry
  have hentry : ∃ n ∈ t.nodes, n.entries ≠ [] := by
    by_contra hno
    have hzero : (t.nodes.map fun n => n.entries.length).sum = 0 := by
      refine List.sum_eq_zero fun x hx => ?_
      obtain ⟨n, hn, rfl⟩ := List.mem_map.mp hx
      by_contra hne
      exact hno ⟨n, hn, fun hnil => hne (by rw [hnil]; rfl)⟩
    have := h.wf.entries
    omega
  obtain ⟨n, hn, hne⟩ := hentry
  obtain ⟨i, hi⟩ := List.mem_iff_getElem?.mp hn
  have hlt := (List.getElem?_eq_some_iff.mp hi).1
  have hnode := h.node (i + 1) n (by rw [Tree.node, if_neg (by omega)]; exact hi)
  cases n with
  | file _ => exact absurd rfl hne
  | dir es' =>
      cases es' with
      | nil => exact absurd rfl hne
      | cons e rest =>
          obtain ⟨b, hb, -⟩ := hnode.inBlocks 0 e rfl
          have := (h.data (i + 1) b (by omega) (List.mem_of_getElem? hb)).1
          unfold View.DataBlock at this
          omega

/-! ### After a call -/

theorem View.forget_eq {A : View} (heq : A.ino = A.tab) : A.forget = A :=
  congrArg (fun i => { A with ino := i }) heq.symm

/-- Once the edits that a failed call left behind are forgotten, the view is this tree. -/
structure After (A : View) (t : Tree) : Prop where
  rep : Rep A.forget t
  forgettable : A.Forgettable

theorem After.of_rep {A : View} {t : Tree} (h : Rep A t) (heq : A.ino = A.tab) : After A t := by
  refine ⟨?_, fun id => ?_⟩
  · rw [View.forget_eq heq]
    exact h
  · rw [heq]
    exact AInode.le_refl _

/-- An object is where it was. -/
theorem NodeRep.congr {A A' : View} {id : Nat} {n : Node} (h : NodeRep A id n)
    (hino : A'.ino id = A.ino id) (hdata : ∀ b ∈ (A.ino id).blks, A'.data b = A.data b) :
    NodeRep A' id n := by
  refine ⟨by rw [hino]; exact h.itype, by rw [hino]; exact h.size, by rw [hino]; exact h.blks, ?_⟩
  cases n with
  | dir es =>
      intro j e he
      obtain ⟨b, hb, hentry⟩ := h.inBlocks j e he
      exact ⟨b, by rw [hino]; exact hb, by rw [hdata b (List.mem_of_getElem? hb)]; exact hentry⟩
  | file bytes =>
      intro j c hc
      obtain ⟨b, hb, hbyte⟩ := h.inBlocks j c hc
      exact ⟨b, by rw [hino]; exact hb, by rw [hdata b (List.mem_of_getElem? hb)]; exact hbyte⟩

end Sthreads.Snfs
