/-
`fs_create` and `fs_mkdir` do what the tree says.

The new object gets the first inode that is not used, which is the next one.  A directory
whose last block is full gets another block, and the entry is written behind the others.
There is room for it: a directory has fewer entries than there are inodes.
-/
import Sthreads.Proofs.Snfs.Writing

namespace Sthreads.Snfs

open Prog

/-! ### When the tree creates nothing -/

theorem Tree.create_of_name {t : Tree} {new : Node} {dir : Nat} {name : List UInt8}
    (h : name.length = 0 ∨ name.length + 1 > 14) :
    t.create new dir name = ((-1, none), t) := by
  rw [Tree.create]
  split
  · rw [if_pos h]
  · rfl

theorem Tree.create_of_not_dir {t : Tree} {new : Node} {dir : Nat} {name : List UInt8}
    (h : ∀ es, t.node dir ≠ some (.dir es)) : t.create new dir name = ((-1, none), t) := by
  rw [Tree.create]
  split
  · rename_i es hes
    exact absurd hes (h es)
  · rfl

/-- In a directory it depends on what is found under the name. -/
theorem Tree.create_of_dir {t : Tree} (new : Node) {dir : Nat} {es : List (List UInt8 × Nat)}
    {name : List UInt8} (hdir : t.node dir = some (.dir es))
    (hname : ¬ (name.length = 0 ∨ name.length + 1 > 14)) :
    t.create new dir name =
      match findEntry es name with
      | some id => ((-1, some id), t)
      | none =>
          if t.nodes.length + 1 ≥ 64 ∨ (if es.length % 32 = 0 then 1 else 0) > t.free then
            ((-1, none), t)
          else ((0, some (t.nodes.length + 1)),
            ⟨t.free - (if es.length % 32 = 0 then 1 else 0),
              (t.setNode dir (.dir (es ++ [(name, t.nodes.length + 1)]))).nodes ++ [new]⟩) := by
  rw [Tree.create, hdir]
  exact if_neg hname

/-! ### The inode and the entry -/

section

variable {α : Type} {A : View} {t : Tree} {H : Halt → Prop}

/-- The first free inode is the one behind those that are used. -/
theorem wp_findFreeInode {Q : α → View → Prop} {f : Option Nat → FsM α} (hrep : Rep A t)
    (hnone : 64 ≤ t.nodes.length + 1 → wp spec H (f none) Q A)
    (hsome : t.nodes.length + 1 < 64 → wp spec H (f (some (t.nodes.length + 1))) Q A) :
    wp spec H (findFreeInode >>= f) Q A := by
  rw [findFreeInode, wp_bind spec_mono]
  refine wp_inodeBmap ?_
  have hset : ∀ id, bmapIsset A.inodeBmap id = true ↔ id ≤ t.nodes.length := fun id => by
    rw [hrep.inodeBmap, decide_eq_true_eq]
  unfold fsiBmapFindFree
  rcases findFreeFrom_spec A.inodeBmap 64 0 (Or.inl (by omega)) with
    ⟨hres, hall⟩ | ⟨b, hres, -, hb, -, hfree, hall⟩
  · have hlast := (hset 63).mp (hall 63 (Nat.zero_le _) (by omega))
    have hval := hnone (by omega)
    rw [show ((64 : Int).toNat) = 64 from rfl, hres]
    exact hval
  · have hbeyond : ¬ b ≤ t.nodes.length := fun hle => by
      rw [(hset b).mpr hle] at hfree
      cases hfree
    have hbelow := (hset (b - 1)).mp (hall (b - 1) (Nat.zero_le _) (by omega))
    obtain rfl : b = t.nodes.length + 1 := by omega
    have hval := hsome (by omega)
    rw [show ((64 : Int).toNat) = 64 from rfl, hres]
    exact hval

/-- The directory has got these blocks, and a pointer points to it. -/
structure Grown (A A' : View) (dir n p : Nat) (bs : List Nat) : Prop where
  numBlocks : A'.numBlocks = A.numBlocks
  inodeBmap : A'.inodeBmap = A.inodeBmap
  known : A'.known = A.known
  data : A'.data = A.data
  ino : A'.ino = Function.update A.ino dir { A.ino dir with blks := (A.ino dir).blks ++ bs }
  tab : A'.ino = A'.tab
  ptr : A'.ptr p = some dir
  layout : Layout A' n
  free : freeCount A'.blkBmap A.limit + bs.length = freeCount A.blkBmap A.limit

/-- A directory whose last block is full gets another one. -/
theorem wp_growDir {dir idir : Nat} {es : List (List UInt8 × Nat)} (hrep : Rep A t)
    (heq : A.ino = A.tab) (hdir : t.node dir = some (.dir es)) (hp : A.ptr idir = some dir)
    {f : Option Nat → FsM α} {Q : α → View → Prop}
    (hnone : es.length % 32 = 0 → t.free = 0 → wp spec H (f none) Q A)
    (hsome : ∀ bs p A', bs.length = (if es.length % 32 = 0 then 1 else 0) →
      Grown A A' dir t.nodes.length p bs → wp spec H (f (some p)) Q A') :
    wp spec H (growDir dir idir >>= f) Q A := by
  obtain ⟨-, hle, -, hmem⟩ := Tree.node_some hdir
  have hnode := hrep.node dir _ hdir
  have hfew := hrep.wf.entries_le hmem
  simp only [Node.entries] at hfew
  have hsize := hnode.size
  have hblks := hnode.blks
  simp only [Node.size] at hsize hblks
  rw [growDir, wp_bind spec_mono]
  refine wp_inode hp fun n hn => ?_
  rw [hn.2.1, hsize]
  by_cases hfull : es.length % 32 = 0
  · rw [if_pos (by omega)]
    refine wp_findFreeBlk hrep.toLayout (fun _ hzero => hnone hfull (hrep.free.trans hzero)) ?_
    intro b hb hb4 hfree
    have hindex : 16 * es.length / 512 = (A.ino dir).blks.length := by
      rw [hblks, offsetToBlocks_eq]
      omega
    have hlt : (A.ino dir).blks.length < 10 := by omega
    have hpos := freeCount_bmapSet hb hb4 hfree
    refine wp_setBlkBmap (wp_setBlock (A := { A with blkBmap := _, stored := _ }) hp hindex
      (by omega) (wp_icDirty (p := idir) hp ?_))
    refine wp_icGet (A := (A.alloc dir b).sync dir) ?_ ((hrep.known dir).mpr hle) fun p _ => ?_
    · funext id
      simp only [View.sync, View.alloc]
      by_cases hi : id = dir
      · rw [hi, Function.update_self, Function.update_self]
      · rw [Function.update_of_ne hi, Function.update_of_ne hi, heq]
    · refine hsome [b] p _ (by rw [if_pos hfull]; rfl) ⟨rfl, rfl, rfl, rfl, rfl, ?_, ?_, ?_, hpos⟩
      · funext id
        simp only [View.setPtr, View.sync, View.alloc]
        by_cases hi : id = dir
        · rw [hi, Function.update_self, Function.update_self]
        · rw [Function.update_of_ne hi, Function.update_of_ne hi, heq]
      · exact Function.update_self ..
      · exact (hrep.toLayout.alloc hle hlt hb hb4 hfree).congr rfl rfl (fun _ => rfl)
          (hrep.toLayout.alloc hle hlt hb hb4 hfree).dirOf
  · rw [if_neg (by omega)]
    refine hsome [] idir A (by rw [if_neg hfull]; rfl)
      ⟨rfl, rfl, rfl, rfl, ?_, heq, hp, hrep.toLayout, rfl⟩
    rw [List.append_nil, Function.update_eq_self]

/-- The page of the directory, its size and the new inode have been written and stored. -/
def View.entered (A : View) (dir b size finode itype : Nat) (page : Page 512) : View where
  numBlocks := A.numBlocks
  inodeBmap := bmapSet A.inodeBmap finode
  blkBmap := A.blkBmap
  known i := A.known i ∨ i = finode
  ino := Function.update (Function.update A.ino dir { A.ino dir with size := size }) finode
    ⟨itype, 0, []⟩
  tab := Function.update (Function.update A.tab dir { A.ino dir with size := size }) finode
    ⟨itype, 0, []⟩
  data := Function.update A.data b page
  dirOf := Function.update A.dirOf b (some dir)
  ptr _ := none
  stored := true
  strtokRest := A.strtokRest

/-- The part of `fs_create` that writes the entry and the inode. -/
theorem wp_addEntry {n dir p k b finode itype : Nat} (hlay : Layout A n) (heq : A.ino = A.tab)
    (hp : A.ptr p = some dir) (hdir : dir ≤ n) (hsize : (A.ino dir).size = 16 * k)
    (hk : k < 320) (hb : (A.ino dir).blks[k / 32]? = some b) (hnew : ¬ A.known finode)
    (hlt : finode < 64) (name : List UInt8) (junk : Page 512) {f : Unit → FsM α}
    {Q : α → View → Prop}
    (hq : wp spec H (f ()) Q (A.entered dir b (16 * k + 16) finode itype
      (setEntry (A.data b) (k % 32) name finode))) :
    wp spec H (addEntry itype junk dir p finode name >>= f) Q A := by
  have hmem := List.mem_of_getElem? hb
  have hdata := (hlay.data dir b hdir hmem).1
  have howner := hlay.dirOf_dir hdir hmem
  -- the view before the inode is made
  let B : View := ((((A.claim dir b).claim dir b).setData b
    (setEntry (A.data b) (k % 32) name finode)).setIno dir
      { A.ino dir with size := 16 * k + 16 }).sync dir
  have hB : B.ino = B.tab := by
    funext id
    simp only [B, View.sync, View.setIno, View.setData, View.claim]
    by_cases hi : id = dir
    · rw [hi, Function.update_self, Function.update_self]
    · rw [Function.update_of_ne hi, Function.update_of_ne hi, heq]
  rw [addEntry, wp_bind spec_mono]
  refine wp_inode hp fun n₁ hn₁ => ?_
  rw [hn₁.2.1, hsize, show 16 * k / 512 = k / 32 by omega]
  refine wp_blockOf hp (by omega) hb (wp_dcRead hdata howner ?_)
  refine wp_inode (A := A.claim dir b) hp fun n₂ hn₂ => ?_
  rw [hn₂.2.1.trans hsize, show 16 * k % 512 / 16 = k % 32 by omega]
  refine wp_dcWrite (A := A.claim dir b) hdata (Or.inr (Function.update_self ..)) ?_
  refine wp_inode (A := ((A.claim dir b).claim dir b).setData b _) hp fun n₃ hn₃ => ?_
  rw [hn₃.2.1.trans hsize, Nat.mod_eq_of_lt (by omega)]
  refine wp_setSize (A := ((A.claim dir b).claim dir b).setData b _) hp
    (wp_icDirty (p := p) hp (wp_setInodeBmap ?_))
  refine wp_inodeInit (A := { B with inodeBmap := _, stored := _ }) hnew hlt ?_
  have heq' : (B.addInode finode itype).ino = (B.addInode finode itype).tab :=
    congrArg (fun m : Nat → AInode => Function.update m finode ⟨itype, 0, []⟩) hB
  refine wp_icInvalidate heq' (wp_storeFsdata heq' ?_)
  simpa [B, View.entered, View.addInode, View.sync, View.setIno, View.setData, View.claim] using hq

/-! ### The new view -/

section

variable {dir b size finode itype : Nat} {page : Page 512}

@[simp] theorem View.entered_new :
    (A.entered dir b size finode itype page).ino finode = ⟨itype, 0, []⟩ :=
  Function.update_self ..

theorem View.entered_dir (h : dir ≠ finode) :
    (A.entered dir b size finode itype page).ino dir = { A.ino dir with size := size } :=
  (Function.update_of_ne h _ _).trans (Function.update_self ..)

theorem View.entered_other {id : Nat} (hdir : id ≠ dir) (hnew : id ≠ finode) :
    (A.entered dir b size finode itype page).ino id = A.ino id :=
  (Function.update_of_ne hnew _ _).trans (Function.update_of_ne hdir _ _)

theorem View.entered_data (b' : Nat) :
    (A.entered dir b size finode itype page).data b' = if b' = b then page else A.data b' :=
  Function.update_apply ..

/-- No block has moved, and the new inode has none. -/
theorem layout_entered {n : Nat} (hlay : Layout A n) (hle : dir ≤ n)
    (htype : (A.ino dir).itype = 1) (hmem : b ∈ (A.ino dir).blks) (hroom : n + 1 < 64) :
    Layout (A.entered dir b size (n + 1) itype page) (n + 1) := by
  -- the directory with its new page, and then the new inode
  have hdir : Layout ((A.setIno dir { A.ino dir with size := size }).claim dir b) n := by
    have hino : ∀ id, ((A.setIno dir { A.ino dir with size := size }).ino id).blks =
        (A.ino id).blks ∧ ((A.setIno dir { A.ino dir with size := size }).ino id).itype =
          (A.ino id).itype := by
      intro id
      by_cases hi : id = dir
      · subst hi
        simp [View.setIno]
      · simp [View.setIno, hi]
    refine hlay.congr rfl rfl (fun id => (hino id).1) fun b' d hd => ?_
    simp only [View.claim] at hd ⊢
    rw [(hino d).2]
    by_cases hbb : b' = b
    · rw [hbb, Function.update_self, Option.some.injEq] at hd
      rw [← hd, hbb]
      exact ⟨hle, hmem, htype⟩
    · rw [Function.update_of_ne hbb] at hd
      exact hlay.dirOf b' d hd
  have hadd := hdir.addInode (by omega) itype
  exact hadd.congr rfl rfl (fun _ => rfl) hadd.dirOf

/-- An object with nothing in it. -/
theorem nodeRep_empty {id : Nat} {n : Node} (hsize : n.size = 0)
    (hino : A.ino id = ⟨n.itype, 0, []⟩) : NodeRep A id n := by
  refine ⟨by rw [hino], by rw [hino, hsize], by rw [hino, hsize]; rfl, ?_⟩
  cases n with
  | dir es =>
      simp only [Node.size] at hsize
      intro j e he
      have hj := (List.getElem?_eq_some_iff.mp he).1
      omega
  | file bytes =>
      simp only [Node.size] at hsize
      intro j c hc
      have hj := (List.getElem?_eq_some_iff.mp hc).1
      omega

/-- A directory with one entry more. -/
theorem nodeRep_entered {n p : Nat} {bs : List Nat} {es : List (List UInt8 × Nat)} {A' : View}
    (hnode : NodeRep A dir (.dir es)) (hA : Grown A A' dir n p bs)
    (hbs : bs.length = if es.length % 32 = 0 then 1 else 0) (hle : dir ≤ n)
    (hb : (A'.ino dir).blks[es.length / 32]? = some b)
    (hnames : ∀ e ∈ es, e.1.length ≤ 13) {name : List UInt8}
    (hname : name.length ≤ 13 ∧ ∀ c ∈ name, c ≠ 0) (hne : dir ≠ finode) (hlt : finode < 64) :
    NodeRep (A'.entered dir b (16 * es.length + 16) finode itype
      (setEntry (A'.data b) (es.length % 32) name finode)) dir (.dir (es ++ [(name, finode)])) := by
  have hself : A'.ino dir = { A.ino dir with blks := (A.ino dir).blks ++ bs } := by
    rw [hA.ino, Function.update_self]
  have hdir : (A'.entered dir b (16 * es.length + 16) finode itype
      (setEntry (A'.data b) (es.length % 32) name finode)).ino dir =
        { A'.ino dir with size := 16 * es.length + 16 } := View.entered_dir hne
  refine ⟨?_, ?_, ?_, fun j e he => ?_⟩
  · rw [hdir, hself]
    exact hnode.itype
  · rw [hdir]
    simp only [Node.size, List.length_append, List.length_singleton]
    omega
  · have hblks := hnode.blks
    rw [hdir, hself]
    simp only [Node.size, List.length_append, List.length_singleton] at hblks ⊢
    rw [hblks, hbs, offsetToBlocks_eq, offsetToBlocks_eq]
    split <;> omega
  · rw [hdir]
    simp only [View.entered_data]
    rw [List.getElem?_append] at he
    split at he
    · -- an entry that was there
      rename_i hj
      obtain ⟨b', hb', hentry⟩ := hnode.inBlocks j e he
      have hget : (A'.ino dir).blks[j / 32]? = some b' := by
        rw [hself, List.getElem?_append_left (List.getElem?_eq_some_iff.mp hb').1]
        exact hb'
      refine ⟨b', hget, ?_⟩
      rw [hA.data]
      by_cases hbb : b' = b
      · rw [if_pos hbb]
        rw [hbb] at hentry hget
        have hsame := (hA.layout.inj dir dir _ _ b hle hle hget hb).2
        refine hentry.congr (hnames e (List.mem_of_getElem? he)) fun i _ _ =>
          setEntry_get_of_ne hname.1 ?_
        omega
      · rw [if_neg hbb]
        exact hentry
    · -- the new entry
      have hlast := (List.getElem?_eq_some_iff.mp he).1
      rw [List.length_singleton] at hlast
      obtain rfl : j = es.length := by omega
      rw [Nat.sub_self, List.getElem?_cons_zero, Option.some.injEq] at he
      refine ⟨b, hb, ?_⟩
      rw [if_pos rfl, ← he]
      exact isEntry_setEntry (by omega) hname.1 (by omega)

end

/-- The tree after an object was created. -/
theorem rep_entered {dir p b : Nat} {bs : List Nat} {es : List (List UInt8 × Nat)} {A' : View}
    (hrep : Rep A t) (hdir : t.node dir = some (.dir es)) (hroom : t.nodes.length + 1 < 64)
    (hbs : bs.length = if es.length % 32 = 0 then 1 else 0)
    (hA : Grown A A' dir t.nodes.length p bs) (hb : (A'.ino dir).blks[es.length / 32]? = some b)
    {name : List UInt8} (hname : name.length ≤ 13 ∧ ∀ c ∈ name, c ≠ 0) {new : Node}
    (hnew : new.size = 0) :
    Rep (A'.entered dir b (16 * es.length + 16) (t.nodes.length + 1) new.itype
        (setEntry (A'.data b) (es.length % 32) name (t.nodes.length + 1)))
      ⟨t.free - bs.length,
        (t.setNode dir (.dir (es ++ [(name, t.nodes.length + 1)]))).nodes ++ [new]⟩ := by
  obtain ⟨hpos, hle, -, hmem⟩ := Tree.node_some hdir
  have hnode := hrep.node dir _ hdir
  have hmemb := List.mem_of_getElem? hb
  have hother : ∀ id, id ≠ dir → A'.ino id = A.ino id := fun id hid => by
    rw [hA.ino, Function.update_of_ne hid]
  have htype : (A'.ino dir).itype = 1 := by
    rw [hA.ino, Function.update_self]
    exact hnode.itype
  have hlen : (t.setNode dir (.dir (es ++ [(name, t.nodes.length + 1)]))).nodes.length =
      t.nodes.length := Tree.setNode_length ..
  have hlen' : ∀ free, (Tree.mk free ((t.setNode dir
      (.dir (es ++ [(name, t.nodes.length + 1)]))).nodes ++ [new])).nodes.length =
        t.nodes.length + 1 := fun free => by
    rw [List.length_append, hlen, List.length_singleton]
  refine ⟨?_, hrep.wf.create hdir hroom hname hnew _, fun id => ?_, fun id => ?_, ?_,
    fun id n hn => ?_, ?_⟩
  · rw [hlen']
    exact layout_entered hA.layout hle htype hmemb hroom
  · rw [hlen']
    simp only [View.entered, hA.known]
    rw [hrep.known]
    omega
  · rw [hlen']
    simp only [View.entered, hA.inodeBmap]
    rw [bmapIsset_bmapSet (by omega), hrep.inodeBmap, ← Bool.decide_or, decide_eq_decide]
    omega
  · rw [View.entered_other (by omega) (by omega), hother 0 (by omega)]
    exact hrep.zero
  · rw [Tree.node_append, hlen] at hn
    by_cases hid : id = t.nodes.length + 1
    · rw [if_pos hid, Option.some.injEq] at hn
      subst hid
      subst hn
      exact nodeRep_empty hnew View.entered_new
    · rw [if_neg hid, Tree.node_setNode hpos hle] at hn
      by_cases hd : id = dir
      · subst hd
        rw [if_pos rfl, Option.some.injEq] at hn
        subst hn
        exact nodeRep_entered hnode hA hbs hle hb (fun e he => (hrep.wf.names _ hmem e he).1)
          hname (by omega) hroom
      · -- the other objects are where they were
        rw [if_neg hd] at hn
        obtain ⟨-, hle', -, -⟩ := Tree.node_some hn
        have hino : (A'.entered dir b (16 * es.length + 16) (t.nodes.length + 1) new.itype
            (setEntry (A'.data b) (es.length % 32) name (t.nodes.length + 1))).ino id =
              A.ino id := (View.entered_other hd hid).trans (hother id hd)
        refine (hrep.node id n hn).congr hino fun b' hb' => ?_
        have hne : b' ≠ b := fun hbb => hd (by
          rw [← hother id hd, hbb] at hb'
          exact hA.layout.disjoint hle' hle hb' hmemb)
        rw [View.entered_data, if_neg hne, hA.data]
  · have hlim : A'.limit = A.limit := by rw [View.limit, View.limit, hA.numBlocks]
    have hfree := hA.free
    have hfree' := hrep.free
    change t.free - bs.length = freeCount A'.blkBmap A'.limit
    rw [hlim]
    omega

/-! ### The whole function -/

/-- A name that is not in the directory gets the next inode, if there is one and if there is a
block for the entry. -/
theorem wp_createNew {dir p : Nat} {es : List (List UInt8 × Nat)} (hrep : Rep A t)
    (heq : A.ino = A.tab) (hdir : t.node dir = some (.dir es)) (hp : A.ptr p = some dir)
    {new : Node} (hnew : new.size = 0) (junk : Page 512) {file : CStr}
    (hshort : file.chars.length ≤ 13) {Q : Int × Option Nat → View → Prop}
    (hnone : t.nodes.length + 1 ≥ 64 ∨ (if es.length % 32 = 0 then 1 else 0) > t.free →
      Q (-1, none) A)
    (hsome : ¬ (t.nodes.length + 1 ≥ 64 ∨ (if es.length % 32 = 0 then 1 else 0) > t.free) →
      ∀ A', After A' ⟨t.free - (if es.length % 32 = 0 then 1 else 0),
          (t.setNode dir (.dir (es ++ [(file.chars, t.nodes.length + 1)]))).nodes ++ [new]⟩ →
        A'.stored = true → Q (0, some (t.nodes.length + 1)) A') :
    wp spec H (do
      match ← findFreeInode with
      | none => return (-1, none)
      | some finode =>
          match ← growDir dir p with
          | none => return (-1, none)
          | some idir => do
              addEntry new.itype junk dir idir finode file.chars
              return (0, some finode)) Q A := by
  obtain ⟨-, hle, -, hmem⟩ := Tree.node_some hdir
  have hnode := hrep.node dir _ hdir
  have hfew := hrep.wf.entries_le hmem
  have hcount := hrep.wf.count
  simp only [Node.entries] at hfew
  refine wp_findFreeInode hrep (fun hfull => hnone (Or.inl (by omega))) fun hroom => ?_
  refine wp_growDir hrep heq hdir hp (fun hlast hzero => ?_) fun bs p' A₁ hbs hA => ?_
  · exact hnone (Or.inr (by rw [if_pos hlast]; omega))
  · have hself : A₁.ino dir = { A.ino dir with blks := (A.ino dir).blks ++ bs } := by
      rw [hA.ino, Function.update_self]
    have hin : es.length / 32 < (A₁.ino dir).blks.length := by
      have hblks := hnode.blks
      simp only [Node.size, offsetToBlocks_eq] at hblks
      rw [hself, List.length_append, hblks, hbs]
      split <;> omega
    have hb := List.getElem?_eq_getElem hin
    have hpays : ¬ (t.nodes.length + 1 ≥ 64 ∨ (if es.length % 32 = 0 then 1 else 0) > t.free) := by
      have hfree := hA.free
      have hfree' := hrep.free
      rw [← hbs]
      omega
    refine wp_addEntry hA.layout hA.tab hA.ptr hle ?_ (by omega) hb ?_ hroom _ junk ?_
    · rw [hself]
      exact hnode.size
    · rw [hA.known, hrep.known]
      omega
    · have hfinal := rep_entered hrep hdir hroom hbs hA hb ⟨hshort, file.noNul⟩ hnew
      have hafter := After.of_rep hfinal (by
        simp only [View.entered]
        rw [hA.tab])
      rw [hbs] at hafter
      exact hsome hpays _ hafter rfl

/-- `fs_create` and `fs_mkdir` create as the tree does. -/
theorem wp_createOf (hrep : Rep A t) (heq : A.ino = A.tab) {new : Node} (hnew : new.size = 0)
    (junk : Page 512) (dir : Nat) (file : CStr) {Q : Int × Option Nat → View → Prop}
    (hq : ∀ A', After A' (t.create new dir file.chars).2 →
      ((t.create new dir file.chars).1.1 = 0 → A'.stored = true) →
      ((t.create new dir file.chars).1.1 ≠ 0 → SameTree A A') →
      Q (t.create new dir file.chars).1 A') :
    wp spec H (fsCreateOf new.itype junk dir file) Q A := by
  have hmany := hrep.wf.count
  -- what nothing is created for
  have fails : ∀ {x A'}, t.create new dir file.chars = ((-1, x), t) → Rep A' t →
      A'.ino = A'.tab → SameTree A A' → Q (-1, x) A' := by
    intro x A' hres hrep' heq' hsame
    rw [hres] at hq
    exact hq A' (After.of_rep hrep' heq') (fun h => by cases h) fun _ => hsame
  rw [fsCreateOf]
  by_cases hname : file.chars.length = 0 ∨ file.chars.length + 1 > 14
  · -- the name is empty or too long, whatever the object is
    have hval := fails (Tree.create_of_name hname) hrep heq (SameTree.refl A)
    by_cases h64 : dir ≥ 64
    · rw [if_pos h64]
      exact hval
    · rw [if_neg h64, if_pos hname]
      exact hval
  by_cases hlen : dir ≤ t.nodes.length
  · rw [if_neg (by omega), if_neg hname]
    refine wp_inodeBmap ?_
    rw [hrep.inodeBmap, if_neg (by simp [hlen])]
    refine wp_icGet heq ((hrep.known dir).mpr hlen) fun p _ => ?_
    have hp : (A.setPtr p dir).ptr p = some dir := Function.update_self ..
    have hsame₁ : SameTree A (A.setPtr p dir) := ⟨rfl, rfl, rfl, rfl, rfl, rfl, rfl⟩
    have hrep₁ : Rep (A.setPtr p dir) t := hrep.of_sameTree hsame₁ hrep.dirOf
    refine wp_inode hp fun n hn => ?_
    have htype := hn.1
    cases hnode : t.node dir with
    | none =>
        rw [hrep₁.itype_of_none hlen hnode] at htype
        rw [if_pos (by omega)]
        exact fails (Tree.create_of_not_dir fun es hes => by cases hnode.symm.trans hes) hrep₁ heq
          hsame₁
    | some nd =>
        rw [(hrep₁.node dir nd hnode).itype] at htype
        cases nd with
        | file bytes =>
            simp only [Node.itype] at htype
            rw [if_pos (by omega)]
            exact fails (Tree.create_of_not_dir fun es hes => by cases hnode.symm.trans hes) hrep₁
              heq hsame₁
        | dir es =>
            simp only [Node.itype] at htype
            rw [if_neg (by omega)]
            refine wp_reads (G := (· = dir)) (P := (· = findEntry es file.chars)) hrep₁ heq
              (read_dirSearch (G := (· = dir)) (Q := fun a _ => a = findEntry es file.chars)
                hrep₁ hnode file.noNul junk rfl fun _ => rfl) ?_
            rintro _ rfl A₂ hA₂
            have heq₂ : A₂.ino = A₂.tab := by
              rw [hA₂.same.2.2.2.2.1, hA₂.same.2.2.2.2.2.1]
              exact heq
            have hres := Tree.create_of_dir new hnode hname
            cases hfind : findEntry es file.chars with
            | some id =>
                rw [hfind] at hres
                exact fails hres hA₂.rep heq₂ hA₂.same
            | none =>
                rw [hfind] at hres
                dsimp only at hres
                refine wp_createNew hA₂.rep heq₂ hnode (hA₂.keep p dir hp fun g hg => hg) hnew junk
                  (by omega) (fun hfull => ?_) fun hpays A₃ hA₃ hst => ?_
                · rw [if_pos hfull] at hres
                  exact fails hres hA₂.rep heq₂ hA₂.same
                · rw [if_neg hpays] at hres
                  rw [hres] at hq
                  exact hq A₃ hA₃ (fun _ => hst) fun h => absurd rfl h
  · have hval := fails (Tree.create_of_not_dir fun es hes => by
      cases (Tree.node_of_gt (by omega)).symm.trans hes) hrep heq (SameTree.refl A)
    by_cases h64 : dir ≥ 64
    · rw [if_pos h64]
      exact hval
    · rw [if_neg h64, if_neg hname]
      refine wp_inodeBmap ?_
      rw [hrep.inodeBmap, if_pos (by simp [hlen])]
      exact hval

end

end Sthreads.Snfs
