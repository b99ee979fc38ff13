/-
The objects of a file system form a tree.

Every object but the root has exactly one entry, in a directory that is older than it, and no
directory has two entries of the same name.  Creating an object keeps this, and nothing else
adds entries.  So every object has exactly one path, and no two paths lead to the same object.
-/
import Sthreads.Lib.RootedTree
import Sthreads.Proofs.Snfs.Entries
import Sthreads.Proofs.Snfs.Lookup
import Sthreads.Proofs.Snfs.Requests

namespace Sthreads.Snfs

namespace Tree

variable {t t' : Tree}

/-- The object is under this name in the directory. -/
def Child (t : Tree) (dir : Nat) (name : List UInt8) (id : Nat) : Prop :=
  ∃ es, t.node dir = some (.dir es) ∧ (name, id) ∈ es

/-- The objects form a tree, and names are different in each directory. -/
structure Named (t : Tree) : Prop where
  names : ∀ dir name id id', t.Child dir name id → t.Child dir name id' → id = id'
  once : ∀ dir dir' name name' id, t.Child dir name id → t.Child dir' name' id →
    dir = dir' ∧ name = name'
  older : ∀ dir name id, t.Child dir name id → dir < id
  parent : ∀ id, 2 ≤ id → id ≤ t.nodes.length → ∃ dir name, t.Child dir name id

theorem named_init (free : Nat) : (Tree.init free).Named := by
  have hno : ∀ dir name id, ¬ (Tree.init free).Child dir name id := by
    rintro dir name id ⟨es, hdir, hmem⟩
    obtain ⟨hpos, hle, -, -⟩ := node_some hdir
    obtain rfl : dir = 1 := by
      simp only [Tree.init, List.length_singleton] at hle
      omega
    obtain rfl := Node.dir.inj (Option.some.inj hdir)
    cases hmem
  refine ⟨fun _ _ _ _ h => absurd h (hno _ _ _), fun _ _ _ _ _ h => absurd h (hno _ _ _),
    fun _ _ _ h => absurd h (hno _ _ _), fun id h2 hle => ?_⟩
  simp only [Tree.init, List.length_singleton] at hle
  omega

/-- Where the children are the same, so is the tree of names. -/
theorem Named.congr (h : t.Named) (hlen : t'.nodes.length = t.nodes.length)
    (hchild : ∀ dir name id, t'.Child dir name id ↔ t.Child dir name id) : t'.Named := by
  refine ⟨fun dir name id id' => ?_, fun dir dir' name name' id => ?_, fun dir name id => ?_,
    fun id h2 hle => ?_⟩
  · rw [hchild, hchild]
    exact h.names dir name id id'
  · rw [hchild, hchild]
    exact h.once dir dir' name name' id
  · rw [hchild]
    exact h.older dir name id
  · obtain ⟨dir, name, hc⟩ := h.parent id h2 (hlen ▸ hle)
    exact ⟨dir, name, (hchild _ _ _).mpr hc⟩

/-- The new object has the new entry, and the others have theirs. -/
theorem child_created {dir : Nat} {es : List (List UInt8 × Nat)}
    (hdir : t.node dir = some (.dir es)) (name : List UInt8) (free : Nat) {new : Node}
    (hnew : new.entries = []) (d : Nat) (n : List UInt8) (id : Nat) :
    (Tree.mk free ((t.setNode dir (.dir (es ++ [(name, t.nodes.length + 1)]))).nodes ++
        [new])).Child d n id ↔
      t.Child d n id ∨ d = dir ∧ n = name ∧ id = t.nodes.length + 1 := by
  obtain ⟨hpos, hle, -, -⟩ := node_some hdir
  have hnode := node_created hpos hle free (.dir (es ++ [(name, t.nodes.length + 1)])) new
  constructor
  · rintro ⟨es', hd, hmem⟩
    rw [hnode] at hd
    split at hd
    · obtain rfl := Option.some.inj hd
      rw [Node.entries] at hnew
      rw [hnew] at hmem
      cases hmem
    · split at hd
      · rename_i heq
        obtain rfl := Node.dir.inj (Option.some.inj hd)
        rcases List.mem_append.mp hmem with hmem | hmem
        · exact Or.inl ⟨es, heq ▸ hdir, hmem⟩
        · obtain ⟨rfl, rfl⟩ := Prod.mk.inj (List.mem_singleton.mp hmem)
          exact Or.inr ⟨heq, rfl, rfl⟩
      · exact Or.inl ⟨es', hd, hmem⟩
  · rintro (⟨es', hd, hmem⟩ | ⟨rfl, rfl, rfl⟩)
    · obtain ⟨-, hled, -, -⟩ := node_some hd
      by_cases heq : d = dir
      · subst heq
        obtain rfl := Node.dir.inj (Option.some.inj (hdir.symm.trans hd))
        exact ⟨_, by rw [hnode, if_neg (by omega), if_pos rfl], List.mem_append_left _ hmem⟩
      · exact ⟨es', by rw [hnode, if_neg (by omega), if_neg heq]; exact hd, hmem⟩
    · exact ⟨_, by rw [hnode, if_neg (by omega), if_pos rfl],
        List.mem_append_right _ (List.mem_singleton_self _)⟩

theorem Named.create (h : t.Named) (hwf : t.WF) {new : Node} (hnew : new.entries = []) (dir : Nat)
    (name : List UInt8) : (t.create new dir name).2.Named := by
  rcases t.create_cases new dir name with ⟨fileid, hc⟩ | ⟨es, free, hdir, hfind, hroom, -, hc⟩
  · rw [hc]
    exact h
  rw [hc]
  have hchild := child_created hdir name free hnew
  -- the entries there were are of objects there were, and none has the new name
  have hold : ∀ {d n id}, t.Child d n id → id ≤ t.nodes.length := by
    rintro d n id ⟨es', hd, hmem⟩
    exact (hwf.ids _ (node_some hd).2.2.2 _ hmem).2
  have hfresh : ∀ id, ¬ t.Child dir name id := by
    rintro id ⟨es', hd, hmem⟩
    obtain rfl := Node.dir.inj (Option.some.inj (hdir.symm.trans hd))
    have hnone := Option.map_eq_none_iff.mp hfind
    exact absurd (List.find?_eq_none.mp hnone _ hmem) (by simp)
  obtain ⟨-, hle, -, -⟩ := node_some hdir
  refine ⟨fun d n id id' => ?_, fun d d' n n' id => ?_, fun d n id => ?_, fun id h2 hid => ?_⟩
  · rw [hchild, hchild]
    rintro (hc₁ | ⟨hd, hn, hid⟩) (hc₂ | ⟨hd', hn', hid'⟩)
    · exact h.names d n id id' hc₁ hc₂
    · subst hd' hn'
      exact absurd hc₁ (hfresh id)
    · subst hd hn
      exact absurd hc₂ (hfresh id')
    · exact hid.trans hid'.symm
  · rw [hchild, hchild]
    rintro (hc₁ | ⟨hd, hn, hid⟩) (hc₂ | ⟨hd', hn', hid'⟩)
    · exact h.once d d' n n' id hc₁ hc₂
    · have := hold hc₁
      omega
    · have := hold hc₂
      omega
    · exact ⟨hd.trans hd'.symm, hn.trans hn'.symm⟩
  · rw [hchild]
    rintro (hc₁ | ⟨hd, -, hid⟩)
    · exact h.older d n id hc₁
    · omega
  · simp only [List.length_append, setNode_length, List.length_singleton] at hid
    by_cases hlast : id = t.nodes.length + 1
    · exact ⟨dir, name, (hchild _ _ _).mpr (Or.inr ⟨rfl, rfl, hlast⟩)⟩
    · obtain ⟨d, n, hd⟩ := h.parent id h2 (by omega)
      exact ⟨d, n, (hchild _ _ _).mpr (Or.inl hd)⟩

theorem Named.write (h : t.Named) (file offset count : Nat) (buffer : Nat → UInt8) :
    (t.write file offset count buffer).2.Named := by
  rcases t.write_cases file offset count buffer with ⟨free, hw⟩ | ⟨bytes, free, hnode, -, -, hw⟩
  · rw [hw]
    exact h.congr rfl fun _ _ _ => Iff.rfl
  · rw [hw]
    obtain ⟨hpos, hle, -, -⟩ := node_some hnode
    refine h.congr (setNode_length ..) fun dir name id => ?_
    have hset := node_setNode (t := { t with free := free }) hpos hle
      (.file (overwrite bytes (min offset bytes.length) count buffer)) dir
    rw [Child, hset]
    split
    · rename_i heq
      constructor
      · rintro ⟨es, hes, -⟩
        cases hes
      · rintro ⟨es, hes, -⟩
        rw [heq, hnode] at hes
        cases hes
    · exact Iff.rfl

/-- A handler keeps it. -/
theorem Named.handled (h : t.Named) (hwf : t.WF) {a : Args} (ha : t.Handled a t') : t'.Named := by
  cases ha with
  | same => exact h
  | wrote file offset count data => exact h.write file offset count data
  | created a hnew dir name => exact h.create hwf hnew dir name

/-- The names make a tree of the objects, with the root at the top. -/
theorem Named.rootedTree (h : t.Named) (hwf : t.WF) :
    RootedTree t.Child 1 (fun id => 1 ≤ id ∧ id ≤ t.nodes.length) (· < ·) where
  wf := Nat.lt_wfRel.wf
  root_mem := ⟨Nat.le_refl 1, hwf.length_pos⟩
  parent id hid hroot := by
    obtain ⟨dir, name, hc⟩ := h.parent id (by omega) hid.2
    have hlt := h.older dir name id hc
    rcases hc with ⟨es, hdir, hmem⟩
    obtain ⟨hpos, hle, -, -⟩ := node_some hdir
    exact ⟨dir, name, ⟨hpos, hle⟩, ⟨es, hdir, hmem⟩, hlt⟩
  unique dir name dir' name' id hc hc' := h.once dir dir' name name' id hc hc'
  orphan dir name hc := by
    have hlt := h.older dir name 1 hc
    obtain ⟨es, hdir, -⟩ := hc
    obtain ⟨hpos, -, -, -⟩ := node_some hdir
    omega
  det dir name id id' hc hc' := h.names dir name id id' hc hc'

/-- A name is found where it is an entry. -/
theorem Named.findEntry_iff (h : t.Named) {dir : Nat} {es : List (List UInt8 × Nat)}
    (hdir : t.node dir = some (.dir es)) (name : List UInt8) (id : Nat) :
    findEntry es name = some id ↔ t.Child dir name id := by
  constructor
  · exact fun hfind => ⟨es, hdir, findEntry_some hfind⟩
  · rintro ⟨es', hdir', hmem⟩
    obtain rfl := Node.dir.inj (Option.some.inj (hdir.symm.trans hdir'))
    cases hfind : findEntry es name with
    | none =>
        have hnone := Option.map_eq_none_iff.mp hfind
        exact absurd (List.find?_eq_none.mp hnone _ hmem) (by simp)
    | some id' =>
        rw [h.names dir name id' id ⟨es, hdir, findEntry_some hfind⟩ ⟨es, hdir, hmem⟩]

end Tree

section

variable {numBlocks : Nat} {fs : Fs} {t : Tree}

/-- Names lead through the file system as through its tree. -/
theorem Shows.walk_iff (h : Shows fs t) (hwf : t.WF) (hnamed : t.Named)
    (names : List (List UInt8)) {dir : Nat} (hdir : 1 ≤ dir ∧ dir ≤ t.nodes.length) (id : Nat) :
    fs.walk dir names = some id ↔ NamePath t.Child dir names id := by
  induction names generalizing dir with
  | nil =>
      rw [Fs.walk, Option.some.injEq]
      constructor
      · rintro rfl
        exact .here dir
      · rintro ⟨⟩
        rfl
  | cons name rest ih =>
      obtain ⟨n, hn⟩ := Tree.node_of_le hdir.1 hdir.2
      rw [Fs.walk, h.itype dir n hn]
      cases n with
      | file bytes =>
          rw [if_neg (by simp [Node.itype])]
          constructor
          · rintro ⟨⟩
          · rintro (_ | ⟨⟨es, hes, -⟩, -⟩)
            rw [hn] at hes
            cases hes
      | dir es =>
          rw [if_pos (by rfl), h.dir dir es hn]
          have hmem := (Tree.node_some hn).2.2.2
          constructor
          · intro hwalk
            split at hwalk
            · cases hwalk
            · rename_i next hfind
              have hrange := hwf.ids _ hmem (name, next) (findEntry_some hfind)
              exact .down ((hnamed.findEntry_iff hn name next).mp hfind) ((ih hrange).mp hwalk)
          · rintro (_ | ⟨hc, hp⟩)
            rename_i next
            have hfind := (hnamed.findEntry_iff hn name next).mpr hc
            have hrange := hwf.ids _ hmem (name, next) (findEntry_some hfind)
            rw [hfind]
            exact (ih hrange).mpr hp

/-- A request leaves a tree of names. -/
theorem named_serve (ht : IsTree CachedRel numBlocks fs t) (hnamed : t.Named) {stack : Stack}
    {req : Req} (hpage : ∀ a, Args.ofReq req = some a → fs.OnePage a) {res : Res × Nat} {fs' : Fs}
    (hrun : Prog.run Fs.handler (serve stack req) fs = .ok (res, fs')) :
    ∃ t', IsTree CachedRel numBlocks fs' t' ∧ t'.Named := by
  cases hargs : Args.ofReq req with
  | none =>
      rw [serve, hargs] at hrun
      obtain ⟨-, rfl⟩ := Prod.mk.inj (Except.ok.inj hrun)
      exact ⟨t, ht, hnamed⟩
  | some a =>
      obtain ⟨r, t', htree, ht', -⟩ := isTree_serve ht hargs (hpage a hargs) hrun
      exact ⟨t', ht', hnamed.handled (isTree_wf ht) (Tree.handled htree)⟩

/-- A server that has been started is a tree of names. -/
theorem named_server (hn : 10 ≤ numBlocks) {readings : Nat → Int} {s₀ : ServerState}
    (hinit : snfsInit numBlocks readings = .ok s₀) {tr : List (ServerState × (Stack × Req))}
    (hrun : Run ServerState.step s₀ tr (.up fs)) (hpages : ∀ p ∈ tr, p.1.OnePage p.2) :
    ∃ t, IsTree CachedRel numBlocks fs t ∧ t.Named := by
  obtain ⟨fs₀, hnew, hinit⟩ := except_bind_ok hinit
  obtain ⟨fs₁, hformat, hinit⟩ := except_bind_ok hinit
  obtain rfl := Except.ok.inj hinit
  obtain ⟨free, ht⟩ := isTree_format hn hnew hformat
  refine hrun.invariant_of
    (fun s => ∀ fs, s = .up fs → ∃ t, IsTree CachedRel numBlocks fs t ∧ t.Named)
    ServerState.OnePage ?_ ?_ hpages fs rfl
  · rintro fs ⟨⟩
    exact ⟨_, ht, Tree.named_init free⟩
  · rintro s ⟨stack, req⟩ s' hs hpage hstep fs' rfl
    cases s with
    | ended e => cases hstep
    | up fs =>
        obtain ⟨t, ht, hnamed⟩ := hs fs rfl
        rw [ServerState.step] at hstep
        split at hstep
        · rename_i res fs₂ hserve
          obtain rfl := ServerState.up.inj (Option.some.inj hstep)
          exact named_serve ht hnamed hpage hserve
        · cases Option.some.inj hstep

end

/-- The objects of a server are a tree: every inode in use but the first has exactly one path of
names from the root, what names lead to is in use, and two paths that lead to the same object have
the same components. -/
theorem namespace_is_tree {numBlocks : Nat} (hn : 10 ≤ numBlocks) {readings : Nat → Int}
    {s₀ : ServerState} (hinit : snfsInit numBlocks readings = .ok s₀)
    {tr : List (ServerState × (Stack × Req))} {fs : Fs}
    (hrun : Run ServerState.step s₀ tr (.up fs)) (hpages : ∀ p ∈ tr, p.1.OnePage p.2) :
    (∀ id, 1 ≤ id → fs.Used id → ∃! names, fs.walk 1 names = some id) ∧
      (∀ names id, fs.walk 1 names = some id → 1 ≤ id ∧ fs.Used id) ∧
      ∀ path path' id, fs.Leads path id → fs.Leads path' id → tokens path = tokens path' := by
  obtain ⟨t, ht, hnamed⟩ := named_server hn hinit hrun hpages
  have hwf := isTree_wf ht
  have hshows := isTree_shows ht
  have hrooted := hnamed.rootedTree hwf
  have hwalk : ∀ names id, fs.walk 1 names = some id ↔ NamePath t.Child 1 names id :=
    fun names id => hshows.walk_iff hwf hnamed names ⟨Nat.le_refl 1, hwf.length_pos⟩ id
  refine ⟨fun id hpos hused => ?_, fun names id hnames => ?_, fun path path' id hp hp' => ?_⟩
  · simp only [hwalk]
    exact hrooted.existsUnique_path ⟨hpos, (hshows.used id).mp hused⟩
  · rw [hwalk] at hnames
    have hmem := hrooted.mem_of_path (fun dir name id ⟨es, hdir, hmem⟩ =>
      hwf.ids _ (Tree.node_some hdir).2.2.2 _ hmem) hnames
    exact ⟨hmem.1, (hshows.used id).mpr hmem.2⟩
  · exact hrooted.path_unique ((hwalk _ _).mp hp.2) ((hwalk _ _).mp hp'.2)

/-- A directory and a file in it, on twelve blocks. -/
theorem namespace_is_tree_twelve_blocks :
    ∃ s₀ fs, snfsInit 12 (fun i => 7 * i) = .ok s₀ ∧ Reaches ServerState.step s₀ (.up fs) ∧
      fs.walk 1 [[100], [102]] = some 3 ∧ ∃! names, fs.walk 1 names = some 3 := by
  let reqs : List (Stack × Req) :=
    [(⟨fun _ => 0, 0⟩, createReq 6 1 [100]), (⟨fun _ => 0, 0⟩, createReq 5 2 [102])]
  have hfacts : (snfsInit 12 (fun i => 7 * i)).map (fun s₀ =>
      (runTrace ServerState.step s₀ reqs).bind fun r => r.2.fs?.map fun fs =>
        (fs.walk 1 [[100], [102]], bmapIsset fs.inodeBmap 3)) = .ok (some (some 3, true)) := by
    decide +kernel
  obtain ⟨s₀, hs, hfacts⟩ := except_map_ok hfacts
  obtain ⟨⟨tr, s⟩, htr, hfacts⟩ := Option.bind_eq_some_iff.mp hfacts
  obtain ⟨fs, hfs, hval⟩ := Option.map_eq_some_iff.mp hfacts
  obtain rfl := ServerState.eq_of_fs? hfs
  obtain ⟨hwalk, hused⟩ := Prod.mk.inj hval
  have hrun := run_of_runTrace reqs .nil htr
  have hacts := runTrace_acts reqs htr
  refine ⟨s₀, fs, hs, ⟨_, hrun⟩, hwalk, (namespace_is_tree (by decide) hs hrun ?_).1 3
    (by decide) hused⟩
  rintro ⟨s', stack, req⟩ hp
  have hreq : (stack, req) ∈ reqs := hacts ▸ List.mem_map_of_mem (f := Prod.snd) hp
  refine s'.onePage_of_type stack ?_
  simp only [reqs, List.mem_cons, List.not_mem_nil, or_false, Prod.mk.injEq] at hreq
  rcases hreq with ⟨-, rfl⟩ | ⟨-, rfl⟩
  · decide
  · decide

end Sthreads.Snfs
