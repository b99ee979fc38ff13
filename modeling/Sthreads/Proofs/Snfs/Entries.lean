/-
`fs_create` and `fs_mkdir` add one entry or nothing.

When they succeed and what there is afterwards is read off the tree.  That a call that
fails leaves both bitmaps as well is seen in the view: it has only read.
-/
import Sthreads.Proofs.Snfs.Unchanged

namespace Sthreads.Snfs

open Prog

namespace Fs

/-- An object of this name can be created in the directory, if free blocks are looked for below
`limit`. -/
structure CanCreate (fs : Fs) (limit dir : Nat) (name : List UInt8) : Prop where
  used : dir < 64 ∧ fs.Used dir
  itype : (fs.inodeOf dir).itype = 1
  length : 1 ≤ name.length ∧ name.length ≤ 13
  fresh : ∀ e ∈ fs.dirEntries dir, e.1 ≠ name
  inode : ∃ id, id < 64 ∧ ¬ fs.Used id
  block : (fs.inodeOf dir).size % 512 = 0 → ∃ b, b < limit ∧ bmapIsset fs.blkBmap b = false

/-- The object has been created: its inode was the lowest that was free, its entry is the last of
the directory, and every other object is as it was. -/
structure Created (fs fs' : Fs) (itype dir : Nat) (name : List UInt8) (id : Nat) : Prop where
  free : id < 64 ∧ ¬ fs.Used id
  lowest : ∀ i, i < id → fs.Used i
  used : ∀ i, fs'.Used i ↔ fs.Used i ∨ i = id
  new : (fs'.inodeOf id).itype = itype ∧ (fs'.inodeOf id).size = 0
  empty : fs'.fileBytes id = [] ∧ fs'.dirEntries id = []
  parent : (fs'.inodeOf dir).itype = 1 ∧ (fs'.inodeOf dir).size = (fs.inodeOf dir).size + 16
  entries : fs'.dirEntries dir = fs.dirEntries dir ++ [(name, id)]
  others : ∀ i, fs.Used i → i ≠ dir → SameObject fs fs' i

end Fs

section

variable {numBlocks : Nat} {s : Fs} {t : Tree}

/-- An entry list has nothing under a name that none of its entries has. -/
theorem findEntry_eq_none {es : List (List UInt8 × Nat)} {name : List UInt8} :
    findEntry es name = none ↔ ∀ e ∈ es, e.1 ≠ name := by
  simp [findEntry]

theorem freeCount_pos {bmap : Page 512} {limit : Nat} :
    0 < freeCount bmap limit ↔ ∃ b, b < limit ∧ bmapIsset bmap b = false := by
  rw [Nat.pos_iff_ne_zero, Ne, freeCount_eq_zero]
  simp

/-- `fs_create` and `fs_mkdir` create as the tree does, or change nothing. -/
theorem isTree_create (ht : IsTree CachedRel numBlocks s t) {new : Node} (hnew : new.size = 0)
    (junk : Page 512) (dir : Nat) (file : CStr) :
    ∃ s', run Fs.handler (fsCreateOf new.itype junk dir file) s =
        .ok ((t.create new dir file.chars).1, s') ∧
      IsTree CachedRel numBlocks s' (t.create new dir file.chars).2 ∧
      ((t.create new dir file.chars).1.1 ≠ 0 → Unchanged s s') := by
  obtain ⟨A, hR, hrep, heq, hnum⟩ := ht
  have hwp := wp_createOf (H := fun _ => False) hrep heq hnew junk dir file
    (Q := fun res A' => res = (t.create new dir file.chars).1 ∧
      After A' (t.create new dir file.chars).2 ∧ (res.1 ≠ 0 → SameTree A A'))
    fun A' hA' _ hsame => ⟨rfl, hA', hsame⟩
  rcases run_sound cached_sound _ hR (wp_numBlocks _ hnum hwp) with
    ⟨res, s', A', hrun, hR', ⟨rfl, hafter, hsame⟩, hnum'⟩ | ⟨e, -, hno⟩
  · have hforget := cached_forgets s' A' hR' hafter.forgettable
    refine ⟨s', hrun, ⟨A'.forget, hforget, hafter.rep, rfl, hnum'⟩, fun hfail => ?_⟩
    rcases t.create_cases new dir file.chars with ⟨fileid, hc⟩ | ⟨es, free, -, -, -, -, hc⟩
    · -- nothing was edited, so there is nothing to forget
      obtain ⟨h1, h2, h3, h4, h5, h6, h7⟩ := hsame hfail
      have heq' : A'.ino = A'.tab := by rw [h5, h6, heq]
      have hrep' := hafter.rep
      rw [View.forget_eq heq', hc] at hrep'
      exact hR.unchanged hR' hrep hrep' heq ⟨h1, h2, h3, h4, h5, h6, h7⟩
    · rw [hc] at hfail
      exact absurd rfl hfail
  · exact hno.elim

/-- When the tree can create an object. -/
theorem Tree.create_zero (new : Node) (dir : Nat) (name : List UInt8) :
    (t.create new dir name).1.1 = 0 ↔ ∃ es, t.node dir = some (.dir es) ∧
      (1 ≤ name.length ∧ name.length ≤ 13) ∧ findEntry es name = none ∧
      t.nodes.length + 1 < 64 ∧ (es.length % 32 = 0 → 0 < t.free) := by
  rw [Tree.create]
  cases hnode : t.node dir with
  | none => simp
  | some n =>
      cases n with
      | file bytes => simp
      | dir es =>
          dsimp only
          by_cases hname : name.length = 0 ∨ name.length + 1 > 14
          · rw [if_pos hname]
            simp only [Int.reduceNeg, Int.neg_eq_zero, one_ne_zero, false_iff]
            rintro ⟨es', -, hlen, -⟩
            omega
          · rw [if_neg hname]
            cases hfind : findEntry es name with
            | some id => simp [hfind]
            | none =>
                simp only [Option.some.injEq, Node.dir.injEq, exists_eq_left', hfind, true_and]
                have hreq : (if es.length % 32 = 0 then 1 else 0) > t.free ↔
                    es.length % 32 = 0 ∧ t.free = 0 := by
                  split <;> omega
                by_cases hfull : t.nodes.length + 1 ≥ 64 ∨
                    (if es.length % 32 = 0 then 1 else 0) > t.free
                · rw [if_pos hfull]
                  simp only [Int.reduceNeg, Int.neg_eq_zero, one_ne_zero, false_iff]
                  omega
                · rw [if_neg hfull]
                  simp only [true_iff]
                  omega

/-- The object of a directory's inode. -/
theorem Shows.node_dir (h : Shows s t) {dir : Nat} (hused : s.Used dir)
    (htype : (s.inodeOf dir).itype = 1) : t.node dir = some (.dir (s.dirEntries dir)) := by
  have hpos : 1 ≤ dir := by
    rcases Nat.eq_zero_or_pos dir with rfl | hpos
    · rw [h.zero.1] at htype
      cases htype
    · exact hpos
  obtain ⟨n, hn⟩ := Tree.node_of_le hpos ((h.used dir).mp hused)
  rw [h.itype dir n hn] at htype
  cases n with
  | dir es => rw [hn, h.dir dir es hn]
  | file bytes => cases htype

/-- The blocks that are free in the tree are those that the search looks at. -/
theorem isTree_limit (ht : IsTree CachedRel numBlocks s t) :
    t.free = freeCount s.blkBmap (asInt numBlocks).toNat := by
  obtain ⟨A, hrel, hrep, -, rfl⟩ := ht
  rw [hrep.free, hrel.blkBmap]
  rfl

/-- An object can be created where the tree can create one. -/
theorem canCreate_iff (ht : IsTree CachedRel numBlocks s t) (new : Node) (dir : Nat)
    (name : List UInt8) :
    s.CanCreate (asInt numBlocks).toNat dir name ↔ (t.create new dir name).1.1 = 0 := by
  have hshows := isTree_shows ht
  have hfree := isTree_limit ht
  have hwf := isTree_wf ht
  have hcount := hwf.count
  rw [Tree.create_zero]
  constructor
  · intro hcan
    have hdir := hshows.node_dir hcan.used.2 hcan.itype
    refine ⟨s.dirEntries dir, hdir, hcan.length, findEntry_eq_none.mpr hcan.fresh, ?_, ?_⟩
    · obtain ⟨id, hid, hunused⟩ := hcan.inode
      rw [hshows.used] at hunused
      omega
    · intro hfull
      rw [hfree, freeCount_pos]
      refine hcan.block ?_
      rw [hshows.size dir _ hdir]
      simp only [Node.size]
      omega
  · rintro ⟨es, hdir, hlen, hfind, hroom, hblock⟩
    obtain ⟨-, hle, -, -⟩ := Tree.node_some hdir
    refine ⟨⟨by omega, (hshows.used dir).mpr hle⟩, hshows.itype dir _ hdir, hlen, ?_, ?_, ?_⟩
    · rw [hshows.dir dir es hdir]
      exact findEntry_eq_none.mp hfind
    · refine ⟨t.nodes.length + 1, hroom, ?_⟩
      rw [hshows.used]
      omega
    · intro hsize
      rw [hshows.size dir _ hdir] at hsize
      simp only [Node.size] at hsize
      rw [← freeCount_pos, ← hfree]
      exact hblock (by omega)

theorem Fs.fileBytes_of_size {id : Nat} (h : (s.inodeOf id).size = 0) : s.fileBytes id = [] := by
  rw [Fs.fileBytes, h]
  rfl

theorem Fs.dirEntries_of_size {id : Nat} (h : (s.inodeOf id).size = 0) : s.dirEntries id = [] := by
  rw [Fs.dirEntries, h]
  rfl

/-- What there is after the tree has created an object. -/
theorem created_of_create (ht : IsTree CachedRel numBlocks s t) {s' : Fs} {new : Node}
    (hnew : new.size = 0) {dir : Nat} {name : List UInt8} {es : List (List UInt8 × Nat)}
    {free : Nat} (hdir : t.node dir = some (.dir es)) (hroom : t.nodes.length + 1 < 64)
    (ht' : IsTree CachedRel numBlocks s' ⟨free,
      (t.setNode dir (.dir (es ++ [(name, t.nodes.length + 1)]))).nodes ++ [new]⟩) :
    s.Created s' new.itype dir name (t.nodes.length + 1) := by
  have hshows := isTree_shows ht
  have hshows' := isTree_shows ht'
  obtain ⟨hpos, hle, -, -⟩ := Tree.node_some hdir
  have hlen := Tree.setNode_length t dir (.dir (es ++ [(name, t.nodes.length + 1)]))
  -- the nodes of the new tree
  have hnode := Tree.node_created hpos hle free (.dir (es ++ [(name, t.nodes.length + 1)])) new
  have hdir' := (hnode dir).trans ((if_neg (by omega)).trans (if_pos rfl))
  have hnew' := (hnode (t.nodes.length + 1)).trans (if_pos rfl)
  have hsize : (s'.inodeOf (t.nodes.length + 1)).size = 0 :=
    (hshows'.size _ _ hnew').trans hnew
  refine ⟨⟨hroom, ?_⟩, fun i hi => ?_, fun i => ?_, ⟨hshows'.itype _ _ hnew', hsize⟩,
    ⟨Fs.fileBytes_of_size hsize, Fs.dirEntries_of_size hsize⟩, ⟨hshows'.itype _ _ hdir', ?_⟩, ?_,
    fun i hused hi => ?_⟩
  · rw [hshows.used]
    omega
  · exact (hshows.used i).mpr (by omega)
  · rw [hshows'.used, hshows.used, List.length_append, hlen, List.length_singleton]
    omega
  · rw [hshows'.size _ _ hdir', hshows.size _ _ hdir]
    simp only [Node.size, List.length_append, List.length_singleton]
    omega
  · rw [hshows'.dir _ _ hdir', hshows.dir _ _ hdir]
  · have hold := (hshows.used i).mp hused
    refine hshows.sameObject hshows' hused ?_
    rw [hnode, if_neg (by omega), if_neg hi]

end

/-- `fs_create` (of type 2) and `fs_mkdir` (of type 1) add one entry, and the object it names, or
change nothing.  The number of blocks is taken as an `int` when a free one is looked for. -/
theorem create_adds_entry {numBlocks : Nat} (hn : 10 ≤ numBlocks) {s : Fs}
    (h : Reached numBlocks s) {itype : Nat} (hitype : itype = 1 ∨ itype = 2) (junk : Page 512)
    (dir : Nat) (file : CStr) :
    ∃ status fileid s', run Fs.handler (fsCreateOf itype junk dir file) s =
        .ok ((status, fileid), s') ∧
      (status = 0 ∨ status = -1) ∧
      (status = 0 ↔ s.CanCreate (asInt numBlocks).toNat dir file.chars) ∧
      (status = 0 → ∃ id, fileid = some id ∧ s.Created s' itype dir file.chars id) ∧
      (status = -1 → Unchanged s s') := by
  obtain ⟨t, ht⟩ := h.isTree hn
  obtain ⟨new, hnew, rfl⟩ : ∃ new : Node, new.size = 0 ∧ new.itype = itype := by
    rcases hitype with rfl | rfl
    · exact ⟨.dir [], rfl, rfl⟩
    · exact ⟨.file [], rfl, rfl⟩
  obtain ⟨s', hrun, hs', hsame⟩ := isTree_create ht hnew junk dir file
  have hcan := canCreate_iff ht new dir file.chars
  refine ⟨_, _, s', hrun, ?_, hcan.symm, ?_, fun hfail => hsame (by rw [hfail]; decide)⟩
  · rcases t.create_cases new dir file.chars with ⟨fileid, hc⟩ | ⟨es, free, -, -, -, -, hc⟩
    · exact Or.inr (by rw [hc])
    · exact Or.inl (by rw [hc])
  · intro hzero
    rcases t.create_cases new dir file.chars with
      ⟨fileid, hc⟩ | ⟨es, free, hdir, -, hroom, -, hc⟩
    · rw [hc] at hzero
      cases hzero
    · rw [hc] at hs' ⊢
      exact ⟨_, rfl, created_of_create ht hnew hdir hroom hs'⟩

/-- Twelve blocks: a directory is made in the root, and the name is then refused. -/
theorem create_adds_entry_twelve_blocks :
    ∃ s s', Fs.session 12 (fun i => 7 * i) (fun _ _ => 0) [] = .ok s ∧
      run Fs.handler (fsMkdir (fun _ => 0) 1 ⟨[100], by decide⟩) s = .ok ((0, some 2), s') ∧
      s.Created s' 1 1 [100] 2 ∧
      ∃ fileid s'', run Fs.handler (fsCreate (fun _ => 0) 1 ⟨[100], by decide⟩) s' =
        .ok ((-1, fileid), s'') ∧ Unchanged s' s'' := by
  have hfacts : (Fs.session 12 (fun i => 7 * i) (fun _ _ => 0) []).map (fun s =>
      ((run Fs.handler (fsMkdir (fun _ => 0) 1 ⟨[100], by decide⟩) s).map (·.1))) =
        .ok (.ok (0, some 2)) := by
    decide +kernel
  cases hs : Fs.session 12 (fun i => 7 * i) (fun _ _ => 0) [] with
  | error e =>
      rw [hs] at hfacts
      cases hfacts
  | ok s =>
      rw [hs] at hfacts
      have hreached := Reached.session (by simp) hs
      obtain ⟨status, fileid, s', hrun, -, -, hcreated, -⟩ :=
        create_adds_entry (by decide) hreached (Or.inl rfl) (fun _ => 0) 1 ⟨[100], by decide⟩
      have hval := Except.ok.inj hfacts
      change (run Fs.handler (fsCreateOf 1 _ _ _) s).map _ = _ at hval
      rw [hrun] at hval
      obtain ⟨rfl, rfl⟩ := Prod.mk.inj (Except.ok.inj hval)
      obtain ⟨id, hid, hnew⟩ := hcreated rfl
      obtain rfl := Option.some.inj hid
      have hcall : run Fs.handler (Call.prog (fun _ => 0) (.mkdir 1 ⟨[100], by decide⟩)) s =
          .ok (.create 0 (some 2), s') := by
        change run Fs.handler (fsCreateOf 1 _ _ _ >>= _) s = _
        rw [run_bind, hrun]
        rfl
      obtain ⟨status, fileid, s'', hrun', hor, hcan, -, hfail⟩ :=
        create_adds_entry (by decide)
          (hreached.call (c := .mkdir 1 ⟨[100], by decide⟩) trivial hcall) (Or.inr rfl)
          (fun _ => 0) 1 ⟨[100], by decide⟩
      have hminus : status = -1 := by
        refine hor.resolve_left fun hzero => ?_
        refine (hcan.mp hzero).fresh ([100], 2) ?_ rfl
        rw [hnew.entries]
        exact List.mem_append_right _ List.mem_cons_self
      subst hminus
      exact ⟨s, s', rfl, hrun, hnew, fileid, s'', hrun', hfail rfl⟩

/-- With so many blocks that their number is no `int`, no free block is found. -/
theorem no_block_is_found :
    ∃ s, Reached 2147483658 s ∧ s.CanCreate 2147483658 1 [102] ∧
      ∃ s', run Fs.handler (fsCreate (fun _ => 0) 1 ⟨[102], by decide⟩) s =
        .ok ((-1, none), s') := by
  have hfacts : (Fs.session 2147483658 (fun i => 7 * i) (fun _ _ => 0) []).map (fun s =>
      (bmapIsset s.inodeBmap 1, (s.inodeOf 1).itype, (s.inodeOf 1).size, bmapIsset s.inodeBmap 2,
        bmapIsset s.blkBmap 10)) = .ok (true, 1, 0, false, false) := by
    decide +kernel
  have hcreate : (Fs.session 2147483658 (fun i => 7 * i) (fun _ _ => 0) []).map (fun s =>
      (run Fs.handler (fsCreate (fun _ => 0) 1 ⟨[102], by decide⟩) s).map (·.1)) =
      .ok (.ok (-1, none)) := by
    decide +kernel
  cases hs : Fs.session 2147483658 (fun i => 7 * i) (fun _ _ => 0) [] with
  | error e =>
      rw [hs] at hfacts
      cases hfacts
  | ok s =>
      rw [hs] at hfacts hcreate
      have hval := Except.ok.inj hfacts
      simp only [Prod.mk.injEq] at hval
      obtain ⟨hused, htype, hsize, hinode, hblock⟩ := hval
      have hcreate := Except.ok.inj hcreate
      dsimp only at hcreate
      refine ⟨s, Reached.session (by simp) hs, ⟨⟨by decide, hused⟩, htype, by decide, ?_,
        ⟨2, by decide, ?_⟩, fun _ => ⟨10, by decide, hblock⟩⟩, ?_⟩
      · rw [Fs.dirEntries_of_size hsize]
        exact fun e he => absurd he List.not_mem_nil
      · rw [Fs.Used, hinode]
        decide
      · cases hrun : run Fs.handler (fsCreate (fun _ => 0) 1 ⟨[102], by decide⟩) s with
        | error e =>
            rw [hrun] at hcreate
            cases hcreate
        | ok p =>
            rw [hrun] at hcreate
            exact ⟨p.2, congrArg Except.ok (Prod.ext (Except.ok.inj hcreate) rfl)⟩

end Sthreads.Snfs
