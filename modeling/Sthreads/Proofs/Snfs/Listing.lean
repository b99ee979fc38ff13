/-
`fs_readdir` lists what has been created in a directory, as long as no listing leaves its
first page.

While the entries of a page are listed their inodes are got, and the slot with the
directory's inode is reused.  The pointer to it is then followed for the second page.  A
listing of one page does not do that, and a run with only such listings goes on as the tree
says, so what it has created in a directory is what is listed.
-/
import Sthreads.Proofs.Snfs.Entries
import Sthreads.Proofs.Snfs.InodeCache

namespace Sthreads.Snfs

open Prog

/-! ### What a tree lists -/

namespace Tree

variable {t t' : Tree}

/-- The type of an object. -/
def typeOf (t : Tree) (id : Nat) : Nat := ((t.node id).map Node.itype).getD 0

/-- The entries of a directory, each with the type of its object. -/
def listing (t : Tree) (dir : Nat) : List (List UInt8 × Nat) :=
  match t.node dir with
  | some n => n.entries.map fun e => (e.1, t.typeOf e.2)
  | none => []

theorem listing_of_node {dir : Nat} {n : Node} (h : t.node dir = some n) :
    t.listing dir = n.entries.map fun e => (e.1, t.typeOf e.2) := by
  rw [listing, h]

theorem listing_of_none {dir : Nat} (h : t.node dir = none) : t.listing dir = [] := by
  rw [listing, h]

theorem readdir_eq {dir : Nat} {es : List (List UInt8 × Nat)} (h : t.node dir = some (.dir es))
    {maxentries : Int} (hmax : 0 ≤ maxentries) :
    t.readdir dir maxentries = (0, some ((t.listing dir).take maxentries.toNat)) := by
  rw [readdir, h, listing_of_node h, ← List.map_take]
  dsimp only
  rw [if_neg (by omega)]
  rfl

/-- A tree with the same entries, whose objects have kept their types. -/
theorem listing_congr (hwf : t.WF) {dir : Nat}
    (hentries : (t'.node dir).map Node.entries = (t.node dir).map Node.entries)
    (htypes : ∀ id, id ≤ t.nodes.length → t'.typeOf id = t.typeOf id) :
    t'.listing dir = t.listing dir := by
  cases h : t.node dir with
  | none =>
      rw [h, Option.map_none, Option.map_eq_none_iff] at hentries
      rw [listing_of_none h, listing_of_none hentries]
  | some n =>
      obtain ⟨-, -, -, hmem⟩ := node_some h
      rw [h, Option.map_some] at hentries
      obtain ⟨n', h', hn'⟩ := Option.map_eq_some_iff.mp hentries
      rw [listing_of_node h, listing_of_node h', hn']
      refine List.map_congr_left fun e he => ?_
      rw [htypes e.2 (hwf.ids n hmem e he).2]

/-- A write adds no entry. -/
theorem listing_write (hwf : t.WF) (file offset count : Nat) (buffer : Nat → UInt8) (dir : Nat) :
    (t.write file offset count buffer).2.listing dir = t.listing dir := by
  rcases t.write_cases file offset count buffer with ⟨free, hw⟩ | ⟨bytes, free, hnode, -, -, hw⟩
  · rw [hw]
    rfl
  · obtain ⟨hpos, hle, -, -⟩ := node_some hnode
    rw [hw]
    have hset := node_setNode (t := { t with free := free }) hpos hle
      (.file (overwrite bytes (min offset bytes.length) count buffer))
    refine listing_congr hwf ?_ fun id _ => ?_
    · rw [hset]
      by_cases hd : dir = file
      · rw [if_pos hd, hd, hnode]
        rfl
      · rw [if_neg hd]
        rfl
    · rw [typeOf, typeOf, hset]
      by_cases hd : id = file
      · rw [if_pos hd, hd, hnode]
        rfl
      · rw [if_neg hd]
        rfl

/-- A creation adds one entry, to the directory named. -/
theorem listing_create (hwf : t.WF) {new : Node} (hnew : new.entries = []) (d : Nat)
    (name : List UInt8) (dir : Nat) :
    (t.create new d name).2.listing dir = t.listing dir ++
      if (t.create new d name).1.1 = 0 ∧ d = dir then [(name, new.itype)] else [] := by
  rcases t.create_cases new d name with ⟨fileid, hc⟩ | ⟨es, free, hdir, -, -, -, hc⟩
  · rw [hc, if_neg (by simp), List.append_nil]
  · obtain ⟨hpos, hle, -, hmem⟩ := node_some hdir
    rw [hc]
    dsimp only
    have hnode := node_created hpos hle free (.dir (es ++ [(name, t.nodes.length + 1)])) new
    generalize hT : Tree.mk free ((t.setNode d (.dir (es ++ [(name, t.nodes.length + 1)]))).nodes ++
      [new]) = t' at hnode ⊢
    have htypes : ∀ id, id ≤ t.nodes.length → t'.typeOf id = t.typeOf id := by
      intro id hid
      rw [typeOf, typeOf, hnode, if_neg (by omega)]
      by_cases hd : id = d
      · rw [if_pos hd, hd, hdir]
        rfl
      · rw [if_neg hd]
    by_cases hd : d = dir
    · subst hd
      have hdir' := (hnode d).trans ((if_neg (by omega)).trans (if_pos rfl))
      have hlast : t'.typeOf (t.nodes.length + 1) = new.itype := by
        rw [typeOf, hnode, if_pos rfl]
        rfl
      rw [if_pos ⟨rfl, rfl⟩, listing_of_node hdir, listing_of_node hdir']
      simp only [Node.entries, List.map_append, List.map_cons, List.map_nil, hlast]
      congr 1
      exact List.map_congr_left fun e he => by rw [htypes e.2 (hwf.ids _ hmem e he).2]
    · rw [if_neg fun h => hd h.2, List.append_nil]
      by_cases hlast : dir = t.nodes.length + 1
      · -- the new object has no entries
        have hdir' := (hnode dir).trans (if_pos hlast)
        rw [listing_of_node hdir', hnew, listing_of_none (node_of_gt (by omega))]
        rfl
      · refine listing_congr hwf ?_ htypes
        rw [hnode, if_neg hlast, if_neg fun h => hd h.symm]

end Tree

/-! ### Runs -/

section

variable {numBlocks : Nat} {s s' : Fs} {t : Tree}

theorem onePage_of_fits (ht : IsTree CachedRel numBlocks s t) {dir : Nat} {maxentries : Int}
    (hfit : s.Fits (.readdir dir maxentries)) :
    ∀ es, t.node dir = some (.dir es) → min es.length maxentries.toNat ≤ 32 := by
  have hshows := isTree_shows ht
  intro es hes
  obtain ⟨-, hle, -, -⟩ := Tree.node_some hes
  have hone := hfit ((hshows.used dir).mpr hle) (hshows.itype dir _ hes)
  rw [hshows.size dir _ hes] at hone
  simp only [Node.size] at hone
  omega

/-- A listing that fits on one page is the one of the tree, and leaves the tree. -/
theorem isTree_readdir (ht : IsTree CachedRel numBlocks s t) (junk : Page 512) {dir : Nat}
    {maxentries : Int} (hfit : s.Fits (.readdir dir maxentries)) :
    ∃ s', run Fs.handler (fsReaddir junk dir maxentries) s =
        .ok (t.readdir dir maxentries, s') ∧ IsTree CachedRel numBlocks s' t := by
  rcases isTree_read cached_sound cached_forgets ht (x := .ok (t.readdir dir maxentries))
    (fun A r hrep => read_readdir hrep junk dir maxentries (fun id hle _ => hle)
      (onePage_of_fits ht hfit)
      fun r' => rfl) with ⟨v, s', hv, hrun, hs'⟩ | ⟨e, he, -⟩
  · obtain rfl := Except.ok.inj hv
    exact ⟨s', hrun, hs'⟩
  · cases he

/-- A call that returns leaves what the tree says. -/
theorem isTree_call_ok (ht : IsTree CachedRel numBlocks s t) {junk : Page 512} {c : Call}
    (hok : c.Ok) {r : Reply} (hrun : run Fs.handler (c.prog junk) s = .ok (r, s')) :
    ∃ t', t.call c = .ok (r, t') ∧ IsTree CachedRel numBlocks s' t' := by
  rcases isTree_call cached_sound cached_forgets ht hok junk with
    ⟨r', t', s₁, htree, hrun', ht', -⟩ | ⟨e, -, herr⟩
  · rw [hrun] at hrun'
    obtain ⟨rfl, rfl⟩ := Prod.mk.inj (Except.ok.inj hrun')
    exact ⟨t', htree, ht'⟩
  · rw [hrun] at herr
    cases herr

/-- A write that returns leaves what the tree says. -/
theorem isTree_write_ok (ht : IsTree CachedRel numBlocks s t) (junk : Page 512)
    (file offset : Nat) {count : Nat} (hcount : count < 2 ^ 32) (buffer : Nat → UInt8)
    {status : Int} (hrun : run Fs.handler (fsWrite junk file offset count buffer) s =
      .ok (status, s')) :
    IsTree CachedRel numBlocks s' (t.write file offset count buffer).2 := by
  by_cases hend : ∀ bytes, t.node file = some (.file bytes) →
      min offset bytes.length + count < 2 ^ 32
  · obtain ⟨s₁, hrun', hs₁⟩ := isTree_write cached_sound cached_forgets ht junk file offset
      buffer hend
    rw [hrun] at hrun'
    obtain ⟨-, rfl⟩ := Prod.mk.inj (Except.ok.inj hrun')
    exact hs₁
  · -- such a write does not return
    simp only [not_forall] at hend
    obtain ⟨bytes, hnode, hend⟩ := hend
    obtain ⟨A, hR, hrep, heq, -⟩ := ht
    rcases run_sound cached_sound _ hR (wp_write_wraps hrep heq hnode junk buffer hcount
      (Nat.le_of_not_lt hend)) with ⟨_, _, _, -, -, hno⟩ | ⟨e, herr, -⟩
    · exact hno.elim
    · rw [hrun] at herr
      cases herr

theorem toList_created {α : Type} (status : Int) (p : Prop) [Decidable p] (e : α) :
    (if status = 0 ∧ p then [e] else []) =
      (if (status == 0) = true then (if p then some e else none) else none).toList := by
  by_cases hs : status = 0 <;> by_cases hp : p <;> simp [hs, hp]

/-- A call that returns, and is no listing of more than a page, leaves a tree, which lists what the
old one did and what the call has created. -/
theorem isTree_fsCall (ht : IsTree CachedRel numBlocks s t) {junk : Page 512} {c : FsCall}
    (htyped : c.Typed) (hfit : s.Fits c) {r : FsReply}
    (hrun : run Fs.handler (c.prog junk) s = .ok (r, s')) :
    ∃ t', IsTree CachedRel numBlocks s' t' ∧ ∀ dir, t'.listing dir =
      t.listing dir ++ (if r.created then c.createsIn dir else none).toList := by
  have hwf := isTree_wf ht
  -- a call that creates nothing
  have keeps : ∀ {t'}, IsTree CachedRel numBlocks s' t' → r.created = false →
      (∀ dir, t'.listing dir = t.listing dir) → ∃ t', IsTree CachedRel numBlocks s' t' ∧
        ∀ dir, t'.listing dir =
          t.listing dir ++ (if r.created then c.createsIn dir else none).toList := by
    intro t' ht' hno hlist
    refine ⟨t', ht', fun dir => ?_⟩
    rw [hno, hlist]
    exact (List.append_nil _).symm
  cases c with
  | copy srcpath tgtpath =>
      obtain ⟨rfl, rfl⟩ := Prod.mk.inj (Except.ok.inj hrun)
      exact keeps ht rfl fun _ => rfl
  | readdir dir maxentries =>
      obtain ⟨x, s₁, hlist, hrun⟩ := run_bind_ok hrun
      obtain ⟨rfl, rfl⟩ := Prod.mk.inj (Except.ok.inj hrun)
      obtain ⟨s₂, hlist', ht'⟩ := isTree_readdir ht junk hfit
      rw [hlist] at hlist'
      obtain ⟨-, rfl⟩ := Prod.mk.inj (Except.ok.inj hlist')
      exact keeps ht' rfl fun _ => rfl
  | call c =>
      obtain ⟨r, s₁, hcall, hrun⟩ := run_bind_ok hrun
      obtain ⟨rfl, rfl⟩ := Prod.mk.inj (Except.ok.inj hrun)
      cases c with
      | write file offset count buffer =>
          obtain ⟨status, s₂, hwrite, hrun⟩ := run_bind_ok hcall
          obtain ⟨rfl, rfl⟩ := Prod.mk.inj (Except.ok.inj hrun)
          exact keeps (isTree_write_ok ht junk file offset htyped buffer hwrite) rfl
            (Tree.listing_write hwf file offset count buffer)
      | getAttrs file =>
          obtain ⟨t', htree, ht'⟩ := isTree_call_ok ht (c := .getAttrs file) trivial hcall
          obtain ⟨v, -, hv⟩ := except_bind_ok htree
          obtain ⟨rfl, rfl⟩ := Prod.mk.inj (Except.ok.inj hv)
          exact keeps ht' rfl fun _ => rfl
      | lookup file =>
          obtain ⟨t', htree, ht'⟩ := isTree_call_ok ht (c := .lookup file) trivial hcall
          obtain ⟨v, -, hv⟩ := except_bind_ok htree
          obtain ⟨rfl, rfl⟩ := Prod.mk.inj (Except.ok.inj hv)
          exact keeps ht' rfl fun _ => rfl
      | read file offset count =>
          obtain ⟨t', htree, ht'⟩ := isTree_call_ok ht (c := .read file offset count) trivial hcall
          obtain ⟨rfl, rfl⟩ := Prod.mk.inj (Except.ok.inj htree)
          exact keeps ht' rfl fun _ => rfl
      | create d file =>
          obtain ⟨t', htree, ht'⟩ := isTree_call_ok ht (c := .create d file) trivial hcall
          obtain ⟨rfl, rfl⟩ := Prod.mk.inj (Except.ok.inj htree)
          refine ⟨_, ht', fun dir => ?_⟩
          have hlist := Tree.listing_create hwf (show (Node.file []).entries = [] from rfl) d
            file.chars dir
          rw [toList_created] at hlist
          exact hlist
      | mkdir d newdir =>
          obtain ⟨t', htree, ht'⟩ := isTree_call_ok ht (c := .mkdir d newdir) trivial hcall
          obtain ⟨rfl, rfl⟩ := Prod.mk.inj (Except.ok.inj htree)
          refine ⟨_, ht', fun dir => ?_⟩
          have hlist := Tree.listing_create hwf (show (Node.dir []).entries = [] from rfl) d
            newdir.chars dir
          rw [toList_created] at hlist
          exact hlist

theorem createdIn_snoc (dir : Nat) (tr : List (Fs × (Page 512 × FsCall))) {junk : Page 512}
    {c : FsCall} {r : FsReply} (hcall : run Fs.handler (c.prog junk) s = .ok (r, s')) :
    createdIn dir (tr ++ [(s, (junk, c))]) =
      createdIn dir tr ++ (if r.created then c.createsIn dir else none).toList := by
  have hone : s.createsIn dir (junk, c) = if r.created then c.createsIn dir else none := by
    rw [Fs.createsIn, hcall]
  rw [createdIn, List.filterMap_append, List.filterMap_cons, List.filterMap_nil, hone]
  cases (if r.created then c.createsIn dir else none) <;> rfl

/-- What a run without long listings has created in a directory is what the tree lists. -/
theorem isTree_createdIn (hn : 10 ≤ numBlocks) {fs₀ : Fs} (h₀ : JustFormatted numBlocks fs₀)
    {tr : List (Fs × (Page 512 × FsCall))} (hrun : Run Fs.step fs₀ tr s)
    (hfits : ∀ p ∈ tr, p.1.Fits p.2.2) :
    ∃ t, IsTree CachedRel numBlocks s t ∧ ∀ dir, t.listing dir = createdIn dir tr := by
  refine hrun.history_of (fun tr s => ∃ t, IsTree CachedRel numBlocks s t ∧
    ∀ dir, t.listing dir = createdIn dir tr) (fun s a => s.Fits a.2) ?_ ?_ hfits
  · obtain ⟨readings, fs, hnew, hformat⟩ := h₀
    obtain ⟨free, ht⟩ := isTree_format hn hnew hformat
    refine ⟨_, ht, fun dir => ?_⟩
    -- there is only the root, and it is empty
    cases hnode : (Tree.init free).node dir with
    | none => exact Tree.listing_of_none hnode
    | some n =>
        obtain ⟨-, -, -, hmem⟩ := Tree.node_some hnode
        obtain rfl := List.mem_singleton.mp hmem
        exact Tree.listing_of_node hnode
  · rintro tr s ⟨junk, c⟩ s' ⟨t, ht, hlist⟩ hfit hstep
    obtain ⟨htyped, r, hcall⟩ := Fs.step_some hstep
    obtain ⟨t', ht', hlist'⟩ := isTree_fsCall ht htyped hfit hcall
    refine ⟨t', ht', fun dir => ?_⟩
    rw [hlist', hlist, createdIn_snoc dir tr hcall]

/-- What a listing that fits on one page reads. -/
theorem readsOnly_readdir (ht : IsTree CachedRel numBlocks s t) (junk : Page 512) {dir : Nat}
    {maxentries : Int} (hfit : s.Fits (.readdir dir maxentries)) :
    ∀ o ∈ ops Fs.handler (fsReaddir junk dir maxentries) s, s.ReadsOnly dir o := by
  have hpage := onePage_of_fits ht hfit
  have hshows := isTree_shows ht
  obtain ⟨A, hR, hrep, heq, -⟩ := ht
  have hwp : wp (readSpec A fun id => id = dir ∨ ∃ e ∈ s.dirEntries dir, e.2 = id) (fun _ => False)
      (fsReaddir junk dir maxentries) (fun _ _ => True) A.reader := by
    refine read_readdir hrep junk dir maxentries (fun id _ hid => ?_) hpage fun _ => trivial
    rcases hid with hid | ⟨es, hes, he⟩
    · exact Or.inl hid
    · rw [hshows.dir dir es hes]
      exact Or.inr he
  intro o ho
  have htouches := ops_sound (readSpec_sound cached_sound t heq _) readSpec_touches _
    ⟨A, hR, hrep, SameTree.refl A, fun _ _ hp => hp, rfl⟩ hwp o ho
  have hlists := (lists_readdir junk dir maxentries).ops o ho
  cases o with
  | icGet id => exact htouches
  | inode p => trivial
  | inodeBmap => trivial
  | dcRead dirid b page =>
      obtain rfl : dirid = dir := hlists
      obtain ⟨hknown, htype, hb⟩ := htouches
      have hle := (hrep.known dirid).mp hknown
      refine ⟨rfl, ?_⟩
      cases hnode : t.node dirid with
      | none =>
          rw [hrep.itype_of_none hle hnode] at htype
          cases htype
      | some n =>
          obtain ⟨i, hi⟩ := List.getElem?_of_mem hb
          have hlt := (List.getElem?_eq_some_iff.mp hi).1
          rw [(hrep.node dirid n hnode).blks, ← hshows.size dirid n hnode] at hlt
          have hsame := hR.blocks hrep heq ((hshows.used dirid).mpr hle) hlt
          rw [hi, Option.some.injEq] at hsame
          exact ⟨i, hlt, hsame.symm⟩
  | _ => exact hlists.elim

end

/-- In a run whose listings all fit on one page, `fs_readdir` lists what has been created in the
directory. -/
theorem readdir_lists {numBlocks : Nat} (hn : 10 ≤ numBlocks) {fs₀ s : Fs}
    (h₀ : JustFormatted numBlocks fs₀) {tr : List (Fs × (Page 512 × FsCall))}
    (hrun : Run Fs.step fs₀ tr s) (hfits : ∀ p ∈ tr, p.1.Fits p.2.2) {dir : Nat}
    (hused : s.Used dir) (htype : (s.inodeOf dir).itype = 1) (junk : Page 512) {maxentries : Int}
    (hmax : 0 ≤ maxentries) (hfit : s.Fits (.readdir dir maxentries)) :
    (createdIn dir tr).length = (s.inodeOf dir).size / 16 ∧
      (∃ s', run Fs.handler (fsReaddir junk dir maxentries) s =
        .ok ((0, some ((createdIn dir tr).take maxentries.toNat)), s')) ∧
      ∀ o ∈ ops Fs.handler (fsReaddir junk dir maxentries) s, s.ReadsOnly dir o := by
  obtain ⟨t, ht, hlist⟩ := isTree_createdIn hn h₀ hrun hfits
  have hshows := isTree_shows ht
  have hnode := hshows.node_dir hused htype
  obtain ⟨s', hrun', -⟩ := isTree_readdir ht junk hfit
  rw [Tree.readdir_eq hnode hmax, hlist] at hrun'
  refine ⟨?_, ⟨s', hrun'⟩, readsOnly_readdir ht junk hfit⟩
  rw [← hlist, Tree.listing_of_node hnode, List.length_map, hshows.size dir _ hnode]
  simp only [Node.entries, Node.size]
  omega

/-- Calls made on a file system that has just been formatted. -/
theorem run_of_formatted {numBlocks : Nat} {readings : Nat → Int}
    {acts : List (Page 512 × FsCall)} {α : Type}
    {f : List (Fs × (Page 512 × FsCall)) × Fs → Option α} {a : α}
    (h : (Fs.fsNew numBlocks readings >>= Fs.fsFormat).toOption.bind
      (fun fs₀ => (runTrace Fs.step fs₀ acts).bind f) = some a) :
    ∃ fs₀ tr s, JustFormatted numBlocks fs₀ ∧ Run Fs.step fs₀ tr s ∧ tr.map (·.2) = acts ∧
      f (tr, s) = some a := by
  obtain ⟨fs₀, hformatted, h⟩ := Option.bind_eq_some_iff.mp h
  obtain ⟨⟨tr, s⟩, htrace, h⟩ := Option.bind_eq_some_iff.mp h
  have hrun := run_of_runTrace acts Run.nil htrace
  refine ⟨fs₀, tr, s, ?_, hrun, runTrace_acts acts htrace, h⟩
  cases hnew : Fs.fsNew numBlocks readings with
  | error e =>
      rw [hnew] at hformatted
      cases hformatted
  | ok fs =>
      rw [hnew, except_ok_bind] at hformatted
      refine ⟨readings, fs, hnew, ?_⟩
      cases hformat : fs.fsFormat with
      | error e =>
          rw [hformat] at hformatted
          cases hformatted
      | ok fs' =>
          rw [hformat] at hformatted
          exact congrArg Except.ok (Option.some.inj hformatted)

set_option synthInstance.maxSize 1000 in
/-- A file and a directory in the root, which are then listed. -/
theorem readdir_lists_two_entries :
    ∃ fs₀ tr s, JustFormatted 12 fs₀ ∧ Run Fs.step fs₀ tr s ∧
      createdIn 1 tr = [([102], 2), ([100], 1)] ∧
      (∃ s', run Fs.handler (fsReaddir (fun _ => 0) 1 64) s =
        .ok ((0, some [([102], 2), ([100], 1)]), s')) ∧
      ∀ o ∈ ops Fs.handler (fsReaddir (fun _ => 0) 1 64) s, s.ReadsOnly 1 o := by
  have hfacts : (Fs.fsNew 12 (fun i => 7 * i) >>= Fs.fsFormat).toOption.bind (fun fs₀ =>
      (runTrace Fs.step fs₀ [(fun _ => 0, .call (.create 1 ⟨[102], by decide⟩)),
        (fun _ => 0, .call (.mkdir 1 ⟨[100], by decide⟩))]).bind fun x =>
          some (bmapIsset x.2.inodeBmap 1, (x.2.inodeOf 1).itype, (x.2.inodeOf 1).size,
            createdIn 1 x.1)) = some (true, 1, 32, [([102], 2), ([100], 1)]) := by
    decide +kernel
  obtain ⟨fs₀, tr, s, hformatted, hrun, hacts, hfacts⟩ := run_of_formatted hfacts
  simp only [Option.some.injEq, Prod.mk.injEq] at hfacts
  obtain ⟨hused, htype, hsize, hcreated⟩ := hfacts
  have hfits : ∀ p ∈ tr, p.1.Fits p.2.2 := by
    intro p hp
    have hmem := List.mem_map_of_mem (f := (·.2)) hp
    rw [hacts] at hmem
    simp only [List.mem_cons, List.not_mem_nil, or_false] at hmem
    rcases hmem with h | h <;> (rw [h]; trivial)
  obtain ⟨-, hlist, hops⟩ := readdir_lists (by decide) hformatted hrun hfits hused htype
    (fun _ => 0) (show 0 ≤ (64 : Int) by decide) (fun _ _ => by rw [hsize]; decide)
  rw [hcreated] at hlist
  exact ⟨fs₀, tr, s, hformatted, hrun, hcreated, hlist, hops⟩

/-- The files of a large directory have one letter as name. -/
def oneLetter (i : Fin 33) : CStr := ⟨[UInt8.ofNat (i + 65)], by revert i; decide⟩

/-- A file in the root for each letter. -/
def thirtyThreeFiles : List (Page 512 × FsCall) :=
  (List.finRange 33).map fun i => (fun _ => 0, .call (.create 1 (oneLetter i)))

set_option synthInstance.maxSize 1000 in
theorem thirtyThreeFiles_listed :
    (Fs.fsNew 12 (fun i => 7 * i) >>= Fs.fsFormat).toOption.bind (fun fs₀ =>
      (runTrace Fs.step fs₀ thirtyThreeFiles).bind fun x =>
        (run Fs.handler (fsReaddir (fun _ => 0) 1 64) x.2).toOption.map fun r =>
          (bmapIsset x.2.inodeBmap 1, (x.2.inodeOf 1).itype, (createdIn 1 x.1).length,
            (createdIn 1 x.1)[32]?, r.1.1, r.1.2.map (·[32]?))) =
      some (true, 1, 33, some ([97], 2), 0, some (some ([255, 15], 0))) := by
  decide +kernel

/-- With 33 files the entry of the last is read from block 0, through the slot of another inode. -/
theorem readdir_reads_block_zero :
    ∃ fs₀ tr s, JustFormatted 12 fs₀ ∧ Run Fs.step fs₀ tr s ∧ s.Used 1 ∧ (s.inodeOf 1).itype = 1 ∧
      (createdIn 1 tr).length = 33 ∧ (createdIn 1 tr)[32]? = some ([97], 2) ∧
      ∃ es s', run Fs.handler (fsReaddir (fun _ => 0) 1 64) s = .ok ((0, some es), s') ∧
        es[32]? = some ([255, 15], 0) := by
  obtain ⟨fs₀, tr, s, hformatted, hrun, -, hfacts⟩ := run_of_formatted thirtyThreeFiles_listed
  obtain ⟨r, hr, hfacts⟩ := Option.map_eq_some_iff.mp hfacts
  simp only [Prod.mk.injEq] at hfacts
  obtain ⟨hused, htype, hlen, hlast, hstatus, hentry⟩ := hfacts
  obtain ⟨es, hes, hentry⟩ := Option.map_eq_some_iff.mp hentry
  refine ⟨fs₀, tr, s, hformatted, hrun, hused, htype, hlen, hlast, es, r.2, ?_, hentry⟩
  cases hreaddir : run Fs.handler (fsReaddir (fun _ => 0) 1 64) s with
  | error e =>
      rw [hreaddir] at hr
      cases hr
  | ok x =>
      rw [hreaddir] at hr
      obtain rfl := Option.some.inj hr
      exact congrArg Except.ok (Prod.ext (Prod.ext hstatus hes) rfl)

end Sthreads.Snfs
