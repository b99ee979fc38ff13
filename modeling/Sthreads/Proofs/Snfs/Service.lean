/-
Every handler answers as the tree says.

The handlers that read are verified against what one reader knows, as the functions they
call are.  The others call a function that changes the tree, and `snfs_write` then asks for
the attributes of the file it has written.
-/
import Sthreads.Proofs.Snfs.Contents
import Sthreads.Snfs.Answers

namespace Sthreads.Snfs

open Prog Sthreads.Snfs.Tree

section

variable {A : View} {t : Tree} {G : Nat → Prop} {H : Halt → Prop} {r : Reader}

/-! ### Handlers that read -/

theorem read_dirEntries (es : List (List UInt8 × Nat)) {Q : List DirEntry → Reader → Prop}
    (htype : ∀ e ∈ es, e.2 = 1 ∨ e.2 = 2) (hq : Q (es.map DirEntry.of) r) :
    wp (readSpec A G) H (dirEntries es) Q r := by
  induction es generalizing Q with
  | nil => exact hq
  | cons e es ih =>
      have hone : ∀ {f : DirEntry → FsM (List DirEntry)}, wp (readSpec A G) H (f (.of e)) Q r →
          wp (readSpec A G) H (dirEntry e.1 e.2 >>= f) Q r := by
        intro f hf
        rw [dirEntry]
        rcases htype e List.mem_cons_self with h | h
        · rw [if_pos h]
          rw [DirEntry.of, h] at hf
          exact hf
        · rw [if_neg (by omega), if_pos h]
          rw [DirEntry.of, h] at hf
          exact hf
      rw [dirEntries]
      refine hone ?_
      rw [wp_bind (readSpec_mono A G)]
      exact ih (fun e' he' => htype e' (List.mem_cons_of_mem _ he')) hq

/-- What a listing has: a type for each entry, and no more entries than there are objects. -/
theorem Tree.readdir_some (hwf : t.WF) {dir : Nat} {maxentries status : Int}
    {entries : Option (List (List UInt8 × Nat))}
    (h : t.readdir dir maxentries = (status, entries)) :
    (status = 0 → ∃ es, entries = some es) ∧
      ∀ es, entries = some es → es.length ≤ 62 ∧ ∀ e ∈ es, e.2 = 1 ∨ e.2 = 2 := by
  rw [Tree.readdir] at h
  split at h
  · rename_i entries' hnode
    obtain ⟨-, -, -, hmem⟩ := Tree.node_some hnode
    split at h
    · obtain ⟨rfl, rfl⟩ := Prod.mk.inj h
      exact ⟨fun h => absurd h (by decide), fun es h => by cases h⟩
    · obtain ⟨rfl, rfl⟩ := Prod.mk.inj h
      refine ⟨fun _ => ⟨_, rfl⟩, fun es h => ?_⟩
      obtain rfl := Option.some.inj h
      refine ⟨?_, fun e he => ?_⟩
      · have hle := hwf.entries_le hmem
        simp only [Node.entries] at hle
        have hcount := hwf.count
        rw [List.length_map, List.length_take]
        omega
      · obtain ⟨e', he', rfl⟩ := List.mem_map.mp he
        obtain ⟨h1, h2⟩ := hwf.ids _ hmem e' (List.mem_of_mem_take he')
        dsimp only
        cases hn : t.node e'.2 with
        | none => rcases Tree.node_none hn with h | h <;> omega
        | some n =>
            cases n with
            | dir es => exact Or.inl rfl
            | file bytes => exact Or.inr rfl
  · obtain ⟨rfl, rfl⟩ := Prod.mk.inj h
    exact ⟨fun h => absurd h (by decide), fun es h => by cases h⟩

/-- What the handler of a lookup does with what `fs_lookup` found. -/
theorem Tree.answer_lookup {stack : Stack} {file : CStr} {found : Int} {fileid : Option Nat}
    (h : t.lookup file.chars = .ok (found, fileid)) :
    t.answer stack (.lookup file) = if found ≠ 1 then .ok none else do
      let (status, attrs) ← t.getAttrs (fileid.getD stack.fileid.toNat)
      if status ≠ 0 then return none
      return attrs.map fun a =>
        .lookup (UInt32.ofNat (fileid.getD stack.fileid.toNat)) (UInt32.ofNat a.size) := by
  rw [Tree.answer, h]
  rfl

/-- A handler that reads answers as the tree says. -/
theorem read_handler (hrep : Rep A t) (hG : ∀ id, id ≤ t.nodes.length → G id) (stack : Stack)
    {a : Args} (ha : a.IsRead) (hpage : a.OnePage t) :
    wp (readSpec A G) (fun e => t.answer stack a = .error e) (a.handler stack)
      (fun x _ => t.answer stack a = .ok x) r := by
  cases a with
  | ping => exact rfl
  | lookup file =>
      change wp _ _ (fsLookup stack.page file >>= _) _ r
      rw [wp_bind (readSpec_mono A G)]
      refine read_lookup hrep hG stack.page file (fun v hv r' => ?_) fun e he => ?_
      · obtain ⟨found, fileid⟩ := v
        rw [Tree.answer_lookup hv]
        dsimp only
        by_cases hfound : found ≠ 1
        · rw [if_pos hfound, if_pos hfound]
          exact rfl
        · rw [if_neg hfound, if_neg hfound, wp_bind (readSpec_mono A G)]
          refine read_getAttrs hrep hG _ (fun w hw r'' => ?_) fun e he => ?_
          · obtain ⟨status, attrs⟩ := w
            rw [hw, except_ok_bind]
            dsimp only
            by_cases hstatus : status ≠ 0
            · rw [if_pos hstatus, if_pos hstatus]
              exact rfl
            · rw [if_neg hstatus, if_neg hstatus]
              exact rfl
          · rw [he]
            rfl
      · rw [Tree.answer, he]
        rfl
  | read file offset count =>
      change wp _ _ (snfsRead stack file offset count) _ r
      rw [snfsRead, Tree.answer]
      by_cases hcount : count > 1024
      · rw [if_pos hcount, if_pos hcount]
        exact rfl
      · rw [if_neg hcount, if_neg hcount, wp_bind (readSpec_mono A G)]
        refine read_read hrep hG stack.page file offset count fun r' => ?_
        obtain ⟨status, nread, data⟩ := t.read file offset count
        dsimp only
        by_cases hstatus : status ≠ 0
        · rw [if_pos hstatus, if_pos hstatus]
          exact rfl
        · rw [if_neg hstatus, if_neg hstatus]
          exact rfl
  | readdir dir maxentries =>
      change wp _ _ (fsReaddir stack.page dir (asInt maxentries) >>= _) _ r
      rw [wp_bind (readSpec_mono A G), Tree.answer]
      refine read_readdir hrep stack.page dir (asInt maxentries) (fun id hle _ => hG id hle) hpage
        fun r' => ?_
      cases hdir : t.readdir dir (asInt maxentries) with
      | mk status entries =>
          obtain ⟨hsome, htypes⟩ := t.readdir_some hrep.wf hdir
          dsimp only
          by_cases hstatus : status ≠ 0
          · rw [if_pos hstatus, if_pos hstatus]
            exact rfl
          · obtain ⟨es, rfl⟩ := hsome (by omega)
            obtain ⟨hlen, htype⟩ := htypes es rfl
            rw [if_neg hstatus, if_neg hstatus, Option.getD_some, if_neg (by omega),
              wp_bind (readSpec_mono A G)]
            exact read_dirEntries es htype rfl
  | _ => exact ha.elim

end

/-! ### Every handler -/

section

variable {σ : Type} {h : Prog.Handler FsOp FsOp.Res Halt σ} {R : σ → View → Prop} {numBlocks : Nat}
  {s : σ} {t : Tree}

/-- A program that reads answers as the tree says, and leaves it. -/
theorem isTree_read (hs : Sound h spec R) (hf : Forgets R) (ht : IsTree R numBlocks s t)
    {α : Type} {p : FsM α} {x : Except Halt α}
    (hw : ∀ A r, Rep A t → wp (readSpec A (· ≤ t.nodes.length)) (fun e => x = .error e) p
      (fun a _ => x = .ok a) r) :
    (∃ a s', x = .ok a ∧ run h p s = .ok (a, s') ∧ IsTree R numBlocks s' t) ∨
      ∃ e, x = .error e ∧ run h p s = .error e := by
  obtain ⟨A, hR, hrep, heq, hnum⟩ := ht
  have hwp := wp_of_read p hrep (SameTree.refl A) heq (r := A.reader) ⟨fun _ _ hp => hp, rfl⟩
    (hw A A.reader hrep)
  rcases run_sound hs _ hR (wp_numBlocks _ hnum hwp) with
    ⟨a, s', A', hrun, hR', ⟨r', ha, -, hafter⟩, hnum'⟩ | ⟨e, hrun, he⟩
  · have hA' := hafter.after heq
    exact Or.inl ⟨a, s', ha, hrun, A'.forget, hf s' A' hR' hA'.forgettable, hA'.rep, rfl, hnum'⟩
  · exact Or.inr ⟨e, he, hrun⟩

/-- `fs_write` writes as the tree does. -/
theorem isTree_write (hs : Sound h spec R) (hf : Forgets R) (ht : IsTree R numBlocks s t)
    (junk : Page 512) (file offset : Nat) {count : Nat} (buffer : Nat → UInt8)
    (hend : ∀ bytes, t.node file = some (.file bytes) → min offset bytes.length + count < 2 ^ 32) :
    ∃ s', run h (fsWrite junk file offset count buffer) s =
        .ok ((t.write file offset count buffer).1, s') ∧
      IsTree R numBlocks s' (t.write file offset count buffer).2 := by
  obtain ⟨status, s', t', hrun, ⟨rfl, rfl⟩, hs'⟩ := isTree_run hs hf ht
    (T := fun x t' => x = (t.write file offset count buffer).1 ∧
      t' = (t.write file offset count buffer).2) fun A hrep heq =>
    wp_write hrep heq junk file offset buffer hend fun A' hA' _ => ⟨_, ⟨rfl, rfl⟩, hA'⟩
  exact ⟨s', hrun, hs'⟩

/-- `fs_create` and `fs_mkdir` create as the tree does. -/
theorem isTree_createOf (hs : Sound h spec R) (hf : Forgets R) (ht : IsTree R numBlocks s t)
    {new : Node} (hnew : new.size = 0) (junk : Page 512) (dir : Nat) (file : CStr) :
    ∃ s', run h (fsCreateOf new.itype junk dir file) s =
        .ok ((t.create new dir file.chars).1, s') ∧
      IsTree R numBlocks s' (t.create new dir file.chars).2 := by
  obtain ⟨res, s', t', hrun, ⟨rfl, rfl⟩, hs'⟩ := isTree_run hs hf ht
    (T := fun x t' => x = (t.create new dir file.chars).1 ∧
      t' = (t.create new dir file.chars).2) fun A hrep heq =>
    wp_createOf hrep heq hnew junk dir file fun A' hA' _ _ => ⟨_, ⟨rfl, rfl⟩, hA'⟩
  exact ⟨s', hrun, hs'⟩

/-- What a write does: it fails, and may use up the free blocks, or it overwrites the file. -/
theorem Tree.write_cases (file offset count : Nat) (buffer : Nat → UInt8) :
    (∃ free, t.write file offset count buffer = (-1, { t with free := free })) ∨
      ∃ bytes free, t.node file = some (.file bytes) ∧
        offsetToBlocks (min offset bytes.length + count) - offsetToBlocks bytes.length ≤
          10 - offsetToBlocks bytes.length ∧
        t.free = free + (offsetToBlocks (min offset bytes.length + count) -
          offsetToBlocks bytes.length) ∧
        t.write file offset count buffer = (0, { t with free := free }.setNode file
          (.file (overwrite bytes (min offset bytes.length) count buffer))) := by
  rw [Tree.write]
  split
  · rename_i bytes hnode
    dsimp only
    split
    · exact Or.inl ⟨t.free, rfl⟩
    · split
      · exact Or.inl ⟨0, rfl⟩
      · exact Or.inr ⟨bytes, _, hnode, by omega, by omega, rfl⟩
  · exact Or.inl ⟨t.free, rfl⟩

/-- What a creation does: it fails, and changes nothing, or it adds an entry and an object. -/
theorem Tree.create_cases (new : Node) (dir : Nat) (name : List UInt8) :
    (∃ fileid, t.create new dir name = ((-1, fileid), t)) ∨
      ∃ entries free, t.node dir = some (.dir entries) ∧ findEntry entries name = none ∧
        t.nodes.length + 1 < 64 ∧ free ≤ t.free ∧
        t.create new dir name = ((0, some (t.nodes.length + 1)), ⟨free,
          (t.setNode dir (.dir (entries ++ [(name, t.nodes.length + 1)]))).nodes ++ [new]⟩) := by
  rw [Tree.create]
  split
  · rename_i entries hdir
    split
    · exact Or.inl ⟨none, rfl⟩
    · split
      · rename_i id hfind
        exact Or.inl ⟨some id, rfl⟩
      · rename_i hfind
        dsimp only
        generalize (if entries.length % 32 = 0 then 1 else 0) = req
        split
        · exact Or.inl ⟨none, rfl⟩
        · exact Or.inr ⟨entries, t.free - req, hdir, hfind, by omega, by omega, rfl⟩
  · exact Or.inl ⟨none, rfl⟩

/-- Where a write has succeeded there is a file. -/
theorem Tree.write_file (file offset count : Nat) (buffer : Nat → UInt8)
    (h : (t.write file offset count buffer).1 = 0) :
    ∃ bytes, (t.write file offset count buffer).2.node file = some (.file bytes) := by
  rcases t.write_cases file offset count buffer with ⟨free, hw⟩ | ⟨bytes, free, hnode, -, -, hw⟩
  · rw [hw] at h
    cases h
  · obtain ⟨hpos, hle, -, -⟩ := Tree.node_some hnode
    rw [hw]
    exact ⟨_, (Tree.node_setNode hpos hle _ file).trans (if_pos rfl)⟩

/-- The answer and the state are those that the tree says. -/
def AsTree (R : σ → View → Prop) (numBlocks : Nat) (x : Except Halt (Option Results × Tree))
    (y : Except Halt (Option Results × σ)) : Prop :=
  (∃ r t' s', x = .ok (r, t') ∧ y = .ok (r, s') ∧ IsTree R numBlocks s' t') ∨
    ∃ e, x = .error e ∧ y = .error e

/-- A handler that creates an object. -/
theorem asTree_create (hs : Sound h spec R) (hf : Forgets R) (ht : IsTree R numBlocks s t)
    {new : Node} (hnew : new.size = 0) (junk : Page 512) (dir : Nat) (file : CStr)
    (f : UInt32 → Results) :
    AsTree R numBlocks
      (.ok (if (t.create new dir file.chars).1.1 ≠ 0 then none
        else (t.create new dir file.chars).1.2.map fun id => f (UInt32.ofNat id),
        (t.create new dir file.chars).2))
      (run h (do
        let (status, fileid) ← fsCreateOf new.itype junk dir file
        if status ≠ 0 then return none
        return fileid.map fun id => f (UInt32.ofNat id)) s) := by
  obtain ⟨s', hrun, hs'⟩ := isTree_createOf hs hf ht hnew junk dir file
  refine Or.inl ⟨_, _, s', rfl, ?_, hs'⟩
  rw [run_bind, hrun]
  dsimp only
  split
  · rfl
  · rfl

/-- A handler answers as the tree says, and leaves what the tree says. -/
theorem isTree_handler (hs : Sound h spec R) (hf : Forgets R) (ht : IsTree R numBlocks s t)
    (stack : Stack) {a : Args} (hpage : a.OnePage t) :
    AsTree R numBlocks (t.handler stack a) (run h (a.handler stack) s) := by
  have hread : a.IsRead → t.handler stack a = (t.answer stack a).map (fun r => (r, t)) →
      AsTree R numBlocks (t.handler stack a) (run h (a.handler stack) s) := by
    intro ha heq
    rcases isTree_read hs hf ht (p := a.handler stack) (x := t.answer stack a)
      (fun A r hrep => read_handler hrep (fun _ h => h) stack ha hpage) with
      ⟨x, s', hans, hrun, ht'⟩ | ⟨e, hans, hrun⟩
    · exact Or.inl ⟨x, t, s', by rw [heq, hans]; rfl, hrun, ht'⟩
    · exact Or.inr ⟨e, by rw [heq, hans]; rfl, hrun⟩
  cases a with
  | ping => exact hread trivial rfl
  | lookup file => exact hread trivial rfl
  | read file offset count => exact hread trivial rfl
  | readdir dir maxentries => exact hread trivial rfl
  | copy srcpath tgtpath => exact Or.inl ⟨none, t, s, rfl, rfl, ht⟩
  | create dir name => exact asTree_create hs hf ht rfl stack.page dir name .create
  | mkdir dir f => exact asTree_create hs hf ht rfl stack.page dir f .mkdir
  | write file offset count data =>
      rw [Args.handler, snfsWrite, Tree.handler]
      by_cases hcount : count > 1024
      · rw [if_pos hcount, if_pos hcount]
        exact Or.inl ⟨none, t, s, rfl, rfl, ht⟩
      · rw [if_neg hcount, if_neg hcount]
        obtain ⟨s', hrun, hs'⟩ := isTree_write hs hf ht stack.page file offset data
          ((isTree_wf ht).end_lt (Nat.le_of_not_lt hcount))
        have hfile := Tree.write_file (t := t) file offset count data
        rw [run_bind, hrun]
        generalize t.write file offset count data = w at hs' hfile ⊢
        obtain ⟨status, t'⟩ := w
        dsimp only at hs' hfile ⊢
        by_cases hzero : status ≠ 0
        · rw [if_pos hzero, if_pos hzero]
          exact Or.inl ⟨none, t', s', rfl, rfl, hs'⟩
        · -- the file is there, so its attributes are
          obtain ⟨bytes, hnode⟩ := hfile (by omega)
          obtain ⟨-, hle, -, -⟩ := Tree.node_some hnode
          have hattrs : t'.getAttrs file = .ok (0, some ⟨file, 2, bytes.length, -1⟩) := by
            rw [Tree.getAttrs, if_neg (by omega), hnode]
            rfl
          rw [if_neg hzero, if_neg hzero, run_bind, hnode]
          rcases isTree_read hs hf hs' (p := fsGetAttrs file) (x := t'.getAttrs file)
            (fun A r hrep => read_getAttrs hrep (fun _ h => h) file (fun v hv _ => hv)
              fun e he => he) with ⟨v, s'', hv, hrun', hs''⟩ | ⟨e, he, -⟩
          · rw [hattrs] at hv
            obtain rfl := Except.ok.inj hv
            rw [hrun']
            exact Or.inl ⟨_, t', s'', rfl, rfl, hs''⟩
          · rw [hattrs] at he
            cases he

end

end Sthreads.Snfs
