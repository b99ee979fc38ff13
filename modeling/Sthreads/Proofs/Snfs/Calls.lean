/-
Every call does what the tree says, and so does every sequence of calls.

A state of a file system is a tree if a view of it is.  Both file systems keep this, call
by call, with the same replies.
-/
import Sthreads.Proofs.Snfs.Creating
import Sthreads.Proofs.Snfs.Format

namespace Sthreads.Snfs

open Prog

/-- A call that changes the file system has succeeded. -/
def Reply.Updated : Reply → Prop
  | write status => status = 0
  | create status _ => status = 0
  | _ => False

section

variable {A : View} {t : Tree}

theorem AfterRead.after {G : Nat → Prop} {A A' : View} (h : AfterRead t G A A')
    (heq : A.ino = A.tab) : After A' t := by
  refine After.of_rep h.rep ?_
  rw [h.same.2.2.2.2.1, h.same.2.2.2.2.2.1]
  exact heq

/-- A call that reads. -/
theorem wp_readCall {α : Type} {H : Halt → Prop} (hrep : Rep A t) (heq : A.ino = A.tab)
    {p : FsM α} {P : α → Prop}
    (h : wp (readSpec A (· ≤ t.nodes.length)) H p (fun a _ => P a) A.reader) {f : α → Reply}
    {Q : Reply → View → Prop} (hq : ∀ a, P a → ∀ A', After A' t → Q (f a) A') :
    wp spec H (p >>= fun a => pure (f a)) Q A :=
  wp_reads hrep heq h fun a ha A' hA' => hq a ha A' (hA'.after heq)

/-- A call does what the tree says. -/
theorem wp_call (hrep : Rep A t) (heq : A.ino = A.tab) {c : Call} (hok : c.Ok) (junk : Page 512) :
    wp spec (fun e => t.call c = .error e) (c.prog junk)
      (fun r A' => ∃ t', t.call c = .ok (r, t') ∧ After A' t' ∧ (r.Updated → A'.stored = true))
      A := by
  have hG : ∀ id, id ≤ t.nodes.length → id ≤ t.nodes.length := fun _ h => h
  cases c with
  | getAttrs file =>
      refine wp_readCall (P := fun v => t.getAttrs file = .ok v) hrep heq
        (read_getAttrs hrep hG file (fun v hv _ => hv) fun e he => ?_) fun v hv A' hA' =>
          ⟨t, ?_, hA', False.elim⟩
      · rw [Tree.call, he]
        rfl
      · rw [Tree.call, hv]
        rfl
  | lookup file =>
      refine wp_readCall (P := fun v => t.lookup file.chars = .ok v) hrep heq
        (read_lookup hrep hG junk file (fun v hv _ => hv) fun e he => ?_) fun v hv A' hA' =>
          ⟨t, ?_, hA', False.elim⟩
      · rw [Tree.call, he]
        rfl
      · rw [Tree.call, hv]
        rfl
  | read file offset count =>
      refine wp_readCall (P := (· = t.read file offset count)) hrep heq
        (read_read hrep hG junk file offset count fun _ => rfl) ?_
      rintro _ rfl A' hA'
      exact ⟨t, rfl, hA', False.elim⟩
  | write file offset count buffer =>
      change wp spec _ (fsWrite junk file offset count buffer >>= _) _ A
      rw [wp_bind spec_mono]
      exact wp_write hrep heq junk file offset buffer (hrep.wf.end_lt hok) fun A' hA' hst =>
        ⟨_, rfl, hA', hst⟩
  | create dir file =>
      change wp spec _ (fsCreateOf (Node.file []).itype junk dir file >>= _) _ A
      rw [wp_bind spec_mono]
      exact wp_createOf hrep heq rfl junk dir file fun A' hA' hst _ => ⟨_, rfl, hA', hst⟩
  | mkdir dir newdir =>
      change wp spec _ (fsCreateOf (Node.dir []).itype junk dir newdir >>= _) _ A
      rw [wp_bind spec_mono]
      exact wp_createOf hrep heq rfl junk dir newdir fun A' hA' hst _ => ⟨_, rfl, hA', hst⟩

end

/-! ### States -/

/-- The state is this tree, over so many blocks. -/
def IsTree {σ : Type} (R : σ → View → Prop) (numBlocks : Nat) (s : σ) (t : Tree) : Prop :=
  ∃ A, R s A ∧ Rep A t ∧ A.ino = A.tab ∧ A.numBlocks = numBlocks

/-- What the view has forgotten, the state need not know. -/
def Forgets {σ : Type} (R : σ → View → Prop) : Prop :=
  ∀ s A, R s A → A.Forgettable → R s A.forget

theorem cached_forgets : Forgets CachedRel := by
  intro s A h hle
  refine ⟨h.numBlocks, h.low, h.inodeBmap, h.blkBmap, h.strtokRest, h.known, ?_, h.ptr, h.pages,
    h.stored⟩
  exact h.inodes.mono (fun _ hk => hk) (fun id _ _ hv => hv.mono (hle id)) (fun _ _ _ hv => hv)
    (fun _ hk hk' => absurd hk hk')

theorem plain_forgets : Forgets PlainRel := by
  intro s A h hle
  exact ⟨h.numBlocks, h.wild, h.low, h.inodeBmap, h.blkBmap, h.strtokRest, h.known,
    fun id hid => (h.inodes id hid).mono (hle id), h.ptr, h.pages⟩

section

variable {σ : Type} {h : Prog.Handler FsOp FsOp.Res Halt σ} {R : σ → View → Prop} {numBlocks : Nat}
  {s : σ} {t : Tree}

theorem isTree_wf (ht : IsTree R numBlocks s t) : t.WF := by
  obtain ⟨A, -, hrep, -, -⟩ := ht
  exact hrep.wf

/-- A program that always returns leaves a tree. -/
theorem isTree_run (hs : Sound h spec R) (hf : Forgets R) (ht : IsTree R numBlocks s t)
    {α : Type} {p : FsM α} {T : α → Tree → Prop}
    (hw : ∀ A, Rep A t → A.ino = A.tab →
      wp spec (fun _ => False) p (fun a A' => ∃ t', T a t' ∧ After A' t') A) :
    ∃ a s' t', run h p s = .ok (a, s') ∧ T a t' ∧ IsTree R numBlocks s' t' := by
  obtain ⟨A, hR, hrep, heq, hnum⟩ := ht
  rcases run_sound hs _ hR (wp_numBlocks _ hnum (hw A hrep heq)) with
    ⟨a, s', A', hrun, hR', ⟨t', hT, hafter⟩, hnum'⟩ | ⟨e, -, hno⟩
  · exact ⟨a, s', t', hrun, hT, A'.forget, hf s' A' hR' hafter.forgettable, hafter.rep, rfl, hnum'⟩
  · exact hno.elim

/-- A call leaves a tree, the one that the call makes of it. -/
theorem isTree_call (hs : Sound h spec R) (hf : Forgets R) (ht : IsTree R numBlocks s t)
    {c : Call} (hok : c.Ok) (junk : Page 512) :
    (∃ r t' s', t.call c = .ok (r, t') ∧ run h (c.prog junk) s = .ok (r, s') ∧
      IsTree R numBlocks s' t' ∧
      (r.Updated → ∃ A, R s' A ∧ Rep A t' ∧ A.ino = A.tab ∧ A.stored = true)) ∨
      ∃ e, t.call c = .error e ∧ run h (c.prog junk) s = .error e := by
  obtain ⟨A, hR, hrep, heq, hnum⟩ := ht
  rcases run_sound hs _ hR (wp_numBlocks _ hnum (wp_call hrep heq hok junk)) with
    ⟨r, s', A', hrun, hR', ⟨t', hcall, hafter, hst⟩, hnum'⟩ | ⟨e, hrun, hcall⟩
  · have hforget := hf s' A' hR' hafter.forgettable
    exact Or.inl ⟨r, t', s', hcall, hrun, ⟨A'.forget, hforget, hafter.rep, rfl, hnum'⟩,
      fun hr => ⟨A'.forget, hforget, hafter.rep, rfl, hst hr⟩⟩
  · exact Or.inr ⟨e, hcall, hrun⟩

/-- The replies of a sequence of calls, and whether it ends. -/
def Tree.runCalls (t : Tree) : List Call → List Reply × Except Halt Unit
  | [] => ([], .ok ())
  | c :: rest =>
      match t.call c with
      | .ok (r, t') =>
          let (replies, e) := t'.runCalls rest
          (r :: replies, e)
      | .error e => ([], .error e)

/-- A sequence of calls is answered as the tree says. -/
theorem isTree_outcome (hs : Sound h spec R) (hf : Forgets R) {calls : List Call} :
    ∀ {s : σ} {t : Tree} (junk : Nat → Page 512), IsTree R numBlocks s t →
      (∀ c ∈ calls, c.Ok) → outcome h junk calls s = t.runCalls calls := by
  induction calls with
  | nil => exact fun _ _ _ => rfl
  | cons c rest ih =>
      intro s t junk ht hok
      have hrest : ∀ c ∈ rest, c.Ok := fun c hc => hok c (List.mem_cons_of_mem _ hc)
      rw [outcome, runCalls, Tree.runCalls]
      rcases isTree_call hs hf ht (hok c List.mem_cons_self) (junk 0) with
        ⟨r, t', s', hcall, hrun, ht', -⟩ | ⟨e, hcall, hrun⟩
      · have hnext := ih (fun i => junk (i + 1)) ht' hrest
        rw [hcall, hrun]
        dsimp only
        rw [← hnext]
        rfl
      · rw [hcall, hrun]
        rfl

end

/-! ### From a new file system -/

/-- A new file system is an empty tree, in both. -/
theorem isTree_fresh {numBlocks : Nat} (hn : 10 ≤ numBlocks) {st : Store}
    (h : Store.fresh numBlocks = .ok st) (readings : Nat → Int) :
    ∃ free, IsTree CachedRel numBlocks (Fs.empty st readings) (Tree.init free) ∧
      IsTree PlainRel numBlocks ⟨st, []⟩ (Tree.init free) := by
  obtain ⟨st₀, hst₀, rfl⟩ := fresh_formatted hn h
  have hplain := fresh_plainRel hst₀
  have hrep := fresh_rep hst₀
  have hst := Store.storeBlocks_stored st₀ fun b hb => hst₀.has b (Or.inl hb)
  generalize st₀.storeBlocks = st at hplain hrep hst ⊢
  have hnum : (View.fresh st).numBlocks = numBlocks := hst.same.2.2.2.1.trans hst₀.count
  exact ⟨_, ⟨View.fresh st, hplain.empty rfl (fun _ => rfl) rfl readings, hrep, rfl, hnum⟩,
    ⟨View.fresh st, hplain, hrep, rfl, hnum⟩⟩

/-- What `fs_format` makes of a new file system. -/
theorem isTree_format {numBlocks : Nat} (hn : 10 ≤ numBlocks) {readings : Nat → Int} {fs fs' : Fs}
    (hnew : Fs.fsNew numBlocks readings = .ok fs) (hformat : fs.fsFormat = .ok fs') :
    ∃ free, IsTree CachedRel numBlocks fs' (Tree.init free) := by
  have hfresh := fresh_cached numBlocks readings
  rw [hnew, except_ok_bind, hformat] at hfresh
  cases hst : Store.fresh numBlocks with
  | error e =>
      rw [hst] at hfresh
      cases hfresh
  | ok st =>
      rw [hst] at hfresh
      obtain ⟨free, hfree, -⟩ := isTree_fresh hn hst readings
      exact ⟨free, Except.ok.inj hfresh ▸ hfree⟩

/-- Every state that is reached is a tree. -/
theorem Reached.isTree {numBlocks : Nat} (hn : 10 ≤ numBlocks) {s : Fs}
    (h : Reached numBlocks s) : ∃ t, IsTree CachedRel numBlocks s t := by
  induction h with
  | format hnew hformat =>
      obtain ⟨free, hfree⟩ := isTree_format hn hnew hformat
      exact ⟨Tree.init free, hfree⟩
  | call _ hok hcall ih =>
      obtain ⟨t, ht⟩ := ih
      rcases isTree_call cached_sound cached_forgets ht hok _ with
        ⟨r, t', s', -, hrun, ht', -⟩ | ⟨e, -, hrun⟩
      · rw [hrun] at hcall
        obtain ⟨-, rfl⟩ := Prod.mk.inj (Except.ok.inj hcall)
        exact ⟨t', ht'⟩
      · rw [hrun] at hcall
        cases hcall

theorem Reached.runCalls {numBlocks : Nat} {calls : List Call} (hok : ∀ c ∈ calls, c.Ok) :
    ∀ {junk : Nat → Page 512} {s s' : Fs}, Reached numBlocks s →
      (Snfs.runCalls Fs.handler junk calls s).2 = .ok s' → Reached numBlocks s' := by
  induction calls with
  | nil =>
      intro junk s s' hs h
      exact Except.ok.inj h ▸ hs
  | cons c rest ih =>
      intro junk s s' hs h
      rw [Snfs.runCalls] at h
      cases hrun : run Fs.handler (c.prog (junk 0)) s with
      | error e =>
          rw [hrun] at h
          cases h
      | ok p =>
          rw [hrun] at h
          exact ih (fun c hc => hok c (List.mem_cons_of_mem _ hc))
            (hs.call (hok c List.mem_cons_self) hrun) h

/-- What a session ends in is reached. -/
theorem Reached.session {numBlocks : Nat} {readings : Nat → Int} {junk : Nat → Page 512}
    {calls : List Call} {s : Fs} (hok : ∀ c ∈ calls, c.Ok)
    (h : Fs.session numBlocks readings junk calls = .ok s) : Reached numBlocks s := by
  obtain ⟨fs, hnew, h⟩ := except_bind_ok h
  obtain ⟨fs', hformat, h⟩ := except_bind_ok h
  exact (Reached.format hnew hformat).runCalls hok h

/-- The caches are invisible: after `fs_new` and `fs_format` every sequence of calls is answered as
it is without them, and ends as it does without them. -/
theorem cache_transparency (numBlocks : Nat) (hn : 10 ≤ numBlocks) (readings : Nat → Int)
    (junk junk' : Nat → Page 512) (calls : List Call) (hok : ∀ c ∈ calls, c.Ok) :
    (Fs.fsNew numBlocks readings >>= Fs.fsFormat).map (outcome Fs.handler junk calls) =
      (Plain.fsNew numBlocks >>= Plain.fsFormat).map (outcome Plain.handler junk' calls) := by
  rw [fresh_cached, fresh_plain]
  cases hst : Store.fresh numBlocks with
  | error e => rfl
  | ok st =>
      obtain ⟨free, hcached, hplain⟩ := isTree_fresh hn hst readings
      have h1 := isTree_outcome cached_sound cached_forgets junk hcached hok
      have h2 := isTree_outcome plain_sound plain_forgets junk' hplain hok
      exact congrArg Except.ok (h1.trans h2.symm)

/-- Twelve blocks, and a file that is created, written, read and looked up. -/
theorem cache_transparency_twelve_blocks :
    (Fs.fsNew 12 (fun i => 7 * i) >>= Fs.fsFormat).map (outcome Fs.handler (fun _ _ => 0)
      [.create 1 ⟨[102], by decide⟩, .write 2 0 3 (fun _ => 65), .read 2 1 5,
        .lookup ⟨[47, 102], by decide⟩]) =
      .ok ([.create 0 (some 2), .write 0, .read 0 (some 2) [65, 65], .lookup 1 (some 2)], .ok ())
    := by
  rw [cache_transparency 12 (by decide) _ _ (fun _ _ => 1) _ (by simp [Call.Ok])]
  decide +kernel

end Sthreads.Snfs
