/-
What requests do to the tree of a server.

Objects stay, and a directory only gets entries of new objects behind those it has.  So
what a path leads to it leads to for good.  This is said of runs in which each listing
takes one page; what `fs_readdir` does beyond that is not followed here.
-/
import Sthreads.Proofs.Snfs.Exits

namespace Sthreads.Snfs

open Prog

/-! ### Growing -/

/-- Objects stay, and the entries of those that were there are the ones that were there. -/
structure Tree.Grows (t t' : Tree) : Prop where
  length : t.nodes.length ≤ t'.nodes.length
  node : ∀ id n, t.node id = some n →
    ∃ n', t'.node id = some n' ∧ n'.itype = n.itype ∧ n.entries <+: n'.entries
  old : ∀ id n, t'.node id = some n → ∀ e ∈ n.entries, e.2 ≤ t.nodes.length →
    ∃ m, t.node id = some m ∧ e ∈ m.entries

namespace Tree

variable {t t' t'' : Tree}

theorem Grows.refl (t : Tree) : t.Grows t :=
  ⟨Nat.le_refl _, fun _ n hn => ⟨n, hn, rfl, List.prefix_refl _⟩, fun _ n hn _ he _ => ⟨n, hn, he⟩⟩

theorem Grows.trans (h : t.Grows t') (h' : t'.Grows t'') : t.Grows t'' := by
  refine ⟨h.length.trans h'.length, fun id n hn => ?_, fun id n hn e he hle => ?_⟩
  · obtain ⟨n', hn', htype, hpre⟩ := h.node id n hn
    obtain ⟨n'', hn'', htype', hpre'⟩ := h'.node id n' hn'
    exact ⟨n'', hn'', htype'.trans htype, hpre.trans hpre'⟩
  · obtain ⟨m, hm, hem⟩ := h'.old id n hn e he (hle.trans h.length)
    exact h.old id m hm e hem hle

/-- Only the number of free blocks changes. -/
theorem grows_free (free : Nat) : t.Grows { t with free := free } :=
  ⟨Nat.le_refl _, fun _ n hn => ⟨n, hn, rfl, List.prefix_refl _⟩, fun _ n hn _ he _ => ⟨n, hn, he⟩⟩

/-- A file gets other bytes. -/
theorem grows_setFile {file : Nat} {bytes : List UInt8} (h : t.node file = some (.file bytes))
    (bytes' : List UInt8) : t.Grows (t.setNode file (.file bytes')) := by
  obtain ⟨hpos, hle, -, -⟩ := node_some h
  have hnode := node_setNode hpos hle (.file bytes')
  refine ⟨(setNode_length ..).ge, fun id n hn => ?_, fun id n hn e he _ => ?_⟩
  · rw [hnode]
    by_cases hid : id = file
    · rw [hid, h] at hn
      obtain rfl := Option.some.inj hn
      rw [if_pos hid]
      exact ⟨_, rfl, rfl, List.prefix_refl _⟩
    · rw [if_neg hid]
      exact ⟨n, hn, rfl, List.prefix_refl _⟩
  · rw [hnode] at hn
    by_cases hid : id = file
    · rw [if_pos hid] at hn
      obtain rfl := Option.some.inj hn
      cases he
    · rw [if_neg hid] at hn
      exact ⟨n, hn, he⟩

/-- An object is created. -/
theorem grows_created {dir : Nat} {es : List (List UInt8 × Nat)}
    (hdir : t.node dir = some (.dir es)) (name : List UInt8) (free : Nat) {new : Node}
    (hnew : new.entries = []) :
    t.Grows ⟨free, (t.setNode dir (.dir (es ++ [(name, t.nodes.length + 1)]))).nodes ++ [new]⟩ := by
  obtain ⟨hpos, hle, -, -⟩ := node_some hdir
  have hnode := node_created hpos hle free (.dir (es ++ [(name, t.nodes.length + 1)])) new
  refine ⟨?_, fun id n hn => ?_, fun id n hn e he hold => ?_⟩
  · simp [setNode_length]
  · obtain ⟨-, hlast, -, -⟩ := node_some hn
    rw [hnode, if_neg (by omega)]
    by_cases hid : id = dir
    · rw [hid, hdir] at hn
      obtain rfl := Option.some.inj hn
      rw [if_pos hid]
      exact ⟨_, rfl, rfl, List.prefix_append _ _⟩
    · rw [if_neg hid]
      exact ⟨n, hn, rfl, List.prefix_refl _⟩
  · rw [hnode] at hn
    by_cases hlast : id = t.nodes.length + 1
    · rw [if_pos hlast] at hn
      obtain rfl := Option.some.inj hn
      rw [hnew] at he
      cases he
    · rw [if_neg hlast] at hn
      by_cases hid : id = dir
      · rw [if_pos hid] at hn
        obtain rfl := Option.some.inj hn
        rcases List.mem_append.mp he with he | he
        · exact ⟨.dir es, hid ▸ hdir, he⟩
        · rw [List.mem_singleton.mp he] at hold
          exact absurd hold (by simp)
      · rw [if_neg hid] at hn
        exact ⟨n, hn, he⟩

/-- What a handler can make of the tree. -/
inductive Handled (t : Tree) : Args → Tree → Prop
  | same (a : Args) : Handled t a t
  | wrote (file offset count : Nat) (data : Nat → UInt8) :
      Handled t (.write file offset count data) (t.write file offset count data).2
  | created (a : Args) {new : Node} (hnew : new.entries = []) (dir : Nat) (name : List UInt8) :
      Handled t a (t.create new dir name).2

theorem handled {stack : Stack} {a : Args} {r : Option Results}
    (h : t.handler stack a = .ok (r, t')) : t.Handled a t' := by
  have reads : ∀ x : Except Halt (Option Results), x.map (fun r => (r, t)) = .ok (r, t') →
      t.Handled a t' := by
    intro x hx
    cases x with
    | error e => cases hx
    | ok r' =>
        obtain ⟨-, rfl⟩ := Prod.mk.inj (Except.ok.inj hx)
        exact .same a
  cases a with
  | ping => exact reads (t.answer stack .ping) h
  | lookup file => exact reads (t.answer stack (.lookup file)) h
  | read file offset count => exact reads (t.answer stack (.read file offset count)) h
  | readdir dir maxentries => exact reads (t.answer stack (.readdir dir maxentries)) h
  | copy srcpath tgtpath => exact reads (t.answer stack (.copy srcpath tgtpath)) h
  | create dir name =>
      obtain rfl := (Prod.mk.inj (Except.ok.inj h)).2
      exact .created _ rfl dir name.chars
  | mkdir dir f =>
      obtain rfl := (Prod.mk.inj (Except.ok.inj h)).2
      exact .created _ rfl dir f.chars
  | write file offset count data =>
      rw [Tree.handler] at h
      split at h
      · obtain ⟨-, rfl⟩ := Prod.mk.inj (Except.ok.inj h)
        exact .same _
      · obtain ⟨-, rfl⟩ := Prod.mk.inj (Except.ok.inj h)
        exact .wrote file offset count data

/-- What a handler leaves has grown. -/
theorem grows_handler {stack : Stack} {a : Args} {r : Option Results}
    (h : t.handler stack a = .ok (r, t')) : t.Grows t' := by
  cases handled h with
  | same => exact Grows.refl t
  | created a hnew dir name =>
      rcases t.create_cases _ dir name with ⟨fileid, hc⟩ | ⟨es, free, hdir, -, -, -, hc⟩
      · rw [hc]
        exact Grows.refl t
      · rw [hc]
        exact grows_created hdir name free hnew
  | wrote file offset count data =>
      rcases t.write_cases file offset count data with
        ⟨free, hw⟩ | ⟨bytes, free, hnode, -, -, hw⟩
      · rw [hw]
        exact grows_free free
      · rw [hw]
        exact (grows_free free).trans (grows_setFile (t := { t with free := free }) hnode _)

/-! ### Paths -/

/-- What names lead to they lead to for good. -/
theorem Grows.walk (h : t.Grows t') {names : List (List UInt8)} {dir : Nat} {last r : Option Nat}
    (hwalk : t.walk dir last names = (1, r)) : t'.walk dir last names = (1, r) := by
  induction names generalizing dir last with
  | nil => exact hwalk
  | cons name rest ih =>
      rw [Tree.walk] at hwalk ⊢
      split at hwalk
      · rename_i es hdir
        obtain ⟨n', hn', htype, hpre⟩ := h.node dir _ hdir
        cases n' with
        | file bytes => cases htype
        | dir es' =>
            rw [hn']
            dsimp only at hwalk ⊢
            obtain ⟨more, hmore⟩ := hpre
            simp only [Node.entries] at hmore
            split at hwalk
            · cases (Prod.mk.inj hwalk).1
            · rename_i id hfind
              rw [← hmore, findEntry_append, hfind]
              exact ih hwalk
      · cases (Prod.mk.inj hwalk).1

/-- What names lead to is an object that one of them names. -/
theorem walk_mem {names : List (List UInt8)} (hne : names ≠ []) {dir : Nat} {last : Option Nat}
    {id : Nat} (hwalk : t.walk dir last names = (1, some id)) :
    ∃ name ∈ names, ∃ d es, t.node d = some (.dir es) ∧ (name, id) ∈ es := by
  induction names generalizing dir last with
  | nil => exact absurd rfl hne
  | cons name rest ih =>
      rw [Tree.walk] at hwalk
      split at hwalk
      · rename_i es hdir
        split at hwalk
        · cases (Prod.mk.inj hwalk).1
        · rename_i next hfind
          by_cases hrest : rest = []
          · rw [hrest, Tree.walk] at hwalk
            obtain rfl := Option.some.inj (Prod.mk.inj hwalk).2
            exact ⟨name, List.mem_cons_self, dir, es, hdir, findEntry_some hfind⟩
          · obtain ⟨name', hmem, hfound⟩ := ih hrest hwalk
            exact ⟨name', List.mem_cons_of_mem _ hmem, hfound⟩
      · cases (Prod.mk.inj hwalk).1

/-- Names that lead from where others have led. -/
theorem walk_append {names rest : List (List UInt8)} {dir d : Nat} {last : Option Nat}
    (hwalk : t.walk dir last names = (1, some d)) (hne : names ≠ []) :
    t.walk dir last (names ++ rest) = t.walk d (some d) rest := by
  induction names generalizing dir last with
  | nil => exact absurd rfl hne
  | cons name names ih =>
      rw [List.cons_append, Tree.walk]
      rw [Tree.walk] at hwalk
      split at hwalk
      · split at hwalk
        · cases (Prod.mk.inj hwalk).1
        · by_cases hnames : names = []
          · rw [hnames, Tree.walk] at hwalk
            obtain rfl := Option.some.inj (Prod.mk.inj hwalk).2
            rw [hnames, List.nil_append]
          · exact ih hwalk hnames
      · cases (Prod.mk.inj hwalk).1

end Tree

/-! ### Runs -/

/-- A listing that is asked for takes one page. -/
def ServerState.OnePage : ServerState → Stack × Req → Prop
  | .up fs, (_, req) => ∀ a, Args.ofReq req = some a → fs.OnePage a
  | .ended _, _ => True

/-- Only `REQ_READDIR` asks for a listing. -/
theorem ServerState.onePage_of_type (s : ServerState) (stack : Stack) {req : Req}
    (h : req.type ≠ 7) : s.OnePage (stack, req) := by
  cases s with
  | ended e => trivial
  | up fs =>
      intro a ha
      unfold Args.ofReq at ha
      split at ha
      case h_7 htype => exact absurd htype h
      case h_9 => cases ha
      all_goals
        obtain rfl := Option.some.inj ha
        trivial

section

variable {numBlocks : Nat} {fs fs' : Fs} {t : Tree}

/-- A request that is answered leaves what the tree says. -/
theorem isTree_serve (ht : IsTree CachedRel numBlocks fs t) {stack : Stack} {req : Req} {a : Args}
    (hargs : Args.ofReq req = some a) (hpage : fs.OnePage a) {res : Res × Nat}
    (hrun : run Fs.handler (serve stack req) fs = .ok (res, fs')) :
    ∃ r t', t.handler stack a = .ok (r, t') ∧ IsTree CachedRel numBlocks fs' t' ∧
      res = ({ (respond a r).1 with sn := req.sn }, (respond a r).2) := by
  rw [serve, hargs] at hrun
  dsimp only at hrun
  obtain ⟨r, fs₁, hcall, hrest⟩ := run_bind_ok hrun
  obtain ⟨rfl, rfl⟩ := Prod.mk.inj (Except.ok.inj hrest)
  rcases isTree_handler cached_sound cached_forgets ht stack (hpage.tree ht) with
    ⟨r', t', fs₂, htree, hrun', ht'⟩ | ⟨e, -, herr⟩
  · rw [hcall] at hrun'
    obtain ⟨rfl, rfl⟩ := Prod.mk.inj (Except.ok.inj hrun')
    exact ⟨r, t', htree, ht', rfl⟩
  · rw [hcall] at herr
    cases herr

theorem isTree_step (ht : IsTree CachedRel numBlocks fs t) {stack : Stack} {req : Req}
    (hpage : ∀ a, Args.ofReq req = some a → fs.OnePage a)
    (hstep : (ServerState.up fs).step (stack, req) = some (.up fs')) :
    ∃ t', IsTree CachedRel numBlocks fs' t' ∧ t.Grows t' := by
  rw [ServerState.step] at hstep
  split at hstep
  · rename_i res fs₁ hrun
    obtain rfl := ServerState.up.inj (Option.some.inj hstep)
    cases hargs : Args.ofReq req with
    | none =>
        rw [serve, hargs] at hrun
        obtain ⟨-, rfl⟩ := Prod.mk.inj (Except.ok.inj hrun)
        exact ⟨t, ht, Tree.Grows.refl t⟩
    | some a =>
        obtain ⟨r, t', htree, ht', -⟩ := isTree_serve ht hargs (hpage a hargs) hrun
        exact ⟨t', ht', Tree.grows_handler htree⟩
  · cases Option.some.inj hstep

/-- A run leaves a tree that has grown. -/
theorem isTree_run_server (ht : IsTree CachedRel numBlocks fs t)
    {tr : List (ServerState × (Stack × Req))} (hrun : Run ServerState.step (.up fs) tr (.up fs'))
    (hpages : ∀ p ∈ tr, p.1.OnePage p.2) :
    ∃ t', IsTree CachedRel numBlocks fs' t' ∧ t.Grows t' := by
  refine hrun.invariant_of
    (fun s => ∀ fs', s = .up fs' → ∃ t', IsTree CachedRel numBlocks fs' t' ∧ t.Grows t')
    ServerState.OnePage ?_ ?_ hpages fs' rfl
  · rintro fs₁ hfs
    obtain rfl := ServerState.up.inj hfs
    exact ⟨t, ht, Tree.Grows.refl t⟩
  · rintro s ⟨stack, req⟩ s' hs hpage hstep fs₁ rfl
    cases s with
    | ended e => cases hstep
    | up fs₂ =>
        obtain ⟨t₂, ht₂, hgrows⟩ := hs fs₂ rfl
        obtain ⟨t', ht', hgrows'⟩ := isTree_step ht₂ hpage hstep
        exact ⟨t', ht', hgrows.trans hgrows'⟩

/-- A server that has been started and has listed no directory of more than a page is a tree. -/
theorem isTree_server (hn : 10 ≤ numBlocks) {readings : Nat → Int} {s₀ : ServerState}
    (hinit : snfsInit numBlocks readings = .ok s₀) {tr : List (ServerState × (Stack × Req))}
    (hrun : Run ServerState.step s₀ tr (.up fs)) (hpages : ∀ p ∈ tr, p.1.OnePage p.2) :
    ∃ t, IsTree CachedRel numBlocks fs t := by
  obtain ⟨fs₀, hnew, hinit⟩ := except_bind_ok hinit
  obtain ⟨fs₁, hformat, hinit⟩ := except_bind_ok hinit
  obtain rfl := Except.ok.inj hinit
  obtain ⟨free, ht⟩ := isTree_format hn hnew hformat
  obtain ⟨t, ht, -⟩ := isTree_run_server ht hrun hpages
  exact ⟨t, ht⟩

/-- `fs_lookup` finds what the tree finds. -/
theorem isTree_lookup (ht : IsTree CachedRel numBlocks fs t) (junk : Page 512) {file : CStr}
    (hhead : file.chars.head? = some slash) (hlen : file.chars.length < 200) :
    ∃ fs', run Fs.handler (fsLookup junk file) fs = .ok (t.walk 1 none (tokens file.chars), fs') := by
  have hval : t.lookup file.chars = .ok (t.walk 1 none (tokens file.chars)) := by
    rw [Tree.lookup, if_neg (by simpa using hhead), if_neg (by omega)]
  rcases isTree_read cached_sound cached_forgets ht (x := t.lookup file.chars)
    (p := fsLookup junk file) (fun A r hrep => read_lookup hrep (fun _ hid => hid) junk file
      (fun v hv _ => hv) fun e he => he) with ⟨v, fs', hv, hrun, -⟩ | ⟨e, he, -⟩
  · rw [hval] at hv
    obtain rfl := Except.ok.inj hv
    exact ⟨fs', hrun⟩
  · rw [hval] at he
    cases he

end

end Sthreads.Snfs
