/-
When a request ends the server.

Of the three calls of `exit` in the handlers, the one in `fs_write` is never reached: what a
write has allocated is what it then fills.  The one in `fs_get_attrs` is reached when a path
has no component: `fs_lookup` then succeeds without writing `fileid`, and what `snfs_lookup`
finds in it may be the number of inode 0, which is used and has no type.  The one in
`snfs_readdir` is not reached as long as a listing is on one page: the slot of the
directory's inode is reused while the entries of the page are listed, and what `fs_readdir`
takes for the second page may be any block.
-/
import Sthreads.Lib.Run
import Sthreads.Proofs.Snfs.ByteArrays
import Sthreads.Proofs.Snfs.Service

namespace Sthreads.Snfs

open Prog Sthreads.Snfs.Tree

/-- The path has no component. -/
def OnlySlashes (file : CStr) : Prop := file.chars ≠ [] ∧ ∀ c ∈ file.chars, c = slash

/-- The listing of a directory takes one page. -/
def Fs.OnePage (fs : Fs) : Args → Prop
  | .readdir dir maxentries => fs.Used dir → (fs.inodeOf dir).itype = 1 →
      min ((fs.inodeOf dir).size / 16) (asInt maxentries).toNat ≤ 32
  | _ => True

/-- Whether the handler lists a directory. -/
def Args.lists : Args → Bool
  | readdir .. => true
  | _ => false

theorem Fs.onePage_of_not_lists {fs : Fs} {a : Args} (h : a.lists = false) : fs.OnePage a := by
  cases a with
  | readdir dir maxentries => cases h
  | _ => trivial

/-- The condition under which a request cannot reach an `exit`: no path without components is
looked up while `fileid` happens to be 0, and no listing takes more than one page.  A path of 200
characters or more is outside of it: its copy leaves `line`, and the run ends there as
`lineOverrun`, which is not an `exit`. -/
def Fs.Safe (fs : Fs) (stack : Stack) (a : Args) : Prop :=
  fs.OnePage a ∧ ∀ file, a = .lookup file → OnlySlashes file → file.chars.length + 1 ≤ 200 →
    stack.fileid ≠ 0

/-- The same for a server that gets a request. -/
def ServerState.Safe : ServerState → Stack × Req → Prop
  | .up fs, (stack, req) => ∀ a, Args.ofReq req = some a → fs.Safe stack a
  | .ended _, _ => True

/-! ### Paths without components -/

theorem tokens_eq_nil {s : List UInt8} (h : tokens s = []) : ∀ c ∈ s, c = slash := by
  induction s with
  | nil => exact fun c hc => by cases hc
  | cons c cs ih =>
      by_cases hc : c = slash
      · subst hc
        rw [tokens_slash] at h
        exact fun d hd => (List.mem_cons.mp hd).elim id (ih h d)
      · rw [tokens, splitPath_eq] at h
        have hne : (c != slash) = true := by simpa using hc
        simp [hne] at h

theorem tokens_of_slashes {s : List UInt8} (h : ∀ c ∈ s, c = slash) : tokens s = [] := by
  induction s with
  | nil => rfl
  | cons c cs ih =>
      obtain rfl := h c List.mem_cons_self
      rw [tokens_slash]
      exact ih fun d hd => h d (List.mem_cons_of_mem _ hd)

section

variable {t : Tree} {numBlocks : Nat}

/-- What a path leads to is an object. -/
theorem Tree.walk_some (hwf : t.WF) {ws : List (List UInt8)} {dir : Nat} {last : Option Nat}
    {found : Int} {fileid : Option Nat}
    (hlast : ∀ id, last = some id → 1 ≤ id ∧ id ≤ t.nodes.length)
    (h : t.walk dir last ws = (found, fileid)) :
    ∀ id, fileid = some id → 1 ≤ id ∧ id ≤ t.nodes.length := by
  induction ws generalizing dir last with
  | nil =>
      obtain ⟨-, rfl⟩ := Prod.mk.inj h
      exact hlast
  | cons w ws ih =>
      rw [Tree.walk] at h
      split at h
      · rename_i entries hnode
        split at h
        · obtain ⟨-, rfl⟩ := Prod.mk.inj h
          exact hlast
        · rename_i id hfind
          obtain ⟨-, -, -, hmem⟩ := Tree.node_some hnode
          refine ih (fun id' h => ?_) h
          obtain rfl := Option.some.inj h
          exact hwf.ids _ hmem (w, id) (findEntry_some hfind)
      · obtain ⟨-, rfl⟩ := Prod.mk.inj h
        exact hlast

/-- A path that leads to nothing and is found has no component. -/
theorem Tree.walk_none {ws : List (List UInt8)} {dir : Nat} {last : Option Nat}
    (h : t.walk dir last ws = (1, none)) : ws = [] := by
  induction ws generalizing dir last with
  | nil => rfl
  | cons w ws ih =>
      rw [Tree.walk] at h
      split at h
      · split at h
        · cases (Prod.mk.inj h).1
        · rename_i id hfind
          have hnil := ih h
          rw [hnil, Tree.walk] at h
          cases (Prod.mk.inj h).2
      · cases (Prod.mk.inj h).1

/-- The attributes that end the process are those of inode 0. -/
theorem Tree.getAttrs_exit {file : Nat} {e : Halt} (h : t.getAttrs file = .error e) :
    file = 0 ∧ e = .exit := by
  rw [Tree.getAttrs] at h
  split at h
  · cases h
  · split at h
    · rename_i hle o hnode
      rcases Tree.node_none hnode with h0 | hgt
      · exact ⟨h0, (Except.error.inj h).symm⟩
      · exact absurd hgt hle
    · cases h

/-- The lookup of a path without components ends the process if `fileid` happens to be 0. -/
theorem Tree.answer_of_slashes {stack : Stack} {file : CStr} (hslash : OnlySlashes file)
    (hlen : file.chars.length + 1 ≤ 200) (hzero : stack.fileid = 0) :
    t.answer stack (.lookup file) = .error .exit := by
  obtain ⟨hne, hall⟩ := hslash
  have hhead : file.chars.head? = some slash := by
    cases hc : file.chars with
    | nil => exact absurd hc hne
    | cons c cs => rw [List.head?_cons, hall c (by rw [hc]; exact List.mem_cons_self)]
  have hlookup : t.lookup file.chars = .ok (1, none) := by
    rw [Tree.lookup, if_neg (by simpa using hhead), if_neg (by omega), tokens_of_slashes hall]
    rfl
  rw [Tree.answer_lookup hlookup, if_neg (by simp), hzero]
  rfl

/-- In a tree only a lookup halts. -/
theorem Tree.lookup_of_error {stack : Stack} {a : Args} {e : Halt}
    (h : t.handler stack a = .error e) :
    ∃ file, a = .lookup file ∧ t.answer stack (.lookup file) = .error e := by
  have hanswer : ∀ x : Except Halt (Option Results), x.map (fun r => (r, t)) = .error e →
      x = .error e := by
    intro x hx
    cases x with
    | ok r => cases hx
    | error e => exact congrArg Except.error (Except.error.inj hx)
  cases a with
  | ping => cases h
  | read file offset count =>
      have hans := hanswer (t.answer stack (.read file offset count)) h
      rw [Tree.answer] at hans
      split at hans <;> cases hans
  | readdir dir maxentries => cases hanswer (t.answer stack (.readdir dir maxentries)) h
  | write file offset count data =>
      rw [Tree.handler] at h
      split at h <;> cases h
  | create dir name => cases h
  | mkdir dir f => cases h
  | copy srcpath tgtpath => cases h
  | lookup file => exact ⟨file, rfl, hanswer (t.answer stack (.lookup file)) h⟩

/-- A lookup halts on a path that does not fit in `line`, or on the attributes of inode 0. -/
theorem Tree.answer_error {stack : Stack} {file : CStr} {e : Halt}
    (h : t.answer stack (.lookup file) = .error e) : file.chars.head? = some slash ∧
      (e = .lineOverrun ∧ file.chars.length + 1 > 200 ∨
        e = .exit ∧ file.chars.length + 1 ≤ 200 ∧
          ∃ fileid, t.walk 1 none (tokens file.chars) = (1, fileid) ∧
            fileid.getD stack.fileid.toNat = 0) := by
  by_cases hhead : file.chars.head? ≠ some slash
  · rw [Tree.answer, Tree.lookup, if_pos hhead] at h
    cases h
  refine ⟨Classical.not_not.mp hhead, ?_⟩
  by_cases hlen : file.chars.length + 1 > 200
  · rw [Tree.answer, Tree.lookup, if_neg hhead, if_pos hlen] at h
    exact Or.inl ⟨(Except.error.inj h).symm, hlen⟩
  have hlookup : t.lookup file.chars = .ok (t.walk 1 none (tokens file.chars)) := by
    rw [Tree.lookup, if_neg hhead, if_neg hlen]
  generalize t.walk 1 none (tokens file.chars) = w at hlookup ⊢
  obtain ⟨found, fileid⟩ := w
  rw [Tree.answer_lookup hlookup] at h
  split at h
  · cases h
  · rename_i hfound
    obtain rfl : found = 1 := Classical.not_not.mp hfound
    cases hattrs : t.getAttrs (fileid.getD stack.fileid.toNat) with
    | ok w =>
        obtain ⟨status, attrs⟩ := w
        rw [hattrs, except_ok_bind] at h
        dsimp only at h
        split at h <;> cases h
    | error e' =>
        obtain ⟨hzero, rfl⟩ := Tree.getAttrs_exit hattrs
        rw [hattrs] at h
        exact Or.inr ⟨(Except.error.inj h).symm, Nat.le_of_not_lt hlen, fileid, rfl, hzero⟩

/-- Only a lookup of a path without components reaches an `exit`. -/
theorem Tree.handler_exit (hwf : t.WF) {stack : Stack} {a : Args}
    (h : t.handler stack a = .error .exit) :
    ∃ file, a = .lookup file ∧ OnlySlashes file ∧ file.chars.length + 1 ≤ 200 ∧
      stack.fileid = 0 := by
  obtain ⟨file, rfl, hans⟩ := Tree.lookup_of_error h
  obtain ⟨hhead, ⟨hline, -⟩ | ⟨-, hlen, fileid, hwalk, hzero⟩⟩ := Tree.answer_error hans
  · cases hline
  refine ⟨file, rfl, ?_⟩
  -- inode 0 is in no directory, so nothing was found
  cases fileid with
  | some id =>
      have hnothing : ∀ i, (none : Option Nat) = some i → 1 ≤ i ∧ i ≤ t.nodes.length :=
        fun i h => by cases h
      obtain ⟨hpos, -⟩ := Tree.walk_some hwf hnothing hwalk id rfl
      have hid : id = 0 := hzero
      omega
  | none =>
      refine ⟨⟨fun hnil => ?_, tokens_eq_nil (Tree.walk_none hwalk)⟩, hlen,
        UInt16.toNat_inj.mp hzero⟩
      rw [hnil] at hhead
      cases hhead

end

/-! ### Runs -/

section

variable {numBlocks : Nat}

/-- The server's file system is a tree, and the server has not ended with an `exit`. -/
def ServerState.Sane (numBlocks : Nat) : ServerState → Prop
  | .up fs => ∃ t, IsTree CachedRel numBlocks fs t
  | .ended e => e ≠ .exit

theorem Fs.OnePage.tree {fs : Fs} {t : Tree} (ht : IsTree CachedRel numBlocks fs t) {a : Args}
    (h : fs.OnePage a) : a.OnePage t := by
  cases a with
  | readdir dir maxentries =>
      intro es hnode
      have hshows := isTree_shows ht
      obtain ⟨-, hle, -, -⟩ := Tree.node_some hnode
      have hfit := h ((hshows.used dir).mpr hle) (hshows.itype dir _ hnode)
      rw [hshows.size dir _ hnode, Node.size] at hfit
      omega
  | _ => trivial

/-- The service of a request in a tree. -/
theorem serve_cases {fs : Fs} {t : Tree} (ht : IsTree CachedRel numBlocks fs t) {stack : Stack}
    {req : Req} (h : ∀ a, Args.ofReq req = some a → fs.Safe stack a) :
    (∃ x fs' t', run Fs.handler (serve stack req) fs = .ok (x, fs') ∧
      IsTree CachedRel numBlocks fs' t') ∨
      ∃ e, run Fs.handler (serve stack req) fs = .error e ∧ e ≠ .exit := by
  rw [serve]
  cases hargs : Args.ofReq req with
  | none => exact Or.inl ⟨_, fs, t, rfl, ht⟩
  | some a =>
      have hsafe := h a hargs
      dsimp only
      rw [run_bind]
      rcases isTree_handler cached_sound cached_forgets ht stack (hsafe.1.tree ht) with
        ⟨r, t', fs', -, hrun, ht'⟩ | ⟨e, htree, hrun⟩
      · rw [hrun]
        exact Or.inl ⟨_, fs', t', rfl, ht'⟩
      · rw [hrun]
        refine Or.inr ⟨e, rfl, ?_⟩
        rintro rfl
        obtain ⟨A, -, hrep, -, -⟩ := ht
        obtain ⟨file, rfl, hslash, hlen, hzero⟩ := Tree.handler_exit hrep.wf htree
        exact hsafe.2 file rfl hslash hlen hzero

theorem Sane.step {s s' : ServerState} {p : Stack × Req} (h : s.Sane numBlocks) (hok : s.Safe p)
    (hs : s.step p = some s') : s'.Sane numBlocks := by
  obtain ⟨stack, req⟩ := p
  cases s with
  | ended e => cases hs
  | up fs =>
      obtain ⟨t, ht⟩ := h
      rw [ServerState.step] at hs
      rcases @serve_cases _ _ _ ht stack req hok with
        ⟨x, fs', t', hrun, ht'⟩ | ⟨e, hrun, hne⟩
      · rw [hrun] at hs
        obtain rfl := Option.some.inj hs
        exact ⟨t', ht'⟩
      · rw [hrun] at hs
        obtain rfl := Option.some.inj hs
        exact hne

theorem Sane.init (hn : 10 ≤ numBlocks) {readings : Nat → Int} {s : ServerState}
    (h : snfsInit numBlocks readings = .ok s) : s.Sane numBlocks := by
  obtain ⟨fs, hnew, h⟩ := except_bind_ok h
  obtain ⟨fs', hformat, h⟩ := except_bind_ok h
  obtain rfl := Except.ok.inj h
  exact (Reached.format hnew hformat).isTree hn

/-- Such a lookup does bring the server down. -/
theorem Sane.step_slashes {fs : Fs} (h : (ServerState.up fs).Sane numBlocks) {stack : Stack}
    {req : Req} {file : CStr} (hargs : Args.ofReq req = some (.lookup file))
    (hslash : OnlySlashes file) (hlen : file.chars.length + 1 ≤ 200) (hzero : stack.fileid = 0) :
    (ServerState.up fs).step (stack, req) = some (.ended .exit) := by
  obtain ⟨t, ht⟩ := h
  rcases isTree_read cached_sound cached_forgets ht
    (p := (Args.lookup file).handler stack) (x := t.answer stack (.lookup file))
    (fun A r hrep => read_handler hrep (fun _ h => h) stack trivial trivial) with
    ⟨a, fs', hans, -, -⟩ | ⟨e, hans, hrun⟩
  · rw [Tree.answer_of_slashes hslash hlen hzero] at hans
    cases hans
  · rw [Tree.answer_of_slashes hslash hlen hzero, Except.error.injEq] at hans
    subst hans
    have hserve : run Fs.handler (serve stack req) fs = .error .exit := by
      rw [serve, hargs]
      dsimp only
      rw [run_bind, hrun]
    rw [ServerState.step, hserve]

/-- The server is not brought down by the requests it gets, as long as no path without components
is looked up while `fileid` happens to be 0 and no listing takes more than one page.  What a lookup
does that copies 200 characters or more into `line` is not said: such a run ends as
`lineOverrun`. -/
theorem server_stays_up (hn : 10 ≤ numBlocks) {readings : Nat → Int} {s₀ : ServerState}
    (hinit : snfsInit numBlocks readings = .ok s₀) {tr : List (ServerState × (Stack × Req))}
    {s : ServerState} (h : Run ServerState.step s₀ tr s) (hok : ∀ p ∈ tr, p.1.Safe p.2) :
    ∀ x ∈ visited tr s, x ≠ .ended .exit := by
  have hsane := h.visited_of (ServerState.Sane numBlocks) ServerState.Safe (Sane.init hn hinit)
    (fun _ _ _ h hok hs => Sane.step h hok hs) hok
  rintro x hx rfl
  exact hsane _ hx rfl

end

/-- The request to look a path up. -/
def lookupReq (path : List UInt8) : Req := ⟨2, 0, strcpy (fun _ => 0) 0 path⟩

/-- The request to create a file (of type 5) or a directory (of type 6) in a directory. -/
def createReq (type : Int) (dir : UInt32) (name : List UInt8) : Req :=
  ⟨type, 0, strcpy (Page.setWord (fun _ => 0) 0 dir) 4 name⟩

/-- The file system of a server that has not ended. -/
def ServerState.fs? : ServerState → Option Fs
  | .up fs => some fs
  | .ended _ => none

theorem ServerState.eq_of_fs? {s : ServerState} {fs : Fs} (h : s.fs? = some fs) : s = .up fs := by
  cases s with
  | up fs' => exact congrArg ServerState.up (Option.some.inj h)
  | ended e => cases h

/-- What is evaluated on the file system of a server that has been started holds of it. -/
theorem on_started (n : Nat) (readings : Nat → Int) {X : Type} (f : Fs → X) {x : X}
    (h : (snfsInit n readings).map (fun s₀ => s₀.fs?.map f) = .ok (some x)) :
    ∃ fs, snfsInit n readings = .ok (.up fs) ∧ f fs = x := by
  obtain ⟨s₀, hs, hfacts⟩ := except_map_ok h
  obtain ⟨fs, hfs, hx⟩ := Option.map_eq_some_iff.mp hfacts
  obtain rfl := ServerState.eq_of_fs? hfs
  exact ⟨fs, hs, hx⟩

/-- The step brings the server down. -/
def isExit : Option ServerState → Bool
  | some (.ended .exit) => true
  | _ => false

theorem eq_of_isExit {x : Option ServerState} (h : isExit x = true) :
    x = some (.ended .exit) := by
  unfold isExit at h
  split at h
  · rfl
  · cases h

/-- Looking `/` up while `fileid` happens to be 0 ends a new server. -/
theorem lookup_of_root_exits :
    ∃ s₀, snfsInit 12 (fun i => 7 * i) = .ok s₀ ∧
      s₀.step (⟨fun _ => 0, 0⟩, lookupReq [47]) = some (.ended .exit) := by
  have hfacts : ((snfsInit 12 (fun i => 7 * i)).map fun s₀ =>
      isExit (s₀.step (⟨fun _ => 0, 0⟩, lookupReq [47]))) = .ok true := by
    decide +kernel
  obtain ⟨s₀, hs, hfacts⟩ := except_map_ok hfacts
  exact ⟨s₀, hs, eq_of_isExit hfacts⟩

/-- Looking `/f` up does not. -/
theorem server_stays_up_lookup :
    ∃ s₀ s₁, snfsInit 12 (fun i => 7 * i) = .ok s₀ ∧
      s₀.step (⟨fun _ => 0, 0⟩, lookupReq [47, 102]) = some s₁ ∧ s₁ ≠ .ended .exit := by
  have hfacts : ((snfsInit 12 (fun i => 7 * i)).map fun s₀ =>
      (s₀.step (⟨fun _ => 0, 0⟩, lookupReq [47, 102])).isSome) = .ok true := by
    decide +kernel
  obtain ⟨s₀, hs, hfacts⟩ := except_map_ok hfacts
  obtain ⟨s₁, hstep⟩ := Option.isSome_iff_exists.mp hfacts
  refine ⟨s₀, s₁, hs, hstep, server_stays_up (by decide) hs (Run.nil.snoc hstep) ?_ _
    (by simp [visited])⟩
  intro p hp
  obtain rfl : p = (s₀, ⟨fun _ => 0, 0⟩, lookupReq [47, 102]) := by simpa using hp
  cases s₀ with
  | ended e => trivial
  | up fs =>
      intro a ha
      obtain rfl := Option.some.inj ha
      refine ⟨trivial, ?_⟩
      rintro file hfile ⟨-, hall⟩ -
      obtain rfl := Args.lookup.inj hfile
      have hmem : (102 : UInt8) ∈ ((lookupReq [47, 102]).body.cstr 0).chars := by decide
      cases hall 102 hmem

end Sthreads.Snfs
