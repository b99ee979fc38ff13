/-
What the server creates can be found again, unless there is a slash in its name.

`fs_create` checks the length of a name and compares it as a whole; `fs_lookup` splits
paths at slashes.  The entry of a name with a slash is in the directory for good, but no
token is ever equal to it, and an object has one entry only.
-/
import Sthreads.Proofs.Snfs.Entries
import Sthreads.Proofs.Snfs.Lookup
import Sthreads.Proofs.Snfs.Requests

namespace Sthreads.Snfs

open Prog

/-- The directory and the name of an object that is to be created. -/
def Args.creates : Args → Option (Nat × CStr)
  | create dir name => some (dir, name)
  | mkdir dir f => some (dir, f)
  | _ => none

/-- The path of a name in a directory that a path leads to. -/
def pathIn (d : Nat) (path name : List UInt8) : List UInt8 :=
  if d = 1 then slash :: name else path ++ slash :: name

/-- `fs_lookup` returns 1 and the inode. -/
def Fs.Finds (fs : Fs) (junk : Page 512) (file : CStr) (id : Nat) : Prop :=
  ∃ fs', run Fs.handler (fsLookup junk file) fs = .ok ((1, some id), fs')

/-! ### The entry -/

namespace Tree

variable {t t' t'' : Tree} {d id : Nat} {name : List UInt8}

/-- The object has been created under this name: that is the only entry it has. -/
structure Enters (t : Tree) (d : Nat) (name : List UInt8) (id : Nat) : Prop where
  range : id ≤ t.nodes.length
  found : ∃ es, t.node d = some (.dir es) ∧ findEntry es name = some id
  only : ∀ dir n, t.node dir = some n → ∀ e ∈ n.entries, e.2 = id → e.1 = name

/-- What a request has created. -/
theorem enters_handler (hwf : t.WF) {stack : Stack} {a : Args} {file : CStr}
    (hcreates : a.creates = some (d, file)) {x : Results}
    (h : t.handler stack a = .ok (some x, t')) :
    file.chars ≠ [] ∧ t'.Enters d file.chars (x.body.word 0).toNat := by
  have creates : ∀ {new : Node} {f : UInt32 → Results}, new.entries = [] →
      (∀ v, (f v).body = Page.setWord (fun _ => 0) 0 v) →
      (if (t.create new d file.chars).1.1 ≠ 0 then none
        else (t.create new d file.chars).1.2.map fun id => f (UInt32.ofNat id)) = some x →
      (t.create new d file.chars).2 = t' →
      file.chars ≠ [] ∧ t'.Enters d file.chars (x.body.word 0).toNat := by
    rintro new f hnew hbody hx rfl
    have hzero : (t.create new d file.chars).1.1 = 0 := by
      by_contra hne
      rw [if_pos hne] at hx
      cases hx
    obtain ⟨-, -, ⟨hlen, -⟩, -⟩ := (create_zero new d file.chars).mp hzero
    refine ⟨fun hnil => by simp [hnil] at hlen, ?_⟩
    rcases t.create_cases new d file.chars with ⟨fileid, hc⟩ | ⟨es, free, hdir, hfind, hroom, -, hc⟩
    · rw [hc] at hzero
      cases hzero
    · rw [hc] at hx ⊢
      obtain rfl := Option.some.inj hx
      have hid : ((f (UInt32.ofNat (t.nodes.length + 1))).body.word 0).toNat =
          t.nodes.length + 1 := by
        have hlt : t.nodes.length + 1 < 2 ^ 32 := by omega
        rw [hbody, Page.word_setWord _ (by decide), UInt32.toNat_ofNat_of_lt' hlt]
      rw [hid]
      obtain ⟨hpos, hle, -, -⟩ := node_some hdir
      have hnode := node_created hpos hle free (.dir (es ++ [(file.chars, t.nodes.length + 1)])) new
      refine ⟨by simp [setNode_length], ⟨es ++ [(file.chars, t.nodes.length + 1)], ?_, ?_⟩, ?_⟩
      · rw [hnode, if_neg (by omega), if_pos rfl]
      · rw [findEntry_append, hfind, Option.none_or, findEntry_cons, if_pos rfl]
      · -- the entries there were name objects there were
        have hold : ∀ dir n, t.node dir = some n → ∀ e ∈ n.entries, e.2 ≠ t.nodes.length + 1 := by
          intro dir n hn e he heq
          obtain ⟨-, -, -, hmem⟩ := node_some hn
          have := hwf.ids n hmem e he
          omega
        intro dir n hn e he heq
        rw [hnode] at hn
        by_cases hlast : dir = t.nodes.length + 1
        · rw [if_pos hlast] at hn
          obtain rfl := Option.some.inj hn
          rw [hnew] at he
          cases he
        · rw [if_neg hlast] at hn
          by_cases hd : dir = d
          · rw [if_pos hd] at hn
            obtain rfl := Option.some.inj hn
            rcases List.mem_append.mp he with he | he
            · exact absurd heq (hold d _ hdir e he)
            · rw [List.mem_singleton.mp he]
          · rw [if_neg hd] at hn
            exact absurd heq (hold dir n hn e he)
  cases a with
  | create dir name =>
      obtain ⟨rfl, rfl⟩ := Prod.mk.inj (Option.some.inj hcreates)
      obtain ⟨hx, ht'⟩ := Prod.mk.inj (Except.ok.inj h)
      exact creates (f := .create) rfl (fun _ => rfl) hx ht'
  | mkdir dir f =>
      obtain ⟨rfl, rfl⟩ := Prod.mk.inj (Option.some.inj hcreates)
      obtain ⟨hx, ht'⟩ := Prod.mk.inj (Except.ok.inj h)
      exact creates (f := .mkdir) rfl (fun _ => rfl) hx ht'
  | _ => cases hcreates

/-- The entry stays, and stays the only one. -/
theorem Enters.grows (h : t.Enters d name id) (hg : t.Grows t') : t'.Enters d name id := by
  obtain ⟨hle, ⟨es, hdir, hfind⟩, honly⟩ := h
  refine ⟨hle.trans hg.length, ?_, fun dir n hn e he heq => ?_⟩
  · obtain ⟨n', hn', htype, more, hmore⟩ := hg.node d _ hdir
    cases n' with
    | file bytes => cases htype
    | dir es' =>
        refine ⟨es', hn', ?_⟩
        simp only [Node.entries] at hmore
        rw [← hmore, findEntry_append, hfind]
        rfl
  · obtain ⟨m, hm, hem⟩ := hg.old dir n hn e he (heq ▸ hle)
    exact honly dir m hm e hem heq

/-- Only names with the object's own among them lead to it. -/
theorem Enters.mem (h : t.Enters d name id) {names : List (List UInt8)} {dir : Nat}
    (hwalk : t.walk dir none names = (1, some id)) : name ∈ names := by
  by_cases hnil : names = []
  · rw [hnil, Tree.walk] at hwalk
    cases (Prod.mk.inj hwalk).2
  · obtain ⟨w, hw, dir', es, hdir, hmem⟩ := walk_mem hnil hwalk
    rw [← h.only dir' _ hdir (w, id) hmem rfl]
    exact hw

/-- The name leads from the directory to the object. -/
theorem Enters.walk (h : t.Enters d name id) (last : Option Nat) :
    t.walk d last [name] = (1, some id) := by
  obtain ⟨-, ⟨es, hdir, hfind⟩, -⟩ := h
  rw [Tree.walk, hdir]
  dsimp only
  rw [hfind]
  rfl

end Tree

/-- What `fs_create` or `fs_mkdir` has created under a name in a directory that a path leads to is
found under the path of that name, then and after any requests, exactly if there is no slash in the
name. -/
theorem created_is_found_iff {numBlocks : Nat} (hn : 10 ≤ numBlocks) {readings : Nat → Int}
    {s₀ : ServerState} (hinit : snfsInit numBlocks readings = .ok s₀)
    {before : List (ServerState × (Stack × Req))} {fs : Fs}
    (hbefore : Run ServerState.step s₀ before (.up fs)) (hpages : ∀ p ∈ before, p.1.OnePage p.2)
    {stack : Stack} {req : Req} {a : Args} {d : Nat} {name : CStr}
    (hargs : Args.ofReq req = some a) (hcreates : a.creates = some (d, name))
    {res : Res × Nat} {fs' : Fs}
    (hserve : run Fs.handler (serve stack req) fs = .ok (res, fs')) (hok : res.1.status = resOk)
    {path : List UInt8} (hpath : fs.Leads path d)
    {after : List (ServerState × (Stack × Req))} {fs'' : Fs}
    (hafter : Run ServerState.step (.up fs') after (.up fs''))
    (hpages' : ∀ p ∈ after, p.1.OnePage p.2) (junk : Page 512) {file : CStr}
    (hfile : file.chars = pathIn d path name.chars) (hlen : file.chars.length < 200) :
    fs''.Finds junk file (res.1.body.word 0).toNat ↔ slash ∉ name.chars := by
  obtain ⟨t, ht⟩ := isTree_server hn hinit hbefore hpages
  have hone : fs.OnePage a := by
    cases a with
    | readdir dir maxentries => cases hcreates
    | _ => trivial
  obtain ⟨r, t', htree, ht', rfl⟩ := isTree_serve ht hargs hone hserve
  obtain ⟨t'', ht'', hgrows⟩ := isTree_run_server ht' hafter hpages'
  cases r with
  | none => cases hok
  | some x =>
      obtain ⟨hne, henters⟩ := Tree.enters_handler (isTree_wf ht) hcreates htree
      have henters' := henters.grows hgrows
      change fs''.Finds junk file (x.body.word 0).toNat ↔ _
      generalize (x.body.word 0).toNat = id at henters' ⊢
      obtain ⟨hslash, hwalk⟩ := hpath
      have hhead : file.chars.head? = some slash := by
        rw [hfile, pathIn]
        split
        · rfl
        · rw [List.head?_append, hslash]
          rfl
      -- the tokens of the path are those of the way to the directory and those of the name
      have htokens : ∃ way, tokens file.chars = way ++ tokens name.chars ∧
          ∀ rest, t''.walk 1 none (way ++ rest) = t''.walk d (if way = [] then none else some d) rest := by
        rw [hfile, pathIn]
        split
        · rename_i hd
          exact ⟨[], rfl, fun rest => by rw [hd]; rfl⟩
        · rename_i hd
          have hway : tokens path ≠ [] := by
            intro hnil
            rw [hnil, Fs.walk, Option.some.injEq] at hwalk
            exact hd hwalk.symm
          have hfound := (isTree_shows ht).walk_found (isTree_wf ht) hway hwalk
          refine ⟨tokens path, tokens_append_slash path name.chars, fun rest => ?_⟩
          rw [if_neg hway]
          exact Tree.walk_append
            (((Tree.grows_handler htree).trans hgrows).walk hfound) hway
      obtain ⟨way, hsplit, hlead⟩ := htokens
      obtain ⟨fs₃, hrun⟩ := isTree_lookup ht'' junk hhead hlen
      constructor
      · rintro ⟨fs₄, hfound⟩
        rw [hrun, Except.ok.injEq, Prod.mk.injEq] at hfound
        exact (tokens_words _ (henters'.mem hfound.1)).2
      · intro hno
        refine ⟨fs₃, ?_⟩
        rw [hrun, hsplit, tokens_name hne hno, hlead, henters'.walk]

/-- A file in a directory, on twelve blocks. -/
theorem created_is_found_iff_twelve_blocks :
    ∃ s₀ fs res fs', snfsInit 12 (fun i => 7 * i) = .ok s₀ ∧
      s₀.step (⟨fun _ => 0, 0⟩, createReq 6 1 [100]) = some (.up fs) ∧
      run Fs.handler (serve ⟨fun _ => 0, 0⟩ (createReq 5 2 [102])) fs = .ok (res, fs') ∧
      fs'.Finds (fun _ => 0) ⟨[47, 100, 47, 102], by decide⟩ 3 := by
  have hfacts : (snfsInit 12 (fun i => 7 * i)).map (fun s₀ =>
      ((s₀.step (⟨fun _ => 0, 0⟩, createReq 6 1 [100])).bind ServerState.fs?).map fun fs =>
        (decide (fs.Leads [47, 100] 2),
          (run Fs.handler (serve ⟨fun _ => 0, 0⟩ (createReq 5 2 [102])) fs).map fun p =>
            (p.1.1.status, (p.1.1.body.word 0).toNat))) = .ok (some (true, .ok (resOk, 3))) := by
    decide +kernel
  obtain ⟨s₀, hs, hfacts⟩ := except_map_ok hfacts
  obtain ⟨fs, hfs, hval⟩ := Option.map_eq_some_iff.mp hfacts
  obtain ⟨s, hstep, hup⟩ := Option.bind_eq_some_iff.mp hfs
  obtain rfl := ServerState.eq_of_fs? hup
  obtain ⟨hleads, hserve⟩ := Prod.mk.inj hval
  obtain ⟨p, hrun, hserve⟩ := except_map_ok hserve
  obtain ⟨hok, hid⟩ := Prod.mk.inj hserve
  refine ⟨s₀, fs, p.1, p.2, hs, hstep, hrun, ?_⟩
  have hdir : Args.inodeid ((createReq 5 2 [102]).body.word 0) = 2 := by decide +kernel
  have hname : (((createReq 5 2 [102]).body.set 17 0).cstr 4).chars = [102] := by
    decide +kernel
  rw [← hid]
  have hpath : fs.Leads [47, 100]
      (Args.inodeid ((createReq 5 2 [102]).body.word 0)) :=
    hdir.symm ▸ of_decide_eq_true hleads
  refine (created_is_found_iff (by decide) hs (Run.nil.snoc hstep) (fun q hq => ?_)
    (a := Args.createOf (createReq 5 2 [102]).body) rfl rfl hrun hok hpath Run.nil
    (fun q hq => absurd hq List.not_mem_nil) _ ?_ (by decide)).mpr ?_
  · obtain rfl : q = (s₀, ⟨fun _ => 0, 0⟩, createReq 6 1 [100]) := by simpa using hq
    cases s₀ with
    | ended e => trivial
    | up fs₀ =>
        intro a ha
        obtain rfl := Option.some.inj ha
        trivial
  · rw [hdir, hname]
    rfl
  · rw [hname]
    decide

/-- A file is created under the name `a/b`, and `/a/b` does not exist. -/
theorem created_with_slash_is_not_found :
    ∃ fs res fs', snfsInit 12 (fun i => 7 * i) = .ok (.up fs) ∧
      run Fs.handler (serve ⟨fun _ => 0, 0⟩ (createReq 5 1 [97, 47, 98])) fs = .ok (res, fs') ∧
      res.1.status = resOk ∧ fs.Leads [47] 1 ∧
      ¬ fs'.Finds (fun _ => 0) ⟨[47, 97, 47, 98], by decide⟩ (res.1.body.word 0).toNat := by
  obtain ⟨fs, hs, hval⟩ := on_started 12 (fun i => 7 * i)
    (fun fs => (decide (fs.Leads [47] 1),
      (run Fs.handler (serve ⟨fun _ => 0, 0⟩ (createReq 5 1 [97, 47, 98])) fs).map fun p =>
        (p.1.1.status,
          (run Fs.handler (fsLookup (fun _ => 0) ⟨[47, 97, 47, 98], by decide⟩) p.2).map (·.1.1))))
    (x := (true, .ok (resOk, .ok 0))) (by decide +kernel)
  obtain ⟨hleads, hserve⟩ := Prod.mk.inj hval
  obtain ⟨p, hrun, hserve⟩ := except_map_ok hserve
  obtain ⟨hok, hlookup⟩ := Prod.mk.inj hserve
  refine ⟨fs, p.1, p.2, hs, hrun, hok, of_decide_eq_true hleads, ?_⟩
  rintro ⟨fs'', hfound⟩
  rw [hfound] at hlookup
  cases Except.ok.inj hlookup

end Sthreads.Snfs
