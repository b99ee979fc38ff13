/-
`my_listdir` lists a directory.

In every session, the names that its caller finds in the block are those of the directory's
entries, in the order of their creation, unless there are more than fit on one page.  All
copies stay in the block, as no name is longer than 13 characters.  The directory is the one that
the first 14 characters of the path lead to, as the server gets no more of it.
-/
import Sthreads.Client.Listdir
import Sthreads.Proofs.Client.PathGrammar
import Sthreads.Proofs.Client.Sessions

namespace Sthreads.Client

open Snfs Prog

/-! ### The block -/

/-- The names one behind the other, each with a zero at its end. -/
def packed (names : List CStr) : List UInt8 := names.flatMap fun s => s.chars ++ [0]

theorem stringAt_append {before rest : List UInt8} (s : CStr) :
    stringAt (before ++ (s.chars ++ 0 :: rest)) before.length = s.chars := by
  rw [stringAt, List.drop_left, List.takeWhile_append_of_pos fun c hc => by simp [s.noNul c hc]]
  simp

theorem strcpyBlock_append (before old rest : List UInt8) (s : CStr)
    (hold : old.length = s.chars.length + 1) :
    strcpyBlock (before ++ (old ++ rest)) before.length s =
      some (before ++ (s.chars ++ 0 :: rest)) := by
  have hdrop : (before ++ (old ++ rest)).drop (before.length + (s.chars.length + 1)) = rest := by
    rw [← hold, ← List.length_append, ← List.append_assoc, List.drop_left]
  rw [strcpyBlock, if_neg (by simp only [List.length_append]; omega), hdrop, List.take_left,
    List.append_assoc]

/-- The loop of `my_listdir` stays in a block of so many bytes. -/
theorem putNames_eq (list : List DirEntry) (before old rest : List UInt8)
    (hold : old.length = (packed (list.map fun e => e.name.cstr 0)).length) :
    putNames list (before ++ (old ++ rest)) before.length =
      some (before ++ (packed (list.map fun e => e.name.cstr 0) ++ rest)) := by
  induction list generalizing before old with
  | nil =>
      obtain rfl := List.length_eq_zero_iff.mp hold
      rfl
  | cons e list ih =>
      let s := e.name.cstr 0
      have hpacked : packed ((e :: list).map fun e => e.name.cstr 0) =
          (s.chars ++ [0]) ++ packed (list.map fun e => e.name.cstr 0) := List.flatMap_cons
      rw [hpacked, List.length_append, List.length_append, List.length_singleton] at hold
      have hsplit := List.take_append_drop (s.chars.length + 1) old
      have hcopy := strcpyBlock_append before (old.take (s.chars.length + 1))
        (old.drop (s.chars.length + 1) ++ rest) s (by rw [List.length_take]; omega)
      rw [← List.append_assoc (old.take _), hsplit] at hcopy
      rw [putNames, hcopy, Option.bind_some, stringAt_append]
      have hlen : before.length + s.chars.length + 1 = (before ++ (s.chars ++ [0])).length := by
        simp only [List.length_append, List.length_singleton]
        omega
      have hnext := ih (before ++ (s.chars ++ [0])) (old.drop (s.chars.length + 1))
        (by rw [List.length_drop]; omega)
      rw [hlen, hpacked]
      simp only [List.append_assoc, List.singleton_append] at hnext ⊢
      exact hnext

/-- Going from name to name one finds the names. -/
theorem namesFrom_packed (names : List CStr) (before rest : List UInt8) :
    namesFrom (before ++ (packed names ++ rest)) names.length before.length =
      names.map CStr.chars := by
  induction names generalizing before with
  | nil => rfl
  | cons s names ih =>
      have hpacked : before ++ (packed (s :: names) ++ rest) =
          before ++ (s.chars ++ 0 :: (packed names ++ rest)) := by
        rw [packed, List.flatMap_cons, ← packed]
        simp only [List.append_assoc, List.cons_append, List.nil_append]
      have hnext := ih (before ++ (s.chars ++ [0]))
      rw [List.length_cons, namesFrom, hpacked, stringAt_append, List.map_cons]
      simp only [List.append_assoc, List.singleton_append, List.length_append, List.length_cons,
        List.length_nil] at hnext
      rw [show before.length + s.chars.length + 1 = before.length + (s.chars.length + (0 + 1)) by
        omega, hnext]

/-! ### The entries -/

/-- The name in an entry of a listing -/
theorem cstr_of {e : List UInt8 × Nat} (hlen : e.1.length ≤ 13) (hne : ∀ c ∈ e.1, c ≠ 0) :
    (DirEntry.of e).name.cstr 0 = ⟨e.1, hne⟩ := by
  rw [Page.cstr, CStr.mk.injEq]
  refine strAt_of_get hne (by omega) fun k => ?_
  rw [Nat.zero_add]
  by_cases hk : k < 14
  · rw [Page.get_of_lt _ hk]
    rfl
  · rw [Page.get_of_ge _ (by omega), List.getD_eq_default _ _ (by omega)]

/-! ### The tree -/

/-- The object that a path leads to -/
def dirAt (t : Tree) (path : CStr) : Option Nat :=
  if path.chars = [slash] then some 1
  else match t.walk 1 none (tokens (path.take 14).chars) with
    | (1, found) => found
    | _ => none

/-- The names in a directory -/
def namesIn (t : Tree) (dir : Nat) : Option (List (List UInt8)) :=
  match t.node dir with
  | some (.dir es) => some (es.map Prod.fst)
  | _ => none

section

variable {numBlocks : Nat} {s : Server} {t : Tree}

/-- A path that is not the root has a component among the characters that are sent. -/
theorem tokens_take_ne_nil {path : CStr} (hparse : myparse path = true)
    (hroot : path.chars ≠ [slash]) : tokens (path.take 14).chars ≠ [] := by
  obtain ⟨-, -, hdouble, hhead, -⟩ := myparse_iff.mp hparse
  obtain ⟨chars, hne⟩ := path
  dsimp only at hdouble hhead hroot
  cases chars with
  | nil => cases hhead
  | cons a chars =>
      obtain rfl := Option.some.inj hhead
      cases chars with
      | nil => exact absurd rfl hroot
      | cons b chars =>
          have hb : b ≠ slash := by
            rintro rfl
            simp [hasDoubleSlash] at hdouble
          simp [CStr.take, tokens, splitPath, hb]

/-- A lookup that the server refuses leaves `*file` as it is. -/
theorem run_lookup_none {path : CStr} {file : UInt32} {s s' : Server}
    (h : Server.rpc (.lookup path) s = .ok ((none, file), s')) :
    run Server.rpc (Client.snfsLookup path) s = .ok ((false, file, none), s') := by
  rw [Client.snfsLookup, run_bind, Prog.perform, run, h]
  rfl

theorem run_lookup_some {path : CStr} {file id size : UInt32} {s s' : Server}
    (h : Server.rpc (.lookup path) s = .ok ((some (.lookup id size), file), s')) :
    run Server.rpc (Client.snfsLookup path) s = .ok ((true, id, some size), s') := by
  rw [Client.snfsLookup, run_bind, Prog.perform, run, h]
  rfl

theorem run_readdir_none {dir cmax file : UInt32} {s s' : Server}
    (h : Server.rpc (.readdir dir cmax) s = .ok ((none, file), s')) :
    run Server.rpc (snfsReaddir dir cmax) s = .ok (none, s') := by
  rw [snfsReaddir, run_bind, Prog.perform, run, h]
  rfl

theorem run_readdir_some {dir cmax file : UInt32} {list : List DirEntry} {s s' : Server}
    (h : Server.rpc (.readdir dir cmax) s = .ok ((some (.readdir list), file), s')) :
    run Server.rpc (snfsReaddir dir cmax) s = .ok (some list, s') := by
  rw [snfsReaddir, run_bind, Prog.perform, run, h]
  rfl

/-- `snfs_lookup` of a path that was parsed finds what the tree has there. -/
theorem lookup_answered (ht : s.IsTree numBlocks t) {path : CStr} (hparse : myparse path = true)
    (hroot : path.chars ≠ [slash]) :
    ∃ x s', run Server.rpc (Client.snfsLookup path) s = .ok (x, s') ∧ s'.IsTree numBlocks t ∧
      ((x.1 = false ∧ dirAt t path = none) ∨
        ∃ id, id < 2 ^ 16 ∧ dirAt t path = some id ∧ x.1 = true ∧ x.2.1 = .ofNat id) := by
  have hwf := isTree_wf ht
  have hlen := length_of_myparse hparse
  have htokens := tokens_take_ne_nil hparse hroot
  obtain ⟨-, -, -, hhead, -⟩ := myparse_iff.mp hparse
  have htake : (path.take 14).chars.head? = some slash := by
    change (path.chars.take 14).head? = _
    rw [List.head?_take, if_neg (by omega), hhead]
  have hlookup : t.lookup (path.take 14).chars =
      .ok (t.walk 1 none (tokens (path.take 14).chars)) := by
    have hshort : (path.take 14).chars.length ≤ 14 := List.length_take_le ..
    rw [Tree.lookup, if_neg (by simp [htake]), if_neg (by omega)]
  -- what the handler answers, whatever is on its stack
  have hanswer : ∀ stack : Stack, ∃ r, t.answer stack (.lookup (path.take 14)) = .ok r ∧
      ((r = none ∧ dirAt t path = none) ∨ ∃ id size, id < 2 ^ 16 ∧ dirAt t path = some id ∧
        r = some (.lookup (.ofNat id) size)) := by
    intro stack
    rw [dirAt, if_neg hroot]
    generalize hwalk : t.walk 1 none (tokens (path.take 14).chars) = v at hlookup
    obtain ⟨found, fileid⟩ := v
    rw [Tree.answer_lookup hlookup]
    by_cases hfound : found = 1
    · subst hfound
      obtain ⟨id, rfl⟩ := lookup_found htokens hlookup
      obtain ⟨n, hn⟩ := lookup_node hwf hlookup
      obtain ⟨-, hle, -, -⟩ := Tree.node_some hn
      have hcount := hwf.count
      refine ⟨_, ?_, Or.inr ⟨id, .ofNat n.size, by omega, rfl, rfl⟩⟩
      rw [if_neg (by simp), Option.getD_some, Tree.getAttrs, if_neg (by omega), hn]
      rfl
    · rw [if_pos hfound]
      refine ⟨none, rfl, Or.inl ⟨rfl, ?_⟩⟩
      split
      · rename_i h
        exact absurd (Prod.mk.inj h).1 hfound
      · rfl
  obtain ⟨r, hans, hr⟩ := hanswer (s.stackOf s.calls)
  have hhandler : t.handler (s.stackOf s.calls) (ApiCall.lookup path).args = .ok (r, t) := by
    change (t.answer _ (.lookup (path.take 14))).map (fun r => (r, t)) = _
    rw [hans]
    rfl
  rcases rpc_tree ht (c := .lookup path) ⟨hlen, trivial, fun _ => trivial⟩ with
    ⟨r', t', file, s', hok, hrpc, ht'⟩ | ⟨e, herr, -⟩
  · rw [hhandler] at hok
    obtain ⟨rfl, rfl⟩ := Prod.mk.inj (Except.ok.inj hok)
    rcases hr with ⟨rfl, hnone⟩ | ⟨id, size, hid, hdir, rfl⟩
    · exact ⟨_, s', run_lookup_none hrpc, ht', Or.inl ⟨rfl, hnone⟩⟩
    · exact ⟨_, s', run_lookup_some hrpc, ht', Or.inr ⟨id, hid, hdir, rfl, rfl⟩⟩
  · rw [hhandler] at herr
    cases herr

/-- `snfs_readdir` of a directory of at most one page -/
theorem readdir_answered (ht : s.IsTree numBlocks t) {dir : Nat} (hdir : dir < 2 ^ 16)
    (hpage : ∀ es, t.node dir = some (.dir es) → es.length ≤ 32) :
    ∃ x s', run Server.rpc (snfsReaddir (.ofNat dir) 64) s = .ok (x, s') ∧
      s'.IsTree numBlocks t ∧
      ((x = none ∧ ∀ es, t.node dir ≠ some (.dir es)) ∨
        ∃ es list, t.node dir = some (.dir es) ∧ x = some list ∧
          list.length = es.length ∧
          list.map (fun e => (e.name.cstr 0).chars) = es.map Prod.fst) := by
  have hwf := isTree_wf ht
  have hargs : (ApiCall.readdir (.ofNat dir) 64).args = .readdir dir 64 := by
    rw [ApiCall.args, inodeid_ofNat hdir]
    rfl
  have hone : (ApiCall.readdir (.ofNat dir) 64).args.OnePage t := by
    rw [hargs]
    intro es hes
    have := hpage es hes
    exact (Nat.min_le_left ..).trans this
  have h64 : asInt (64 : UInt32).toNat = 64 := by decide
  have hhandler : ∀ x, t.readdir dir 64 = x →
      t.handler (s.stackOf s.calls) (ApiCall.readdir (.ofNat dir) 64).args =
        .ok (if x.1 ≠ 0 then none else x.2.map fun es => .readdir (es.map DirEntry.of), t) := by
    rintro x rfl
    rw [hargs]
    rfl
  rcases rpc_tree_of ht (c := .readdir (.ofNat dir) 64) trivial trivial hone with
    ⟨r, t', file, s', hok, hrpc, ht'⟩ | ⟨e, herr, -⟩
  · rw [hhandler _ rfl] at hok
    obtain ⟨rfl, rfl⟩ := Prod.mk.inj (Except.ok.inj hok)
    have nothing : (∀ es, t.node dir ≠ some (.dir es)) → t.readdir dir 64 = (-1, none) := by
      intro h
      rw [Tree.readdir]
      split
      · rename_i es hes
        exact absurd hes (h es)
      · rfl
    by_cases hes : ∃ es, t.node dir = some (.dir es)
    · obtain ⟨es, hes⟩ := hes
      have hreaddir : t.readdir dir 64 = (0, some (es.map fun e =>
          (e.1, ((t.node e.2).map Node.itype).getD 0))) := by
        have hlen := hpage es hes
        rw [Tree.readdir, hes]
        dsimp only
        rw [if_neg (by omega), List.take_of_length_le (by simp; omega)]
      rw [hreaddir] at hrpc
      refine ⟨_, s', run_readdir_some hrpc, ht', Or.inr ⟨es, _, hes, rfl, by simp, ?_⟩⟩
      rw [List.map_map, List.map_map]
      refine List.map_congr_left fun e he => ?_
      obtain ⟨hlen, hne⟩ := hwf.names _ (Tree.node_some hes).2.2.2 e he
      exact congrArg CStr.chars (cstr_of hlen hne)
    · rw [nothing fun es h => hes ⟨es, h⟩] at hrpc
      exact ⟨none, s', run_readdir_none hrpc, ht', Or.inl ⟨rfl, fun es h => hes ⟨es, h⟩⟩⟩
  · rw [hhandler _ rfl] at herr
    cases herr

/-! ### The call -/

/-- The names fit in the block: each of them takes 14 bytes at most. -/
theorem packed_length_le (names : List CStr) (h : ∀ s ∈ names, s.chars.length ≤ 14) :
    (packed names).length ≤ 15 * names.length := by
  induction names with
  | nil => exact Nat.zero_le _
  | cons s names ih =>
      have hs := h s List.mem_cons_self
      have hrest := ih fun s hs => h s (List.mem_cons_of_mem _ hs)
      rw [packed, List.flatMap_cons, ← packed]
      simp only [List.length_append, List.length_cons, List.length_nil]
      omega

/-- What `my_listdir` makes of an answer: the names come back out of its block. -/
theorem putNames_names (list : List DirEntry) (junk : Nat → UInt8) :
    ∃ filenames, putNames list ((List.range (15 * list.length)).map junk) 0 = some filenames ∧
      (Listing.mk filenames list.length).names = list.map fun e => (e.name.cstr 0).chars := by
  let names := list.map fun e => e.name.cstr 0
  let block := (List.range (15 * list.length)).map junk
  have hlen : (packed names).length ≤ block.length := by
    have hle := packed_length_le names fun s hs => by
      obtain ⟨e, -, rfl⟩ := List.mem_map.mp hs
      exact strAt_length_le _ _ _
    simpa [names, block] using hle
  have hput := putNames_eq list [] (block.take (packed names).length)
    (block.drop (packed names).length) (by rw [List.length_take]; exact Nat.min_eq_left hlen)
  have hnames := namesFrom_packed names [] (block.drop (packed names).length)
  rw [List.nil_append, List.take_append_drop] at hput
  refine ⟨_, hput, ?_⟩
  rw [List.length_map, List.map_map] at hnames
  exact hnames

theorem listIn_answered (ht : s.IsTree numBlocks t) (junk : Nat → UInt8) {dir : Nat}
    (hdir : dir < 2 ^ 16) (hpage : ∀ names ∈ namesIn t dir, names.length ≤ 32) :
    ∃ r s', run Server.rpc (listIn junk (.ofNat dir)) s = .ok (r, s') ∧ s'.IsTree numBlocks t ∧
      r.map Listing.names = namesIn t dir ∧ ∀ l ∈ r, l.numFiles = l.names.length := by
  have hes : ∀ es, t.node dir = some (.dir es) → es.length ≤ 32 := by
    intro es hnode
    have := hpage (es.map Prod.fst) (by rw [namesIn, hnode]; rfl)
    rwa [List.length_map] at this
  obtain ⟨x, s', hrun, ht', hx⟩ := readdir_answered ht hdir hes
  rw [listIn]
  simp only [run_bind, hrun]
  rcases hx with ⟨rfl, hnot⟩ | ⟨es, list, hnode, rfl, hlen, hnames⟩
  · refine ⟨none, s', rfl, ht', ?_, by simp⟩
    rw [namesIn]
    split
    · rename_i es h
      exact absurd h (hnot es)
    · rfl
  · obtain ⟨filenames, hput, hread⟩ := putNames_names list junk
    have hshort := hes es hnode
    dsimp only
    rw [if_neg (by omega), hput]
    refine ⟨_, s', rfl, ht', ?_, ?_⟩
    · rw [namesIn, hnode, Option.map_some, hread, hnames]
    · rintro l ⟨⟩
      rw [hread, List.length_map]

/-- The tree leads a path to what the file system leads it to. -/
theorem objectAt_iff (ht : s.IsTree numBlocks t) (path : CStr) (id : Nat) :
    objectAt s.fs path = some id ↔ t.walk 1 (some 1) (tokens path.chars) = (1, some id) := by
  have hwf := isTree_wf ht
  rw [objectAt, (isTree_shows ht).walk hwf (tokens path.chars) ⟨Nat.le_refl 1, hwf.length_pos⟩]
  cases tokens path.chars with
  | nil => simp [Fs.walk]
  | cons w ws => simp

/-- The names are those in the tree. -/
theorem namesAt_eq (ht : s.IsTree numBlocks t) (path : CStr) :
    namesAt s.fs path = (objectAt s.fs path).bind (namesIn t) := by
  have hshows := isTree_shows ht
  have hwf := isTree_wf ht
  rw [namesAt]
  cases hdir : objectAt s.fs path with
  | none => rfl
  | some id =>
      have hwalk := (objectAt_iff ht path id).mp hdir
      have hlast : ∀ i, some 1 = some i → 1 ≤ i ∧ i ≤ t.nodes.length := by
        intro i hi
        obtain rfl := Option.some.inj hi
        exact ⟨Nat.le_refl 1, hwf.length_pos⟩
      obtain ⟨hpos, hle⟩ := Tree.walk_some hwf hlast hwalk id rfl
      obtain ⟨n, hn⟩ := Tree.node_of_le hpos hle
      rw [Option.bind_some, Option.bind_some, namesIn, hn, hshows.itype id n hn]
      cases n with
      | file bytes => rfl
      | dir es =>
          rw [hshows.dir id es hn]
          rfl

/-- Two states with the same tree have the same names everywhere. -/
theorem namesAt_congr {s' : Server} (ht : s.IsTree numBlocks t) (ht' : s'.IsTree numBlocks t)
    (path : CStr) : namesAt s'.fs path = namesAt s.fs path := by
  have hobject : objectAt s'.fs path = objectAt s.fs path := by
    apply Option.ext
    intro id
    rw [objectAt_iff ht', objectAt_iff ht]
  rw [namesAt_eq ht, namesAt_eq ht', hobject]

/-- The server is asked for what the first 14 characters of the path lead to. -/
theorem dirAt_eq (ht : s.IsTree numBlocks t) {path : CStr} (hparse : myparse path = true) :
    dirAt t path = objectAt s.fs (path.take 14) := by
  apply Option.ext
  intro id
  rw [objectAt_iff ht, dirAt]
  by_cases hroot : path.chars = [slash]
  · have htake : (path.take 14).chars = [slash] := by
      show path.chars.take 14 = _
      rw [hroot]
      rfl
    have htokens : tokens [slash] = [] := rfl
    rw [if_pos hroot, htake, htokens, Tree.walk]
    simp
  · have hwf := isTree_wf ht
    have hne := tokens_take_ne_nil hparse hroot
    -- where there are names, the last object found does not matter
    have hwalk : ∀ last, s.fs.walk 1 (tokens (path.take 14).chars) = some id ↔
        t.walk 1 last (tokens (path.take 14).chars) = (1, some id) := by
      intro last
      rw [(isTree_shows ht).walk hwf _ ⟨Nat.le_refl 1, hwf.length_pos⟩ last id]
      simp [hne]
    rw [if_neg hroot, ← hwalk (some 1), hwalk none]
    split
    · rename_i found hfound
      rw [hfound]
      simp
    · rename_i hother
      constructor
      · intro h
        cases h
      · intro h
        exact absurd h (hother _)

/-- `my_listdir` lists what the file system has. -/
theorem listdir_answered (ht : s.IsTree numBlocks t) (junk : Nat → UInt8) (path : CStr)
    (hpage : ∀ dir ∈ objectAt s.fs (path.take 14), s.fs.OnePage (.readdir dir 64)) :
    ∃ r s', run Server.rpc (myListdir junk path) s = .ok (r, s') ∧ s'.IsTree numBlocks t ∧
      r.map Listing.names = (if myparse path then namesAt s.fs (path.take 14) else none) ∧
      ∀ l ∈ r, l.numFiles = l.names.length := by
  rw [myListdir]
  by_cases hparse : myparse path = true
  · rw [if_neg (by simp [hparse]), if_pos hparse, namesAt_eq ht, ← dirAt_eq ht hparse]
    rw [← dirAt_eq ht hparse] at hpage
    have hnames : ∀ dir ∈ dirAt t path, ∀ names ∈ namesIn t dir, names.length ≤ 32 := by
      intro dir hdir names hnames
      have h64 : (asInt 64).toNat = 64 := by decide
      rw [namesIn] at hnames
      split at hnames
      · rename_i es hes
        obtain rfl := Option.some.inj hnames
        have hone := (hpage dir hdir).tree ht es hes
        rw [h64] at hone
        rw [List.length_map]
        omega
      · cases hnames
    by_cases hroot : path.chars = [slash]
    · rw [if_pos hroot]
      rw [dirAt, if_pos hroot] at hnames ⊢
      exact listIn_answered ht junk (by decide) (hnames 1 rfl)
    · rw [if_neg hroot]
      obtain ⟨⟨found, dir, fsize⟩, s', hrun, ht', hx⟩ := lookup_answered ht hparse hroot
      simp only [run_bind, hrun]
      rcases hx with ⟨hfound, hnone⟩ | ⟨id, hid, hdir, hfound, hword⟩
      · subst hfound
        rw [hnone]
        exact ⟨none, s', rfl, ht', rfl, by simp⟩
      · subst hfound hword
        rw [hdir]
        exact listIn_answered ht' junk hid (hnames id hdir)
  · rw [if_pos (by simpa using hparse)]
    refine ⟨none, s, rfl, ht, ?_, by simp⟩
    rw [if_neg hparse]
    rfl

end

/-! ### Sessions -/

/-- **`my_listdir` lists the directory that the first 14 characters of its path lead to.**  In every
session in which no listing has taken more than a page, and does not now, and whatever `malloc`
finds in its block: if there is such a directory the caller is given the names of its entries, in
their order, and otherwise -1.  Nothing is written past the end of the block, and every directory
is as before. -/
theorem listdir_session {numBlocks : Nat} (hn : 10 ≤ numBlocks) {readings : Nat → Int}
    {server : Server} (hinit : snfsInit numBlocks readings = .ok (.up server.fs))
    {tr : List (Session × SessionAct)} {s : Session}
    (hrun : Run Session.step (Session.start server) tr s)
    (hpages : ∀ p ∈ tr, p.1.OnePage p.2) (junk : Nat → UInt8) (path : CStr)
    (hpage : ∀ dir ∈ objectAt s.server.fs (path.take 14),
      s.server.fs.OnePage (.readdir dir 64)) :
    ∃ r server', Prog.run Server.rpc (myListdir junk path) s.server = .ok (r, server') ∧
      r.map Listing.names =
        (if myparse path then namesAt s.server.fs (path.take 14) else none) ∧
      (∀ l ∈ r, l.numFiles = l.names.length) ∧
      ∀ path', namesAt server'.fs path' = namesAt s.server.fs path' := by
  obtain ⟨t, hsane⟩ := Session.sane_of_run hn hinit hrun hpages
  have ht := hsane.isTree
  obtain ⟨r, server', hlist, ht', hnames, hcount⟩ := listdir_answered ht junk path hpage
  exact ⟨r, server', hlist, hnames, hcount, namesAt_congr ht ht'⟩

/-- A directory with two files is listed. -/
theorem listdir_session_two_files :
    ∃ (s : Session) (r : Option Listing) (server' : Server),
      Prog.run Server.rpc (myListdir (fun _ => 7) ⟨[47, 100], by decide⟩) s.server =
        .ok (r, server') ∧ r.map Listing.names = some [[98], [97]] := by
  let acts : List SessionAct := [.call (.mkdir ⟨[47, 100], by decide⟩),
    .call (.openFile ⟨[47, 100, 47, 98], by decide⟩ 1),
    .call (.openFile ⟨[47, 100, 47, 97], by decide⟩ 1)]
  let path : CStr := ⟨[47, 100], by decide⟩
  obtain ⟨server, hinit, hval⟩ := session_of_bind 13 (fun i => 7 * i)
    (g := fun s₀ => (runTrace Session.step s₀ acts).map fun r =>
      (objectAt r.2.server.fs (path.take 14), (r.2.server.fs.inodeOf 2).size,
        if myparse path then namesAt r.2.server.fs (path.take 14) else none))
    (x := (some 2, 32, some [[98], [97]])) (by decide +kernel)
  obtain ⟨⟨tr, s⟩, htr, hval⟩ := Option.map_eq_some_iff.mp hval
  simp only [Prod.mk.injEq] at hval
  obtain ⟨hobject, hsize, hlisted⟩ := hval
  have hcalls : ∀ p ∈ [] ++ tr, p.1.OnePage p.2 := by
    intro p hp
    have hact : p.2 ∈ acts := by
      rw [← runTrace_acts acts htr]
      exact List.mem_map_of_mem (by simpa using hp)
    simp only [acts, List.mem_cons, List.not_mem_nil, or_false] at hact
    rcases hact with h | h | h <;> rw [h] <;> trivial
  obtain ⟨r, server', hlist, hnames, -⟩ := listdir_session (by decide) hinit
    (run_of_runTrace acts .nil htr) hcalls (fun _ => 7) path fun dir hdir => by
      rw [hobject] at hdir
      obtain rfl := Option.some.inj hdir
      intro _ _
      rw [hsize]
      decide
  exact ⟨s, r, server', hlist, hnames.trans hlisted⟩

end Sthreads.Client
