/-
The answer to a lookup depends on the tree and the path only, if the path has a component.

What `snfs_lookup` answers is read off the tree: the object that the components lead to
and its size.  For a path of slashes `fs_lookup` returns 1 and has written nothing, so the
answer is about the inode whose number `fileid` happened to hold.
-/
import Sthreads.Proofs.Snfs.Entries
import Sthreads.Proofs.Snfs.Requests

namespace Sthreads.Snfs

open Prog

/-- The same directories, and files of the same sizes. -/
structure SameShape (s s' : Fs) : Prop where
  used : ∀ id, s'.Used id ↔ s.Used id
  itype : ∀ id, s.Used id → (s'.inodeOf id).itype = (s.inodeOf id).itype
  size : ∀ id, s.Used id → (s'.inodeOf id).size = (s.inodeOf id).size
  entries : ∀ id, s.Used id → (s.inodeOf id).itype = 1 → s'.dirEntries id = s.dirEntries id

/-- Both servers answer the request, in the same way, whatever is on their stacks.  An answer
`RES_OK` names the object that the path leads to, and its size. -/
def SameAnswer (fs fs' : Fs) (req : Req) (path : List UInt8) : Prop :=
  ∀ stack stack', ∃ res fs₁ fs₁', run Fs.handler (serve stack req) fs = .ok (res, fs₁) ∧
    run Fs.handler (serve stack' req) fs' = .ok (res, fs₁') ∧
    (res.1.status = resOk → fs.Leads path (res.1.body.word 0).toNat ∧
      (res.1.body.word 4).toNat = (fs.inodeOf (res.1.body.word 0).toNat).size)

/-! ### Answers read off the tree -/

namespace Tree

variable {t t' : Tree} {file : CStr}

/-- The object that a path with a component leads to. -/
def locate (t : Tree) (path : List UInt8) : Option Nat :=
  if path.head? = some slash then
    if (t.walk 1 none (tokens path)).1 = 1 then (t.walk 1 none (tokens path)).2 else none
  else none

/-- What the handler of a lookup answers if the path has a component or is not absolute. -/
theorem answer_eq_locate (stack : Stack) (hwf : t.WF) (hlen : file.chars.length < 200)
    (hno : ¬ OnlySlashes file) : t.answer stack (.lookup file) =
      .ok ((t.locate file.chars).bind fun id => (t.node id).map fun n =>
        .lookup (UInt32.ofNat id) (UInt32.ofNat n.size)) := by
  by_cases hhead : file.chars.head? = some slash
  swap
  · have hlookup : t.lookup file.chars = .ok (-1, none) := by rw [Tree.lookup, if_pos hhead]
    rw [answer_lookup hlookup, if_pos (by decide), locate, if_neg hhead]
    rfl
  · have hlookup : t.lookup file.chars = .ok (t.walk 1 none (tokens file.chars)) := by
      rw [Tree.lookup, if_neg (by simpa using hhead), if_neg (by omega)]
    rw [locate, if_pos hhead]
    cases hwalk : t.walk 1 none (tokens file.chars) with
    | mk found fileid =>
        rw [hwalk] at hlookup
        rw [answer_lookup hlookup]
        dsimp only
        by_cases hfound : found = 1
        swap
        · rw [if_pos hfound, if_neg hfound]
          rfl
        · rw [if_neg (by simpa using hfound), if_pos hfound]
          rw [hfound] at hwalk
          cases fileid with
          | none =>
              -- only a path without components leads to nothing
              refine absurd ⟨fun hnil => ?_, tokens_eq_nil (walk_none hwalk)⟩ hno
              rw [hnil] at hhead
              cases hhead
          | some id =>
              obtain ⟨hpos, hle⟩ := walk_some hwf (fun _ h => by cases h) hwalk id rfl
              obtain ⟨n, hn⟩ := node_of_le hpos hle
              rw [Option.getD_some, getAttrs, if_neg (by omega), hn, Option.bind_some, hn]
              rfl

/-- The same types, sizes and entries. -/
def Alike (t t' : Tree) : Prop :=
  ∀ id, (t'.node id).map (fun n => (n.itype, n.size, n.entries)) =
    (t.node id).map fun n => (n.itype, n.size, n.entries)

theorem Alike.walk (h : t.Alike t') (names : List (List UInt8)) (dir : Nat) (last : Option Nat) :
    t'.walk dir last names = t.walk dir last names := by
  induction names generalizing dir last with
  | nil => rfl
  | cons name rest ih =>
      have hdir := h dir
      rw [Tree.walk, Tree.walk]
      cases hn : t.node dir with
      | none =>
          rw [hn, Option.map_none, Option.map_eq_none_iff] at hdir
          rw [hdir]
      | some n =>
          rw [hn, Option.map_some] at hdir
          obtain ⟨n', hn', heq⟩ := Option.map_eq_some_iff.mp hdir
          simp only [Prod.mk.injEq] at heq
          obtain ⟨htype, -, hentries⟩ := heq
          rw [hn']
          cases n with
          | file bytes =>
              cases n' with
              | file bytes' => rfl
              | dir es => cases htype
          | dir es =>
              cases n' with
              | file bytes => cases htype
              | dir es' =>
                  obtain rfl : es' = es := hentries
                  dsimp only
                  split
                  · rfl
                  · exact ih ..

/-- Trees that are alike give the same answers. -/
theorem Alike.answer (h : t.Alike t') (stack stack' : Stack) (hwf : t.WF) (hwf' : t'.WF)
    (hlen : file.chars.length < 200) (hno : ¬ OnlySlashes file) :
    t'.answer stack' (.lookup file) = t.answer stack (.lookup file) := by
  rw [answer_eq_locate _ hwf hlen hno, answer_eq_locate _ hwf' hlen hno, locate, locate, h.walk]
  congr 1
  refine Option.bind_congr fun id _ => ?_
  have hnode := congrArg (Option.map fun p : Nat × Nat × List (List UInt8 × Nat) =>
    Results.lookup (UInt32.ofNat id) (UInt32.ofNat p.2.1)) (h id)
  rwa [Option.map_map, Option.map_map] at hnode

end Tree

section

variable {numBlocks : Nat} {s s' : Fs} {t t' : Tree}

/-- What two states show alike are trees that are alike. -/
theorem Shows.alike (h : Shows s t) (h' : Shows s' t') (hsame : SameShape s s') : t.Alike t' := by
  have hlen : t'.nodes.length = t.nodes.length := by
    have hle : ∀ id, id ≤ t'.nodes.length ↔ id ≤ t.nodes.length := fun id => by
      rw [← h.used, ← h'.used]
      exact hsame.used id
    exact Nat.le_antisymm ((hle _).mp (Nat.le_refl _)) ((hle _).mpr (Nat.le_refl _))
  intro id
  cases hn : t.node id with
  | none =>
      have hnone : t'.node id = none := by
        rcases Tree.node_none hn with rfl | hgt
        · rfl
        · exact Tree.node_of_gt (hlen ▸ hgt)
      rw [hnone]
  | some n =>
      obtain ⟨hpos, hle, -, -⟩ := Tree.node_some hn
      obtain ⟨n', hn'⟩ := Tree.node_of_le hpos (hlen.symm ▸ hle : id ≤ t'.nodes.length)
      have hused := (h.used id).mpr hle
      have htype := (h'.itype id n' hn').symm.trans
        ((hsame.itype id hused).trans (h.itype id n hn))
      have hsize := (h'.size id n' hn').symm.trans ((hsame.size id hused).trans (h.size id n hn))
      rw [hn', Option.map_some, Option.map_some, htype, hsize]
      cases n with
      | file bytes =>
          cases n' with
          | file bytes' => rfl
          | dir es => cases htype
      | dir es =>
          cases n' with
          | file bytes => cases htype
          | dir es' =>
              have hentries := hsame.entries id hused (h.itype id _ hn)
              rw [h.dir id es hn, h'.dir id es' hn'] at hentries
              rw [hentries]

/-- A lookup is answered as the tree says. -/
theorem isTree_answer (ht : IsTree CachedRel numBlocks s t) (stack : Stack) {req : Req}
    {file : CStr} (hargs : Args.ofReq req = some (.lookup file)) :
    (∃ r s', t.answer stack (.lookup file) = .ok r ∧ run Fs.handler (serve stack req) s =
        .ok (({ (respond (.lookup file) r).1 with sn := req.sn },
          (respond (.lookup file) r).2), s')) ∨
      ∃ e, t.answer stack (.lookup file) = .error e ∧
        run Fs.handler (serve stack req) s = .error e := by
  rw [serve, hargs]
  dsimp only
  rw [run_bind]
  rcases isTree_read cached_sound cached_forgets ht (p := (Args.lookup file).handler stack)
    (x := t.answer stack (.lookup file))
    (fun A r hrep => read_handler hrep (fun _ h => h) stack trivial trivial) with
    ⟨r, s', hans, hrun, -⟩ | ⟨e, hans, hrun⟩
  · rw [hrun]
    exact Or.inl ⟨r, s', hans, rfl⟩
  · rw [hrun]
    exact Or.inr ⟨e, hans, rfl⟩

/-- An answer `RES_OK` is about the object that the path leads to. -/
theorem locate_leads (ht : IsTree CachedRel numBlocks s t) {file : CStr}
    (hlen : file.chars.length < 200) (hno : ¬ OnlySlashes file) {id : Nat}
    (hlocate : t.locate file.chars = some id) : s.Leads file.chars id := by
  rw [Tree.locate] at hlocate
  split at hlocate
  · rename_i hhead
    split at hlocate
    · rename_i hone
      have htokens : tokens file.chars ≠ [] := by
        intro hnil
        refine hno ⟨fun h => ?_, tokens_eq_nil hnil⟩
        rw [h] at hhead
        cases hhead
      refine ((isTree_shows ht).leads (isTree_wf ht) hlen htokens id).mp ?_
      rw [Tree.lookup, if_neg (by simpa using hhead), if_neg (by omega)]
      exact congrArg Except.ok (Prod.ext hone hlocate)
    · cases hlocate
  · cases hlocate

end

/-- Two servers with the same tree, whatever they have done to get there, answer a lookup in the
same way exactly if the path is not one of slashes only. -/
theorem lookup_answer_iff {numBlocks numBlocks' : Nat} (hn : 10 ≤ numBlocks)
    (hn' : 10 ≤ numBlocks') {readings readings' : Nat → Int} {s₀ s₀' : ServerState}
    (hinit : snfsInit numBlocks readings = .ok s₀) (hinit' : snfsInit numBlocks' readings' = .ok s₀')
    {tr tr' : List (ServerState × (Stack × Req))} {fs fs' : Fs}
    (hrun : Run ServerState.step s₀ tr (.up fs)) (hrun' : Run ServerState.step s₀' tr' (.up fs'))
    (hpages : ∀ p ∈ tr, p.1.OnePage p.2) (hpages' : ∀ p ∈ tr', p.1.OnePage p.2)
    (hsame : SameShape fs fs') {req : Req} {file : CStr}
    (hargs : Args.ofReq req = some (.lookup file)) (hlen : file.chars.length < 200) :
    SameAnswer fs fs' req file.chars ↔ ¬ OnlySlashes file := by
  obtain ⟨t, ht⟩ := isTree_server hn hinit hrun hpages
  obtain ⟨t', ht'⟩ := isTree_server hn' hinit' hrun' hpages'
  have hwf := isTree_wf ht
  have hshows := isTree_shows ht
  constructor
  · intro hanswer hslash
    obtain ⟨res, fs₁, -, hserve, -⟩ := hanswer ⟨fun _ => 0, 0⟩ ⟨fun _ => 0, 0⟩
    have hexit : t.answer ⟨fun _ => 0, 0⟩ (.lookup file) = .error .exit :=
      Tree.answer_of_slashes hslash hlen rfl
    rcases isTree_answer ht ⟨fun _ => 0, 0⟩ hargs with ⟨r, s₁, hans, -⟩ | ⟨e, -, herr⟩
    · rw [hexit] at hans
      cases hans
    · rw [hserve] at herr
      cases herr
  · intro hno stack stack'
    have halike := hshows.alike (isTree_shows ht') hsame
    have hans := Tree.answer_eq_locate stack hwf hlen hno
    have hans' := (halike.answer stack stack' hwf (isTree_wf ht') hlen hno).trans hans
    rcases isTree_answer ht stack hargs with ⟨r, fs₁, hr, hserve⟩ | ⟨e, he, -⟩
    · rcases isTree_answer ht' stack' hargs with ⟨r', fs₁', hr', hserve'⟩ | ⟨e, he, -⟩
      · rw [hans'] at hr'
        obtain rfl := hans.symm.trans hr |> Except.ok.inj
        obtain rfl := Except.ok.inj hr'
        refine ⟨_, fs₁, fs₁', hserve, hserve', fun hok => ?_⟩
        cases hlocate : t.locate file.chars with
        | none =>
            rw [hlocate] at hok
            cases hok
        | some id =>
            rw [hlocate, Option.bind_some] at hok
            rw [Option.bind_some]
            cases hnode : t.node id with
            | none =>
                rw [hnode] at hok
                cases hok
            | some n =>
                obtain ⟨-, hle, -, hmem⟩ := Tree.node_some hnode
                have hcount := hwf.count
                have hblocks := hwf.blocks_le hmem
                rw [offsetToBlocks_eq] at hblocks
                have hid : id < 2 ^ 32 := by omega
                have hsize : n.size < 2 ^ 32 := by omega
                have hword : ((Results.lookup (UInt32.ofNat id) (UInt32.ofNat n.size)).body.word
                    0).toNat = id := by
                  rw [Results.body, Page.word_setWord_of_out _ _ (by decide),
                    Page.word_setWord _ (by decide), UInt32.toNat_ofNat_of_lt' hid]
                have hword' : ((Results.lookup (UInt32.ofNat id) (UInt32.ofNat n.size)).body.word
                    4).toNat = n.size := by
                  rw [Results.body, Page.word_setWord _ (by decide),
                    UInt32.toNat_ofNat_of_lt' hsize]
                rw [Option.map_some]
                simp only [respond, hword, hword']
                exact ⟨locate_leads ht hlen hno hlocate, (hshows.size id n hnode).symm⟩
      · rw [hans'] at he
        cases he
    · rw [hans] at he
      cases he

/-- Two servers with a file `f`, one of them on more blocks and after a request that failed. -/
theorem lookup_answer_iff_two_servers :
    ∃ s₀ s₀' s₁ fs fs', snfsInit 12 (fun i => 7 * i) = .ok s₀ ∧
      snfsInit 20 (fun i => 3 * i) = .ok s₀' ∧
      s₀.step (⟨fun _ => 0, 0⟩, createReq 5 1 [102]) = some (.up fs) ∧
      s₀'.step (⟨fun _ => 7, 7⟩, createReq 6 9 [100]) = some s₁ ∧
      s₁.step (⟨fun _ => 7, 7⟩, createReq 5 1 [102]) = some (.up fs') ∧
      SameAnswer fs fs' (lookupReq [47, 102]) [47, 102] := by
  have hfacts : (snfsInit 12 (fun i => 7 * i)).bind (fun s₀ =>
      (snfsInit 20 (fun i => 3 * i)).map fun s₀' =>
        ((s₀.step (⟨fun _ => 0, 0⟩, createReq 5 1 [102])).bind ServerState.fs?).bind fun fs =>
          (s₀'.step (⟨fun _ => 7, 7⟩, createReq 6 9 [100])).bind fun s₁ =>
            ((s₁.step (⟨fun _ => 7, 7⟩, createReq 5 1 [102])).bind ServerState.fs?).map
              fun fs' => decide (∀ id : Fin 64,
                bmapIsset fs'.inodeBmap id = bmapIsset fs.inodeBmap id ∧
                (bmapIsset fs.inodeBmap id = true →
                (fs'.inodeOf id).itype = (fs.inodeOf id).itype ∧
                (fs'.inodeOf id).size = (fs.inodeOf id).size ∧
                fs'.dirEntries id = fs.dirEntries id))) = .ok (some true) := by
    decide +kernel
  obtain ⟨s₀, hs, hfacts⟩ := except_bind_ok hfacts
  obtain ⟨s₀', hs', hfacts⟩ := except_map_ok hfacts
  obtain ⟨fs, hfs, hrest⟩ := Option.bind_eq_some_iff.mp hfacts
  obtain ⟨s, hstep, hup⟩ := Option.bind_eq_some_iff.mp hfs
  obtain rfl := ServerState.eq_of_fs? hup
  obtain ⟨s₁, hstep₁, hrest⟩ := Option.bind_eq_some_iff.mp hrest
  obtain ⟨fs', hfs', hval⟩ := Option.map_eq_some_iff.mp hrest
  obtain ⟨s', hstep', hup'⟩ := Option.bind_eq_some_iff.mp hfs'
  obtain rfl := ServerState.eq_of_fs? hup'
  refine ⟨s₀, s₀', s₁, fs, fs', hs, hs', hstep, hstep₁, hstep', ?_⟩
  have hrun := Run.nil.snoc hstep
  have hrun' := (Run.nil.snoc hstep₁).snoc hstep'
  have hpages : ∀ p ∈ [] ++ [(s₀, (⟨fun _ => 0, 0⟩ : Stack), createReq 5 1 [102])],
      p.1.OnePage p.2 := fun p hp => by
    obtain rfl : p = _ := by simpa using hp
    exact ServerState.onePage_of_type _ _ (by decide)
  have hpages' : ∀ p ∈ [] ++ [(s₀', (⟨fun _ => 7, 7⟩ : Stack), createReq 6 9 [100])] ++
      [(s₁, (⟨fun _ => 7, 7⟩ : Stack), createReq 5 1 [102])], p.1.OnePage p.2 :=
    fun p hp => by
      obtain rfl | rfl : p = _ ∨ p = _ := by simpa using hp
      · exact ServerState.onePage_of_type _ _ (by decide)
      · exact ServerState.onePage_of_type _ _ (by decide)
  obtain ⟨t, ht⟩ := isTree_server (by decide) hs hrun hpages
  obtain ⟨t', ht'⟩ := isTree_server (by decide) hs' hrun' hpages'
  have hlt : ∀ id, fs.Used id → id < 64 := fun id hused =>
    Nat.lt_of_le_of_lt (((isTree_shows ht).used id).mp hused)
      (Nat.lt_succ_of_le (isTree_wf ht).count)
  have hlt' : ∀ id, fs'.Used id → id < 64 := fun id hused =>
    Nat.lt_of_le_of_lt (((isTree_shows ht').used id).mp hused)
      (Nat.lt_succ_of_le (isTree_wf ht').count)
  have hshape := of_decide_eq_true hval
  have hsame : SameShape fs fs' := by
    refine ⟨fun id => ⟨fun h => ?_, fun h => ?_⟩, fun id h => ?_, fun id h => ?_,
      fun id h _ => ?_⟩
    · exact (hshape ⟨id, hlt' id h⟩).1.symm.trans h
    · exact (hshape ⟨id, hlt id h⟩).1.trans h
    · exact ((hshape ⟨id, hlt id h⟩).2 h).1
    · exact ((hshape ⟨id, hlt id h⟩).2 h).2.1
    · exact ((hshape ⟨id, hlt id h⟩).2 h).2.2
  have hargs : Args.ofReq (lookupReq [47, 102]) =
      some (.lookup ⟨[47, 102], by decide⟩) := by
    have hpath : (lookupReq [47, 102]).body.cstr 0 = ⟨[47, 102], by decide⟩ := by
      rw [Page.cstr, CStr.mk.injEq]
      decide
    rw [← hpath]
    rfl
  refine (lookup_answer_iff (by decide) (by decide) hs hs' hrun hrun' hpages hpages' hsame
    hargs (by decide)).mpr ?_
  rintro ⟨-, hall⟩
  exact absurd (hall 102 (by decide)) (by decide)

/-- What `/` is answered on a new server is about the inode whose number `fileid` holds. -/
theorem lookup_answer_of_root_varies :
    ∃ fs, snfsInit 12 (fun i => 7 * i) = .ok (.up fs) ∧ SameShape fs fs ∧
      ¬ SameAnswer fs fs (lookupReq [47]) [47] := by
  obtain ⟨fs, hs, hval⟩ := on_started 12 (fun i => 7 * i)
    (fun fs =>
      ((run Fs.handler (serve ⟨fun _ => 0, 1⟩ (lookupReq [47])) fs).map fun p => p.1.1.status,
        (run Fs.handler (serve ⟨fun _ => 0, 5⟩ (lookupReq [47])) fs).map fun p => p.1.1.status))
    (x := (.ok resOk, .ok resError)) (by decide +kernel)
  obtain ⟨hok, herror⟩ := Prod.mk.inj hval
  refine ⟨fs, hs, ⟨fun _ => Iff.rfl, fun _ _ => rfl, fun _ _ => rfl, fun _ _ _ => rfl⟩,
    fun hanswer => ?_⟩
  obtain ⟨res, fs₁, fs₂, hrun, hrun', -⟩ := hanswer ⟨fun _ => 0, 1⟩ ⟨fun _ => 0, 5⟩
  rw [hrun] at hok
  rw [hrun'] at herror
  have hstatus : resOk = resError := (Except.ok.inj hok).symm.trans (Except.ok.inj herror)
  exact absurd hstatus (by decide)

end Sthreads.Snfs
