/-
`fs_lookup` resolves paths.

The components of a path are what is between its slashes where that is not empty.  The
tree follows the tokens that `strtok` takes, and they are the components; what it finds is
read off the state.
-/
import Sthreads.Proofs.Snfs.Unchanged

namespace Sthreads.Snfs

open Prog

/-! ### Components -/

/-- The components of a path that are not empty. -/
def components (path : List UInt8) : List (List UInt8) := (path.splitOn slash).filter (· ≠ [])

theorem splitOn_eq_splitPath (s : List UInt8) :
    ∃ rest, s.splitOn slash = (splitPath s).1 :: rest ∧
      rest.filter (· ≠ []) = (splitPath s).2 := by
  induction s with
  | nil => exact ⟨[], List.splitOn_nil slash, rfl⟩
  | cons c cs ih =>
      obtain ⟨rest, hsplit, hrest⟩ := ih
      rw [List.splitOn_cons_eq_if_modifyHead, hsplit, splitPath]
      generalize splitPath cs = p at hrest ⊢
      obtain ⟨w, ws⟩ := p
      dsimp only at hrest ⊢
      by_cases hc : c = slash
      · rw [if_pos (by simpa using hc), if_pos hc, ← hrest]
        refine ⟨w :: rest, rfl, ?_⟩
        by_cases hw : w = []
        · simp [hw]
        · simp [hw]
      · rw [if_neg (by simpa using hc), if_neg hc]
        exact ⟨rest, rfl, hrest⟩

/-- The tokens of a path are its components. -/
theorem tokens_eq_components (path : List UInt8) : tokens path = components path := by
  obtain ⟨rest, hsplit, hrest⟩ := splitOn_eq_splitPath path
  rw [tokens, components, hsplit]
  generalize splitPath path = p at hrest ⊢
  obtain ⟨w, ws⟩ := p
  dsimp only at hrest ⊢
  rw [← hrest]
  by_cases hw : w = []
  · simp [hw]
  · simp [hw]

theorem splitPath_words (s : List UInt8) :
    slash ∉ (splitPath s).1 ∧ ∀ c ∈ (splitPath s).2, c ≠ [] ∧ slash ∉ c := by
  induction s with
  | nil => exact ⟨List.not_mem_nil, fun c hc => by cases hc⟩
  | cons a s ih =>
      obtain ⟨hword, hwords⟩ := ih
      rw [splitPath]
      dsimp only
      by_cases ha : a = slash
      · rw [if_pos ha]
        refine ⟨List.not_mem_nil, fun c hc => ?_⟩
        dsimp only at hc
        split at hc
        · exact hwords c hc
        · rename_i hne
          rcases List.mem_cons.mp hc with rfl | hc
          · exact ⟨hne, hword⟩
          · exact hwords c hc
      · rw [if_neg ha]
        refine ⟨fun hc => ?_, hwords⟩
        rcases List.mem_cons.mp hc with hc | hc
        · exact ha hc.symm
        · exact hword hc

/-- Tokens are not empty and have no slash in them. -/
theorem tokens_words {s : List UInt8} : ∀ c ∈ tokens s, c ≠ [] ∧ slash ∉ c := by
  obtain ⟨hword, hwords⟩ := splitPath_words s
  intro c hc
  rw [tokens] at hc
  dsimp only at hc
  split at hc
  · exact hwords c hc
  · rename_i hne
    rcases List.mem_cons.mp hc with rfl | hc
    · exact ⟨hne, hword⟩
    · exact hwords c hc

/-- What is behind a slash has its own tokens. -/
theorem tokens_append_slash (p s : List UInt8) :
    tokens (p ++ slash :: s) = tokens p ++ tokens s := by
  have hsplit : splitPath (p ++ slash :: s) = ((splitPath p).1, (splitPath p).2 ++ tokens s) := by
    induction p with
    | nil => rfl
    | cons c cs ih =>
        rw [List.cons_append, splitPath, splitPath, ih]
        dsimp only
        by_cases hc : c = slash
        · rw [if_pos hc, if_pos hc]
          by_cases hw : (splitPath cs).1 = []
          · rw [if_pos hw, if_pos hw]
          · rw [if_neg hw, if_neg hw]
            rfl
        · rw [if_neg hc, if_neg hc]
  rw [tokens, tokens, hsplit]
  dsimp only
  by_cases hw : (splitPath p).1 = []
  · rw [if_pos hw, if_pos hw]
  · rw [if_neg hw, if_neg hw]
    rfl

/-- A name without a slash is its only token. -/
theorem tokens_name {name : List UInt8} (hne : name ≠ []) (h : slash ∉ name) :
    tokens name = [name] := by
  have hsplit : splitPath name = (name, []) := by
    clear hne
    induction name with
    | nil => rfl
    | cons c cs ih =>
        rw [List.mem_cons, not_or] at h
        rw [splitPath, ih h.2]
        exact if_neg fun hc => h.1 hc.symm
  rw [tokens, hsplit]
  exact if_neg hne

/-! ### Outcomes -/

namespace Fs

/-- Names lead from `dir` to an object, and that and the next name are so. -/
def LeadsTo (fs : Fs) (dir : Nat) (names : List (List UInt8)) (P : Nat → List UInt8 → Prop) :
    Prop :=
  ∃ before name after id, names = before ++ name :: after ∧ fs.walk dir before = some id ∧
    P id name

/-- The object is a directory and has no entry of the name. -/
def HasNo (fs : Fs) (id : Nat) (name : List UInt8) : Prop :=
  (fs.inodeOf id).itype = 1 ∧ findEntry (fs.dirEntries id) name = none

/-- The object is a file, whatever the name. -/
def IsFile (fs : Fs) (id : Nat) (_name : List UInt8) : Prop := (fs.inodeOf id).itype = 2

variable {fs : Fs} {dir : Nat} {P : Nat → List UInt8 → Prop}

theorem leadsTo_nil : ¬ fs.LeadsTo dir [] P := by
  rintro ⟨before, name, after, id, hnames, -, -⟩
  simp at hnames

/-- The next name is the first, or the first leads on. -/
theorem leadsTo_cons {name : List UInt8} {rest : List (List UInt8)} :
    fs.LeadsTo dir (name :: rest) P ↔ P dir name ∨
      ((fs.inodeOf dir).itype = 1 ∧
        ∃ id, findEntry (fs.dirEntries dir) name = some id ∧ fs.LeadsTo id rest P) := by
  constructor
  · rintro ⟨before, name', after, id, hnames, hwalk, hP⟩
    cases before with
    | nil =>
        obtain ⟨rfl, rfl⟩ := List.cons.inj hnames
        rw [walk, Option.some.injEq] at hwalk
        rw [hwalk]
        exact Or.inl hP
    | cons first before =>
        obtain ⟨rfl, hrest⟩ := List.cons.inj hnames
        rw [walk] at hwalk
        split at hwalk
        · rename_i htype
          cases hfind : findEntry (fs.dirEntries dir) name with
          | none =>
              rw [hfind] at hwalk
              cases hwalk
          | some id' =>
              rw [hfind] at hwalk
              exact Or.inr ⟨htype, id', rfl, before, name', after, id, hrest, hwalk, hP⟩
        · cases hwalk
  · rintro (hP | ⟨htype, id', hfind, before, name', after, id, rfl, hwalk, hP⟩)
    · exact ⟨[], name, rest, dir, rfl, rfl, hP⟩
    · refine ⟨name :: before, name', after, id, rfl, ?_, hP⟩
      rw [walk, if_pos htype, hfind]
      exact hwalk

end Fs

theorem Tree.walk_status (t : Tree) (names : List (List UInt8)) (dir : Nat) (last : Option Nat) :
    (t.walk dir last names).1 = 1 ∨ (t.walk dir last names).1 = 0 ∨
      (t.walk dir last names).1 = -1 := by
  induction names generalizing dir last with
  | nil => exact Or.inl rfl
  | cons name rest ih =>
      rw [Tree.walk]
      split
      · split
        · exact Or.inr (Or.inl rfl)
        · exact ih ..
      · exact Or.inr (Or.inr rfl)

/-- How a walk in the tree ends. -/
theorem Shows.walk_status {fs : Fs} {t : Tree} (h : Shows fs t) (hwf : t.WF)
    (names : List (List UInt8)) {dir : Nat} (hdir : 1 ≤ dir ∧ dir ≤ t.nodes.length)
    (last : Option Nat) :
    ((t.walk dir last names).1 = 1 ↔ ∃ id, fs.walk dir names = some id) ∧
      ((t.walk dir last names).1 = 0 ↔ fs.LeadsTo dir names fs.HasNo) ∧
      ((t.walk dir last names).1 = -1 ↔ fs.LeadsTo dir names fs.IsFile) := by
  induction names generalizing dir last with
  | nil => simp [Tree.walk, Fs.walk, Fs.leadsTo_nil]
  | cons name rest ih =>
      obtain ⟨n, hn⟩ := Tree.node_of_le hdir.1 hdir.2
      have htype := h.itype dir n hn
      rw [Tree.walk, Fs.walk, Fs.leadsTo_cons, Fs.leadsTo_cons, hn]
      simp only [Fs.HasNo, Fs.IsFile, htype]
      cases n with
      | file bytes => simp [Node.itype]
      | dir es =>
          rw [h.dir dir es hn]
          dsimp only
          cases hfind : findEntry es name with
          | none => simp [Node.itype]
          | some id =>
              obtain ⟨-, -, -, hmem⟩ := Tree.node_some hn
              have hnext := ih (hwf.ids _ hmem (name, id) (findEntry_some hfind)) (some id)
              simpa [Node.itype, hfind] using hnext

theorem Shows.walk_found {fs : Fs} {t : Tree} (h : Shows fs t) (hwf : t.WF)
    {names : List (List UInt8)} (hne : names ≠ []) {id : Nat} (hwalk : fs.walk 1 names = some id) :
    t.walk 1 none names = (1, some id) :=
  (h.walk hwf names ⟨Nat.le_refl _, hwf.length_pos⟩ none id).mpr (Or.inr ⟨hne, hwalk⟩)

/-- A path that is absolute and not too long and has a component is resolved from the root: the
answer is 1 with the object that the components lead to, 0 if some of them lead to a directory that
has no entry of the next, and -1 if some of them but the last lead to a file.  One of these is so,
and nothing changes. -/
theorem lookup_resolves {numBlocks : Nat} (hn : 10 ≤ numBlocks) {s : Fs}
    (h : Reached numBlocks s) (junk : Page 512) (file : CStr)
    (hslash : file.chars.head? = some slash) (hlen : file.chars.length < 200)
    (hne : components file.chars ≠ []) :
    ∃ status fileid s', run Fs.handler (fsLookup junk file) s = .ok ((status, fileid), s') ∧
      (status = 1 ∨ status = 0 ∨ status = -1) ∧
      (status = 1 ↔ ∃ id, s.walk 1 (components file.chars) = some id) ∧
      (∀ id, s.walk 1 (components file.chars) = some id → fileid = some id) ∧
      (status = 0 ↔ s.LeadsTo 1 (components file.chars) s.HasNo) ∧
      (status = -1 ↔ s.LeadsTo 1 (components file.chars) s.IsFile) ∧
      Unchanged s s' := by
  obtain ⟨t, ht⟩ := h.isTree hn
  have hshows := isTree_shows ht
  have hwf := isTree_wf ht
  have hval : t.lookup file.chars = .ok (t.walk 1 none (components file.chars)) := by
    rw [Tree.lookup, if_neg (by simpa using hslash), if_neg (by omega), tokens_eq_components]
  rcases isTree_unchanged ht (x := t.lookup file.chars) (p := fsLookup junk file)
    (fun A r hrep => read_lookup hrep (fun _ hid => hid) junk file (fun v hv _ => hv)
      fun e he => he) with ⟨v, s', hv, hrun, hsame⟩ | ⟨e, he, -⟩
  · rw [hval] at hv
    obtain rfl := Except.ok.inj hv
    obtain ⟨hone, hzero, hfile⟩ :=
      hshows.walk_status hwf (components file.chars) ⟨Nat.le_refl 1, hwf.length_pos⟩ none
    refine ⟨_, _, s', hrun, t.walk_status .., hone, fun id hwalk => ?_, hzero, hfile, hsame⟩
    · rw [hshows.walk_found hwf hne hwalk]
  · rw [hval] at he
    cases he

/-- A directory with a file in it, on twelve blocks: a path to the file, one to a name that is not
there, and one through the file. -/
theorem lookup_resolves_twelve_blocks :
    ∃ s, Fs.session 12 (fun i => 7 * i) (fun _ _ => 0)
        [.mkdir 1 ⟨[100], by decide⟩, .create 2 ⟨[102], by decide⟩] = .ok s ∧
      (∃ s', run Fs.handler (fsLookup (fun _ => 0) ⟨[47, 47, 100, 47, 102, 47], by decide⟩) s =
        .ok ((1, some 3), s') ∧ Unchanged s s') ∧
      (∃ fileid s', run Fs.handler (fsLookup (fun _ => 0) ⟨[47, 100, 47, 120], by decide⟩) s =
        .ok ((0, fileid), s') ∧ Unchanged s s') ∧
      ∃ fileid s', run Fs.handler
        (fsLookup (fun _ => 0) ⟨[47, 100, 47, 102, 47, 120], by decide⟩) s =
        .ok ((-1, fileid), s') ∧ Unchanged s s' := by
  have hfacts : (Fs.session 12 (fun i => 7 * i) (fun _ _ => 0)
      [.mkdir 1 ⟨[100], by decide⟩, .create 2 ⟨[102], by decide⟩]).map (fun s =>
        (s.walk 1 [[100], [102]], s.walk 1 [[100]], (s.inodeOf 2).itype,
          findEntry (s.dirEntries 2) [120], (s.inodeOf 3).itype)) =
      .ok (some 3, some 2, 1, none, 2) := by
    decide +kernel
  cases hs : Fs.session 12 (fun i => 7 * i) (fun _ _ => 0)
      [.mkdir 1 ⟨[100], by decide⟩, .create 2 ⟨[102], by decide⟩] with
  | error e =>
      rw [hs] at hfacts
      cases hfacts
  | ok s =>
      rw [hs] at hfacts
      have hval := Except.ok.inj hfacts
      simp only [Prod.mk.injEq] at hval
      obtain ⟨hfile, hdir, htype, hfind, htype'⟩ := hval
      have hreached := Reached.session (by simp [Call.Ok]) hs
      have hlookup := fun file => lookup_resolves (by decide : 10 ≤ 12) hreached (fun _ => 0) file
      refine ⟨s, rfl, ?_, ?_, ?_⟩
      · obtain ⟨status, fileid, s', hrun, -, hone, hid, -, -, hsame⟩ :=
          hlookup ⟨[47, 47, 100, 47, 102, 47], by decide⟩ rfl (by decide) (by decide)
        obtain rfl := hone.mpr ⟨3, hfile⟩
        obtain rfl := hid 3 hfile
        exact ⟨s', hrun, hsame⟩
      · obtain ⟨status, fileid, s', hrun, -, -, -, hzero, -, hsame⟩ :=
          hlookup ⟨[47, 100, 47, 120], by decide⟩ rfl (by decide) (by decide)
        obtain rfl := hzero.mpr ⟨[[100]], [120], [], 2, rfl, hdir, htype, hfind⟩
        exact ⟨fileid, s', hrun, hsame⟩
      · obtain ⟨status, fileid, s', hrun, -, -, -, -, hminus, hsame⟩ :=
          hlookup ⟨[47, 100, 47, 102, 47, 120], by decide⟩ rfl (by decide) (by decide)
        obtain rfl := hminus.mpr ⟨[[100], [102]], [120], [], 3, rfl, hfile, htype'⟩
        exact ⟨fileid, s', hrun, hsame⟩

end Sthreads.Snfs
