/-
The indices that the handling of a request uses are in range, if its path is short.

Where the file system's functions would leave an array, the programs halt: in `line`, in
the blocks of an inode, in the bitmaps, in `inode_tab` and in `entries`.  How far the arrays
of the messages are used is seen from what the handlers return and from what they depend on.
In a tree only `line` can be left, and it is by every absolute path of 200 characters or more.
-/
import Sthreads.Proofs.Snfs.Requests
import Sthreads.Proofs.Client.Marshalling

namespace Sthreads.Snfs

open Prog

/-- An absolute path is short enough for `line`. -/
def Args.ShortPath : Args → Prop
  | lookup file => file.chars.head? = some slash → file.chars.length < 200
  | _ => True

def Req.ShortPath (req : Req) : Prop := ∀ a, Args.ofReq req = some a → a.ShortPath

/-- What a handler does with its arguments is in the bounds of the arrays. -/
structure Fs.ArgsInBounds (fs : Fs) (stack : Stack) (a : Args) : Prop where
  /-- `line`, `blocks`, `inode_tab`, the bitmaps, the blocks and `entries` -/
  arrays : ∀ e, run Fs.handler (a.handler stack) fs = .error e → e = .exit
  /-- `res.body.read.data` -/
  data : ∀ bytes nread fs',
    run Fs.handler (a.handler stack) fs = .ok (some (.read bytes nread), fs') →
      bytes.length ≤ 1024
  /-- `res.body.readdir.list` -/
  list : ∀ es fs', run Fs.handler (a.handler stack) fs = .ok (some (.readdir es), fs') →
    es.length ≤ 64
  /-- `req.body.write.data` -/
  buffer : ∀ file offset count data data', a = .write file offset count data →
    (∀ i, i < 1024 → data' i = data i) →
      run Fs.handler ((Args.write file offset count data').handler stack) fs =
        run Fs.handler (a.handler stack) fs
  /-- `name` of `create` and `file` of `mkdir` -/
  name : ∀ dir name, a = .create dir name ∨ a = .mkdir dir name → name.chars.length < 14
  /-- `entries[ientry].name` -/
  names : ∀ dir maxentries, a = .readdir dir maxentries → ∀ status es fs',
    run Fs.handler (fsReaddir stack.page dir (asInt maxentries)) fs = .ok ((status, some es), fs') →
      es.length ≤ 64 ∧ ∀ e ∈ es, e.1.length < 14

/-- The request is handled without an index that is out of range. -/
def ServerState.InBounds : ServerState → Stack × Req → Prop
  | .up fs, (stack, req) => ∀ a, Args.ofReq req = some a → fs.ArgsInBounds stack a
  | .ended _, _ => True

/-! ### What a write reads -/

section

variable {buffer buffer' : Nat → UInt8} {count : Nat} (h : ∀ i, i < count → buffer' i = buffer i)

include h

theorem copyIn_congr (block : Page 512) (start num : Nat) :
    copyIn block buffer' start num count = copyIn block buffer start num count := by
  unfold copyIn
  refine Prod.ext (funext fun k => ?_) rfl
  dsimp only
  split
  · exact h _ (by omega)
  · rfl

theorem writeWithin_congr (ifile offset : Nat) : ∀ (left iblock num : Nat) (block : Page 512),
    writeWithin ifile offset count buffer' left iblock num block =
      writeWithin ifile offset count buffer left iblock num block := by
  intro left
  induction left with
  | zero => exact fun _ _ _ => rfl
  | succ left ih =>
      intro iblock num block
      rw [writeWithin, writeWithin]
      split
      · refine congrArg _ (funext fun b => congrArg _ (funext fun block => ?_))
        dsimp only
        rw [copyIn_congr h]
        exact congrArg _ (funext fun _ => ih ..)
      · rfl

theorem writeNew_congr (ifile : Nat) : ∀ (left iblock num : Nat) (block : Page 512),
    writeNew ifile count buffer' left iblock num block =
      writeNew ifile count buffer left iblock num block := by
  intro left
  induction left with
  | zero => exact fun _ _ _ => rfl
  | succ left ih =>
      intro iblock num block
      rw [writeNew, writeNew]
      split
      · refine congrArg _ (funext fun b => ?_)
        rw [copyIn_congr h]
        exact congrArg _ (funext fun _ => ih ..)
      · rfl

end

/-- `fs_write` reads `count` bytes of its buffer. -/
theorem fsWrite_congr {buffer buffer' : Nat → UInt8} {count : Nat} (hcount : count ≤ 1024)
    (h : ∀ i, i < count → buffer' i = buffer i) (junk : Page 512) (file offset : Nat) :
    fsWrite junk file offset count buffer' = fsWrite junk file offset count buffer := by
  have hint : (asInt count).toNat = count := by
    rw [asInt_of_lt (by omega)]
    rfl
  have hdata : ∀ ifile offset blksUsed blksReq,
      writeData junk ifile file offset count blksUsed blksReq buffer' =
        writeData junk ifile file offset count blksUsed blksReq buffer := by
    intro ifile offset blksUsed blksReq
    rw [writeData, writeData, hint, writeWithin_congr h]
    refine congrArg _ (funext fun r => ?_)
    obtain ⟨iblock, num, block⟩ := r
    dsimp only
    rw [writeNew_congr h]
  rw [fsWrite, fsWrite]
  simp only [hdata]

/-! ### What a request holds -/

/-- A string ends at its first zero. -/
theorem strAt_length_of_zero {n : Nat} (page : Page n) : ∀ (len off k : Nat), page.get (off + k) = 0 →
    (strAt page off len).length ≤ k := by
  intro len
  induction len with
  | zero => exact fun _ _ _ => Nat.zero_le _
  | succ len ih =>
      intro off k hzero
      rw [strAt]
      split
      · exact Nat.zero_le _
      · rename_i hne
        cases k with
        | zero => exact absurd hzero hne
        | succ k =>
            refine Nat.succ_le_succ (ih (off + 1) k ?_)
            rw [Nat.add_assoc, Nat.add_comm 1 k]
            exact hzero

/-- The name that `snfs_create` and `snfs_mkdir` end. -/
theorem name_length (b : Page 1036) : ((b.set 17 0).cstr 4).chars.length < 14 := by
  refine Nat.lt_succ_of_le (strAt_length_of_zero _ _ _ 13 ?_)
  rw [Page.get_set, if_pos (by omega)]

theorem ofReq_name {req : Req} {a : Args} (h : Args.ofReq req = some a) {dir : Nat} {name : CStr}
    (ha : a = .create dir name ∨ a = .mkdir dir name) : name.chars.length < 14 := by
  unfold Args.ofReq at h
  split at h
  case h_5 =>
    obtain rfl := Option.some.inj h
    rcases ha with ha | ha
    · obtain ⟨-, rfl⟩ := Args.create.inj ha
      exact name_length _
    · cases ha
  case h_6 =>
    obtain rfl := Option.some.inj h
    rcases ha with ha | ha
    · cases ha
    · obtain ⟨-, rfl⟩ := Args.mkdir.inj ha
      exact name_length _
  case h_9 => cases h
  all_goals
    obtain rfl := Option.some.inj h
    rcases ha with ha | ha <;> cases ha

/-! ### In a tree -/

section

variable {numBlocks : Nat} {fs : Fs} {t : Tree} {stack : Stack} {a : Args} {req : Req}

/-- Where a handler halts in a tree, without an overrun of `line`. -/
theorem Tree.handler_error {e : Halt} (hshort : a.ShortPath) (h : t.handler stack a = .error e) :
    e = .exit := by
  obtain ⟨file, rfl, hans⟩ := Tree.lookup_of_error h
  obtain ⟨hhead, ⟨-, hlong⟩ | ⟨hexit, -⟩⟩ := Tree.answer_error hans
  · have hlen := hshort hhead
    omega
  · exact hexit

/-- The names in a listing fit in the arrays for them. -/
theorem Tree.readdir_names (hwf : t.WF) {dir : Nat} {maxentries status : Int}
    {es : List (List UInt8 × Nat)} (h : t.readdir dir maxentries = (status, some es)) :
    ∀ e ∈ es, e.1.length < 14 := by
  rw [Tree.readdir] at h
  split at h
  · rename_i entries hnode
    obtain ⟨-, -, -, hmem⟩ := Tree.node_some hnode
    split at h
    · cases (Prod.mk.inj h).2
    · intro e he
      rw [← Option.some.inj (Prod.mk.inj h).2] at he
      obtain ⟨e', he', rfl⟩ := List.mem_map.mp he
      exact Nat.lt_succ_of_le (hwf.names _ hmem e' (List.mem_of_mem_take he')).1
  · cases (Prod.mk.inj h).2

/-- A request with a short path is handled in the bounds. -/
theorem argsInBounds (ht : IsTree CachedRel numBlocks fs t) (hargs : Args.ofReq req = some a)
    (hpage : fs.OnePage a) (hshort : a.ShortPath) : fs.ArgsInBounds stack a := by
  refine ⟨fun e he => ?_, fun bytes nread fs' hrun => ?_, fun es fs' hrun => ?_, ?_,
    fun dir name ha => ofReq_name hargs ha, ?_⟩
  · rcases isTree_handler cached_sound cached_forgets ht stack (hpage.tree ht) with
      ⟨r, t', s', -, hrun, -⟩ | ⟨e', htree, hrun⟩
    · rw [hrun] at he
      cases he
    · rw [hrun] at he
      obtain rfl := Except.error.inj he
      exact Tree.handler_error hshort htree
  · have hgives := (Client.handler_gives stack a).run hrun _ rfl
    cases a with
    | read file offset count => exact hgives.2.1.trans hgives.2.2
    | _ => exact hgives.elim
  · have hgives := (Client.handler_gives stack a).run hrun _ rfl
    cases a with
    | readdir dir maxentries => exact hgives
    | _ => exact hgives.elim
  · rintro file offset count data data' rfl hsame
    change run _ (snfsWrite stack file offset count data') fs =
      run _ (snfsWrite stack file offset count data) fs
    rw [snfsWrite, snfsWrite]
    split
    · rfl
    · rename_i hcount
      rw [fsWrite_congr (by omega) fun i hi => hsame i (by omega)]
  · rintro dir maxentries rfl status es fs' hrun
    have hwf := isTree_wf ht
    rcases isTree_read cached_sound cached_forgets ht
      (p := fsReaddir stack.page dir (asInt maxentries))
      (x := .ok (t.readdir dir (asInt maxentries))) (fun A r hrep =>
        read_readdir hrep stack.page dir (asInt maxentries) (fun _ h _ => h) (hpage.tree ht)
          fun _ => rfl) with ⟨v, s', hv, hrun', -⟩ | ⟨e, he, -⟩
    · rw [hrun] at hrun'
      obtain ⟨rfl, -⟩ := Prod.mk.inj (Except.ok.inj hrun')
      have hdir := Except.ok.inj hv
      have hlen := ((t.readdir_some hwf hdir).2 es rfl).1
      exact ⟨by omega, Tree.readdir_names hwf hdir⟩
    · cases he

/-- A longer path is not. -/
theorem line_overrun {file : CStr} (hargs : Args.ofReq req = some (.lookup file))
    (hlong : ¬ (Args.lookup file).ShortPath) : ¬ (ServerState.up fs).InBounds (stack, req) := by
  intro hbounds
  have hhead : ¬ file.chars.head? ≠ some slash := fun hne => hlong fun h => absurd h hne
  have hlen : file.chars.length + 1 > 200 := by
    by_contra hle
    exact hlong fun _ => by omega
  have hrun : run Fs.handler ((Args.lookup file).handler stack) fs = .error .lineOverrun := by
    change run Fs.handler (fsLookup stack.page file >>= _) fs = _
    rw [run_bind, fsLookup, if_neg hhead, if_pos hlen]
    rfl
  cases (hbounds _ hargs).arrays _ hrun

theorem inBounds_iff (ht : IsTree CachedRel numBlocks fs t)
    (hpage : (ServerState.up fs).OnePage (stack, req)) :
    (ServerState.up fs).InBounds (stack, req) ↔ req.ShortPath := by
  constructor
  · intro hbounds a ha
    by_contra hlong
    cases a with
    | lookup file => exact line_overrun ha hlong hbounds
    | _ => exact hlong trivial
  · exact fun hshort a ha => argsInBounds ht ha (hpage a ha) (hshort a ha)

end

/-- In every run of the server in which no listing takes more than one page, all requests are
handled in the bounds exactly if all of their paths are short. -/
theorem requests_in_bounds_iff {numBlocks : Nat} (hn : 10 ≤ numBlocks) {readings : Nat → Int}
    {s₀ s : ServerState} (hinit : snfsInit numBlocks readings = .ok s₀)
    {tr : List (ServerState × (Stack × Req))} (h : Run ServerState.step s₀ tr s)
    (hpages : ∀ p ∈ tr, p.1.OnePage p.2) :
    (∀ p ∈ tr, p.1.InBounds p.2) ↔ ∀ p ∈ tr, p.2.2.ShortPath := by
  have hone : ∀ p ∈ tr, p.1.InBounds p.2 ↔ p.2.2.ShortPath := by
    rintro ⟨s₁, stack, req⟩ hp
    obtain ⟨tr₁, tr₂, rfl⟩ := List.append_of_mem hp
    obtain ⟨hrun, s₂, hstep, -⟩ := h.split_at
    cases s₁ with
    | ended e => cases hstep
    | up fs =>
        obtain ⟨t, ht⟩ := isTree_server hn hinit hrun fun q hq =>
          hpages q (List.mem_append_left _ hq)
        exact inBounds_iff ht (hpages _ hp)
  exact ⟨fun hall p hp => (hone p hp).mp (hall p hp), fun hall p hp => (hone p hp).mpr (hall p hp)⟩

/-- A file is created in a new server and looked up. -/
theorem requests_in_bounds_iff_two_requests :
    ∃ s₀ s₁ s₂, snfsInit 12 (fun i => 7 * i) = .ok s₀ ∧
      s₀.step (⟨fun _ => 0, 0⟩, createReq 5 1 [102]) = some s₁ ∧
      s₁.step (⟨fun _ => 0, 0⟩, lookupReq [47, 102]) = some s₂ ∧
      s₀.InBounds (⟨fun _ => 0, 0⟩, createReq 5 1 [102]) ∧
      s₁.InBounds (⟨fun _ => 0, 0⟩, lookupReq [47, 102]) := by
  have hfacts : (snfsInit 12 (fun i => 7 * i)).map (fun s₀ =>
      (s₀.step (⟨fun _ => 0, 0⟩, createReq 5 1 [102])).map fun s₁ =>
        (s₁.step (⟨fun _ => 0, 0⟩, lookupReq [47, 102])).isSome) = .ok (some true) := by
    decide +kernel
  obtain ⟨s₀, hs, hfacts⟩ := except_map_ok hfacts
  obtain ⟨s₁, hstep₁, hval⟩ := Option.map_eq_some_iff.mp hfacts
  obtain ⟨s₂, hstep₂⟩ := Option.isSome_iff_exists.mp hval
  have hall := (requests_in_bounds_iff (by decide) hs ((Run.nil.snoc hstep₁).snoc hstep₂)
    fun p hp => ?_).mpr fun p hp => ?_
  · exact ⟨s₀, s₁, s₂, hs, hstep₁, hstep₂, hall (s₀, _) (by simp), hall (s₁, _) (by simp)⟩
  · obtain rfl | rfl : p = _ ∨ p = _ := by simpa using hp
    · exact ServerState.onePage_of_type _ _ (by decide)
    · exact ServerState.onePage_of_type _ _ (by decide)
  · obtain rfl | rfl : p = _ ∨ p = _ := by simpa using hp
    · intro a ha
      obtain rfl := Option.some.inj ha
      trivial
    · intro a ha
      obtain rfl := Option.some.inj ha
      intro _
      have hlen : ((lookupReq [47, 102]).body.cstr 0).chars.length = 2 := by decide
      exact hlen ▸ by decide

/-- A path of 200 characters, which is followed by a zero, does not fit in `line`. -/
theorem long_path_overruns_line :
    ∃ s₀, snfsInit 12 (fun i => 7 * i) = .ok s₀ ∧
      ¬ s₀.InBounds (⟨fun _ => 0, 0⟩, lookupReq (47 :: List.replicate 199 97)) := by
  have hfacts : (snfsInit 12 (fun i => 7 * i)).map (fun s₀ => s₀.fs?.isSome) = .ok true := by
    decide +kernel
  have hhead : ((lookupReq (47 :: List.replicate 199 97)).body.cstr 0).chars.head? =
      some slash := by
    decide +kernel
  have hlen : ((lookupReq (47 :: List.replicate 199 97)).body.cstr 0).chars.length = 200 := by
    decide +kernel
  obtain ⟨s₀, hs, hfacts⟩ := except_map_ok hfacts
  obtain ⟨fs, hfs⟩ := Option.isSome_iff_exists.mp hfacts
  obtain rfl := ServerState.eq_of_fs? hfs
  refine ⟨_, hs, line_overrun rfl fun hshort => ?_⟩
  have hlt := hshort hhead
  omega

end Sthreads.Snfs
