/-
What the calls of a client do to the tree of its server.

A call is answered as the tree says, of what arrives of its arguments.  This is a
specification of the calls in the sense of `Prog`: with `Answered` they all return, with
`Served` they need not.
-/
import Sthreads.Client.Myfs
import Sthreads.Proofs.Client.Marshalling
import Sthreads.Proofs.Snfs.Exits

namespace Sthreads.Client

open Snfs Prog

/-- The server's file system is this tree. -/
def Server.IsTree (numBlocks : Nat) (s : Server) (t : Tree) : Prop :=
  Snfs.IsTree CachedRel numBlocks s.fs t

/-- The call can be sent, and gets all of its results whatever the tree is. -/
structure ApiCall.Simple (c : ApiCall) : Prop where
  sendable : c.Sendable
  asksAll : c.AsksAll
  onePage : ∀ t, c.args.OnePage t

/-- What a call returns if the server does not end. -/
def Served : Spec ApiCall (fun _ => Option Results × UInt32) Tree := fun c Q t =>
  c.Simple ∧ ∀ stack r t', t.handler stack c.args = .ok (r, t') → ∀ file, Q (r, file) t'

/-- The server does not end, and the call returns. -/
def Answered : Spec ApiCall (fun _ => Option Results × UInt32) Tree := fun c Q t =>
  (∀ stack, ∃ x, t.handler stack c.args = .ok x) ∧ Served c Q t

theorem served_mono : Served.Mono :=
  fun _ _ _ hQ _ h => ⟨h.1, fun stack r t' ht file => hQ _ _ (h.2 stack r t' ht file)⟩

theorem answered_mono : Answered.Mono :=
  fun o _ _ hQ x h => ⟨h.1, served_mono o _ _ hQ x h.2⟩

theorem wp_served {H : Halt → Prop} {α : Type} {p : ApiM α} {Q : α → Tree → Prop} {t : Tree}
    (h : wp Answered H p Q t) : wp Served H p Q t :=
  wp_of_spec served_mono (fun h => h.2) p t h

section

variable {numBlocks : Nat} {s : Server} {t : Tree}

/-- A call is answered as the tree says, if it lists one page at most. -/
theorem rpc_tree_of (ht : s.IsTree numBlocks t) {c : ApiCall} (hsend : c.Sendable)
    (hask : c.AsksAll) (hpage : c.args.OnePage t) :
    (∃ r t' file s', t.handler (s.stackOf s.calls) c.args = .ok (r, t') ∧
      s.rpc c = .ok ((r, file), s') ∧ s'.IsTree numBlocks t') ∨
      ∃ e, t.handler (s.stackOf s.calls) c.args = .error e ∧ s.rpc c = .error e := by
  have hreq := ofReq_received hsend s.nextSn
  have hserve : run Fs.handler (serve (s.stackOf s.calls)
      (received c.reqSize (c.request s.nextSn))) s.fs =
        match run Fs.handler (c.args.handler (s.stackOf s.calls)) s.fs with
        | .ok (r, fs') => .ok (({ (respond c.args r).1 with sn := s.nextSn },
            (respond c.args r).2), fs')
        | .error e => .error e := by
    rw [serve, hreq]
    dsimp only
    rw [run_bind]
    cases run Fs.handler (c.args.handler (s.stackOf s.calls)) s.fs <;> rfl
  rcases isTree_handler cached_sound cached_forgets ht (s.stackOf s.calls) hpage with
    ⟨r, t', fs', hans, hrun, ht'⟩ | ⟨e, hans, hrun⟩
  · rw [hrun] at hserve
    have hback := returned_respond hask hrun (s.there s.calls)
    let got := delivered (respond c.args r).2 (respond c.args r).1 (s.there s.calls)
    refine Or.inl ⟨r, t', failedFile got,
      { s with fs := fs', calls := s.calls + 1, nextSn := intSucc s.nextSn }, hans, ?_, ht'⟩
    rw [Server.rpc]
    dsimp only
    rw [hserve, except_ok_bind]
    change Except.ok ((c.returned got, failedFile got), _) = _
    rw [hback]
  · rw [hrun] at hserve
    refine Or.inr ⟨e, hans, ?_⟩
    rw [Server.rpc]
    dsimp only
    rw [hserve]
    rfl

/-- A call is answered as the tree says. -/
theorem rpc_tree (ht : s.IsTree numBlocks t) {c : ApiCall} (hc : c.Simple) :
    (∃ r t' file s', t.handler (s.stackOf s.calls) c.args = .ok (r, t') ∧
      s.rpc c = .ok ((r, file), s') ∧ s'.IsTree numBlocks t') ∨
      ∃ e, t.handler (s.stackOf s.calls) c.args = .error e ∧ s.rpc c = .error e :=
  rpc_tree_of ht hc.sendable hc.asksAll (hc.onePage t)

theorem served_sound : SoundIfOk Server.rpc Served (Server.IsTree numBlocks) := by
  intro c s t Q x s' ht hspec hrun
  rcases rpc_tree ht hspec.1 with ⟨r, t', file, s'', hans, hrun', ht'⟩ | ⟨e, -, hrun'⟩
  · rw [hrun', Except.ok.injEq, Prod.mk.injEq] at hrun
    obtain ⟨rfl, rfl⟩ := hrun
    exact ⟨t', ht', hspec.2 _ r t' hans file⟩
  · rw [hrun'] at hrun
    cases hrun

theorem answered_sound : Sound Server.rpc Answered (Server.IsTree numBlocks) := by
  intro c s t Q ht hspec
  rcases rpc_tree ht hspec.2.1 with ⟨r, t', file, s', hans, hrun, ht'⟩ | ⟨e, hans, -⟩
  · exact ⟨_, s', t', hrun, ht', hspec.2.2 _ r t' hans file⟩
  · obtain ⟨x, hx⟩ := hspec.1 (s.stackOf s.calls)
    rw [hx] at hans
    cases hans

end

/-! ### The calls of the library -/

theorem ofNat_toNat {n : Nat} (h : n < 2 ^ 32) : (UInt32.ofNat n).toNat = n :=
  UInt32.toNat_ofNat_of_lt' h

theorem inodeid_ofNat {n : Nat} (h : n < 2 ^ 16) : Args.inodeid (.ofNat n) = n := by
  rw [Args.inodeid, ofNat_toNat (by omega), Nat.mod_eq_of_lt h]

section

variable {t t' : Tree} {H : Halt → Prop}

/-- A write depends on the bytes it writes. -/
theorem Tree.write_congr {file offset count : Nat} {buffer buffer' : Nat → UInt8}
    (h : ∀ i, i < count → buffer i = buffer' i) :
    t.write file offset count buffer = t.write file offset count buffer' := by
  have hdata : (List.range count).map buffer = (List.range count).map buffer' :=
    List.map_congr_left fun i hi => h i (List.mem_range.mp hi)
  rw [Tree.write, Tree.write]
  simp only [Tree.overwrite, hdata]

/-- The arguments of a write that arrive -/
theorem args_write {fhandle offset count : Nat} (hoffset : offset < 2 ^ 32)
    (hcount : count < 2 ^ 32) (buffer : Nat → UInt8) :
    (ApiCall.write (.ofNat fhandle) (.ofNat offset) (.ofNat count) buffer).args =
      .write (Args.inodeid (.ofNat fhandle)) offset count
        fun i => if i < count then buffer i else 0 := by
  rw [ApiCall.args, ofNat_toNat hoffset, ofNat_toNat hcount]

theorem simple_write (fhandle offset : UInt32) {count : Nat} (hcount : count ≤ 1024)
    (buffer : Nat → UInt8) : (ApiCall.write fhandle offset (.ofNat count) buffer).Simple :=
  ⟨by rw [ApiCall.Sendable, ofNat_toNat (by omega)]; exact hcount, trivial, fun _ => trivial⟩

/-- A write that the tree does -/
theorem answered_write {file offset count : Nat} (hfile : file < 2 ^ 16) (hoffset : offset < 2 ^ 32)
    (hcount : count ≤ 1024) {buffer : Nat → UInt8} {bytes : List UInt8}
    (hwrite : t.write file offset count buffer = (0, t'))
    (hnode : t'.node file = some (.file bytes)) (hlen : bytes.length < 2 ^ 32)
    {Q : Option Nat → Tree → Prop} (hq : Q (some bytes.length) t') :
    wp Answered H (snfsWrite file offset count buffer) Q t := by
  have hans : ∀ stack, t.handler stack (ApiCall.write (.ofNat file) (.ofNat offset) (.ofNat count)
      buffer).args = .ok (some (.write (.ofNat bytes.length)), t') := by
    intro stack
    rw [args_write hoffset (by omega), inodeid_ofNat hfile, Tree.handler, if_neg (by omega),
      @Tree.write_congr t file offset count _ buffer (fun i hi => if_pos hi), hwrite]
    dsimp only
    rw [if_neg (by decide), hnode]
    rfl
  refine ⟨fun stack => ⟨_, hans stack⟩, simple_write _ _ hcount buffer,
    fun stack r t'' hr there => ?_⟩
  obtain ⟨rfl, rfl⟩ := Prod.mk.inj (Except.ok.inj ((hans stack).symm.trans hr))
  change Q (some (UInt32.ofNat bytes.length).toNat) t'
  rwa [ofNat_toNat hlen]

/-- A write of one object leaves the others. -/
theorem Tree.write_other {file offset count : Nat} {buffer : Nat → UInt8} {id : Nat}
    (hid : id ≠ file) : (t.write file offset count buffer).2.node id = t.node id := by
  rcases t.write_cases file offset count buffer with ⟨free, hw⟩ | ⟨bytes, free, hnode, -, -, hw⟩
  · rw [hw]
    rfl
  · obtain ⟨hpos, hle, -, -⟩ := Tree.node_some hnode
    rw [hw]
    exact (Tree.node_setNode hpos hle _ id).trans (if_neg hid)

/-- A write to another handle -/
theorem served_write {fhandle offset count : Nat} (hcount : count ≤ 1024) {buffer : Nat → UInt8}
    {id : Nat} {n : Node} (hid : id ≠ Args.inodeid (.ofNat fhandle)) (hnode : t.node id = some n)
    {Q : Option Nat → Tree → Prop} (hq : ∀ r t', t'.node id = some n → Q r t') :
    wp Served H (snfsWrite fhandle offset count buffer) Q t := by
  refine ⟨simple_write _ _ hcount buffer, fun stack r t' hr there => ?_⟩
  have hkeep : t'.node id = some n := by
    rw [ApiCall.args, Tree.handler] at hr
    split at hr
    · obtain ⟨-, rfl⟩ := Prod.mk.inj (Except.ok.inj hr)
      exact hnode
    · obtain ⟨-, rfl⟩ := Prod.mk.inj (Except.ok.inj hr)
      exact (Tree.write_other hid).trans hnode
  rcases r with _ | x
  · exact hq none t' hkeep
  · cases x <;> exact hq _ t' hkeep

/-- A read of a file -/
theorem answered_read {file offset count : Nat} (hfile : file < 2 ^ 16) (hoffset : offset < 2 ^ 32)
    (hcount : count ≤ 1024) {bytes : List UInt8} (hnode : t.node file = some (.file bytes))
    {Q : Option (List UInt8 × Nat) → Tree → Prop}
    (hq : Q (some ((bytes.drop offset).take count, ((bytes.drop offset).take count).length)) t) :
    wp Answered H (snfsRead file offset count) Q t := by
  have hans : ∀ stack, t.handler stack (ApiCall.read (.ofNat file) (.ofNat offset)
      (.ofNat count)).args = .ok (some (.read ((bytes.drop offset).take count)
        (.ofNat ((bytes.drop offset).take count).length)), t) := by
    intro stack
    rw [ApiCall.args, ofNat_toNat hoffset, ofNat_toNat (by omega), inodeid_ofNat hfile,
      Tree.handler, Tree.answer, if_neg (by omega), Tree.read, hnode]
    · rfl
    all_goals
      intros
      contradiction
  refine ⟨fun stack => ⟨_, hans stack⟩, ⟨trivial, trivial, fun _ => trivial⟩,
    fun stack r t'' hr there => ?_⟩
  obtain ⟨rfl, rfl⟩ := Prod.mk.inj (Except.ok.inj ((hans stack).symm.trans hr))
  change Q (some (_, (UInt32.ofNat _).toNat)) t
  rwa [ofNat_toNat (by simp; omega)]

/-- What a lookup that succeeds has found: an object, unless `fileid` was not written. -/
theorem Tree.answer_lookup_some {stack : Stack} {file : CStr} {x : Results}
    (h : t.answer stack (.lookup file) = .ok (some x)) :
    ∃ fileid n, t.lookup file.chars = .ok (1, fileid) ∧
      t.node (fileid.getD stack.fileid.toNat) = some n ∧
      x = .lookup (.ofNat (fileid.getD stack.fileid.toNat)) (.ofNat n.size) := by
  cases hlookup : t.lookup file.chars with
  | error e =>
      rw [Tree.answer, hlookup] at h
      cases h
  | ok v =>
      obtain ⟨found, fileid⟩ := v
      rw [Tree.answer_lookup hlookup] at h
      split at h
      · cases h
      rename_i hfound
      obtain rfl : found = 1 := by omega
      refine ⟨fileid, ?_⟩
      generalize fileid.getD stack.fileid.toNat = id at h
      rw [Tree.getAttrs] at h
      split at h
      · cases h
      · split at h
        · cases h
        · rename_i n hnode
          exact ⟨n, rfl, hnode, (Option.some.inj (Except.ok.inj h)).symm⟩

/-- A lookup changes nothing. -/
theorem served_lookup {pathname : CStr} (hlen : pathname.chars.length < 200)
    {Q : Bool × UInt32 × Option UInt32 → Tree → Prop}
    (hfound : ∀ (stack : Stack) fileid n,
      t.lookup (pathname.take 14).chars = .ok (1, fileid) →
      t.node (fileid.getD stack.fileid.toNat) = some n →
      Q (true, .ofNat (fileid.getD stack.fileid.toNat), some (.ofNat n.size)) t)
    (hnot : ∀ (stack : Stack) file, t.answer stack (.lookup (pathname.take 14)) = .ok none →
      Q (false, file, none) t) :
    wp Served H (snfsLookup pathname) Q t := by
  refine ⟨⟨hlen, trivial, fun _ => trivial⟩, fun stack r t' hr there => ?_⟩
  change (t.answer stack (.lookup (pathname.take 14))).map (fun r => (r, t)) = _ at hr
  cases hans : t.answer stack (.lookup (pathname.take 14)) with
  | error e =>
      rw [hans] at hr
      cases hr
  | ok x =>
      rw [hans] at hr
      obtain ⟨rfl, rfl⟩ := Prod.mk.inj (Except.ok.inj hr)
      rcases x with _ | x
      · exact hnot stack there hans
      · obtain ⟨fileid, n, hlookup, hnode, rfl⟩ := Tree.answer_lookup_some hans
        exact hfound stack fileid n hlookup hnode

end

end Sthreads.Client
