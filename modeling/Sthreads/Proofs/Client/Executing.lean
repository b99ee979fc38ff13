/-
What a server holds is what it has executed.

The creations that succeeded give the objects, in their order, and the writes to a file that
succeeded its bytes, in theirs.  How the creations and the writes were interleaved, and what
the calls were that failed, does not matter.
-/
import Sthreads.Client.Replicas
import Sthreads.Proofs.Snfs.Requests

namespace Sthreads.Client

open Snfs Prog

/-! ### What was executed -/

/-- The directory, the name and the object of a creation that succeeded. -/
def Executed.creation? (e : Executed) : Option (Nat × List UInt8 × Node) :=
  if e.status = resOk then
    match e.args with
    | .create dir name => some (dir, name.chars, .file [])
    | .mkdir dir f => some (dir, f.chars, .dir [])
    | _ => none
  else none

/-- The offset, the length and the bytes of a write to this file that succeeded. -/
def Executed.write? (file : Nat) (e : Executed) : Option (Nat × Nat × (Nat → UInt8)) :=
  if e.status = resOk then
    match e.args with
    | .write f offset count data => if f = file then some (offset, count, data) else none
    | _ => none
  else none

/-- A creation, as far as it does not depend on what is in files. -/
def addObject (nodes : List Node) (x : Nat × List UInt8 × Node) : List Node :=
  (match nodes[x.1 - 1]? with
  | some (.dir es) => nodes.set (x.1 - 1) (.dir (es ++ [(x.2.1, nodes.length + 1)]))
  | _ => nodes) ++ [x.2.2]

/-- A write. -/
def overwriteWith (bytes : List UInt8) (x : Nat × Nat × (Nat → UInt8)) : List UInt8 :=
  Tree.overwrite bytes (min x.1 bytes.length) x.2.1 x.2.2

/-- An object without what is in it, if it is a file. -/
def emptied : Node → Node
  | .dir es => .dir es
  | .file _ => .file []

/-- The tree is what was executed. -/
structure Explains (t : Tree) (L : List Executed) : Prop where
  objects : t.nodes.map emptied = (L.filterMap Executed.creation?).foldl addObject [.dir []]
  bytes : ∀ id b, t.node id = some (.file b) →
    b = (L.filterMap (Executed.write? id)).foldl overwriteWith []
  /-- Nothing was written to a file before it was created. -/
  created : ∀ id, t.nodes.length < id → L.filterMap (Executed.write? id) = []

theorem Explains.init (free : Nat) : Explains (.init free) [] := by
  refine ⟨rfl, fun id b hnode => ?_, fun _ _ => rfl⟩
  obtain ⟨-, -, -, hmem⟩ := Tree.node_some hnode
  cases List.mem_singleton.mp hmem

section

variable {t t' : Tree} {L : List Executed} {e : Executed}

/-- A call that changed nothing. -/
theorem Explains.nothing (h : Explains t L) (hcreation : e.creation? = none)
    (hwrite : ∀ file, e.write? file = none) (hnodes : t'.nodes = t.nodes) :
    Explains t' (L ++ [e]) := by
  have hnode : ∀ id, t'.node id = t.node id := fun id => by rw [Snfs.Tree.node, Snfs.Tree.node, hnodes]
  refine ⟨?_, fun id b hb => ?_, fun id hid => ?_⟩
  · rw [hnodes, h.objects, List.filterMap_append, List.filterMap_cons_none hcreation,
      List.filterMap_nil, List.append_nil]
  · rw [hnode] at hb
    rw [h.bytes id b hb, List.filterMap_append, List.filterMap_cons_none (hwrite id),
      List.filterMap_nil, List.append_nil]
  · rw [hnodes] at hid
    rw [List.filterMap_append, List.filterMap_cons_none (hwrite id), h.created id hid]
    rfl

/-- A creation that succeeded. -/
theorem Explains.create (h : Explains t L) {dir free : Nat} {name : List UInt8} {new : Node}
    {entries : List (List UInt8 × Nat)} (hnew : new.size = 0)
    (hcreation : e.creation? = some (dir, name, new)) (hwrite : ∀ file, e.write? file = none)
    (hdir : t.node dir = some (.dir entries)) :
    Explains ⟨free, (t.setNode dir (.dir (entries ++ [(name, t.nodes.length + 1)]))).nodes ++
      [new]⟩ (L ++ [e]) := by
  obtain ⟨hpos, hle, hget, -⟩ := Tree.node_some hdir
  have hwrites : ∀ file, (L ++ [e]).filterMap (Executed.write? file) =
      L.filterMap (Executed.write? file) := by
    intro file
    rw [List.filterMap_append, List.filterMap_cons_none (hwrite file), List.filterMap_nil,
      List.append_nil]
  have hempty : emptied new = new := by
    cases new with
    | dir es => rfl
    | file b => rw [List.eq_nil_of_length_eq_zero hnew, emptied]
  refine ⟨?_, fun id b hb => ?_, fun id hid => ?_⟩
  · have hget' : (t.nodes.map emptied)[dir - 1]? = some (.dir entries) := by
      rw [List.getElem?_map, hget]
      rfl
    rw [List.filterMap_append, List.filterMap_cons_some hcreation, List.filterMap_nil,
      List.foldl_append, ← h.objects, List.foldl_cons, List.foldl_nil, addObject, hget',
      List.length_map, List.map_append, Tree.setNode, List.map_set, List.map_singleton, hempty]
    rfl
  · rw [hwrites]
    rw [Tree.node_append, Tree.setNode_length, Tree.node_setNode hpos hle] at hb
    split at hb
    · -- the new object
      rename_i hid
      obtain rfl := Option.some.inj hb
      rw [h.created id (by omega)]
      exact List.eq_nil_of_length_eq_zero hnew
    · split at hb
      · cases hb
      · exact h.bytes id b hb
  · rw [List.length_append, Tree.setNode_length] at hid
    rw [hwrites, h.created id (by omega)]

/-- A write that succeeded. -/
theorem Explains.write (h : Explains t L) {file offset count free : Nat} {data : Nat → UInt8}
    {bytes : List UInt8} (hcreation : e.creation? = none)
    (hwrite : ∀ id, e.write? id = if file = id then some (offset, count, data) else none)
    (hfile : t.node file = some (.file bytes)) :
    Explains ({ t with free := free }.setNode file
      (.file (Tree.overwrite bytes (min offset bytes.length) count data))) (L ++ [e]) := by
  obtain ⟨hpos, hle, hget, -⟩ := Tree.node_some hfile
  have hother : ∀ id, id ≠ file → (L ++ [e]).filterMap (Executed.write? id) =
      L.filterMap (Executed.write? id) := by
    intro id hid
    rw [List.filterMap_append, List.filterMap_cons_none (by rw [hwrite, if_neg (Ne.symm hid)]),
      List.filterMap_nil, List.append_nil]
  refine ⟨?_, fun id b hb => ?_, fun id hid => ?_⟩
  · rw [List.filterMap_append, List.filterMap_cons_none hcreation, List.filterMap_nil,
      List.append_nil, ← h.objects, Tree.setNode, List.map_set]
    -- a file is put in the place of a file
    refine List.ext_getElem? fun k => ?_
    rw [List.getElem?_set]
    split
    · rename_i hk
      have hlt : file - 1 < t.nodes.length := by omega
      rw [List.length_map, if_pos hlt, List.getElem?_map, ← hk, hget]
      rfl
    · rfl
  · have hnode := Tree.node_setNode (t := { t with free := free }) hpos hle
      (.file (Tree.overwrite bytes (min offset bytes.length) count data)) id
    rw [hnode] at hb
    split at hb
    · rename_i hid
      subst hid
      rw [List.filterMap_append, List.filterMap_cons_some (by rw [hwrite, if_pos rfl]),
        List.filterMap_nil, List.foldl_append, ← h.bytes id bytes hfile, List.foldl_cons,
        List.foldl_nil]
      exact (Node.file.inj (Option.some.inj hb)).symm
    · rename_i hid
      rw [hother id hid]
      exact h.bytes id b hb
  · rw [Tree.setNode_length] at hid
    rw [hother id (by change t.nodes.length < id at hid; omega)]
    exact h.created id hid

/-- The status of a response -/
def statusOf (r : Option Results) : Int := if r.isSome then resOk else resError

/-- What is executed next. -/
theorem Explains.handler (h : Explains t L) {stack : Stack} {a : Args} {r : Option Results}
    (hr : t.handler stack a = .ok (r, t')) (i : Fin 2) (call : Nat) :
    Explains t' (L ++ [⟨i, call, a, statusOf r⟩]) := by
  have hfailed : ∀ e : Executed, e.status = resError →
      e.creation? = none ∧ ∀ file, e.write? file = none := by
    intro e he
    have hne : e.status ≠ resOk := by
      rw [he]
      decide
    exact ⟨if_neg hne, fun _ => if_neg hne⟩
  have hread : ∀ x : Except Halt (Option Results), x.map (fun r => (r, t)) = .ok (r, t') →
      t' = t := by
    intro x hx
    cases x with
    | error e => cases hx
    | ok r => exact (Prod.mk.inj (Except.ok.inj hx)).2.symm
  have hother : ∀ e : Executed, (∀ file, e.write? file = none) → e.creation? = none →
      t' = t → Explains t' (L ++ [e]) := by
    rintro e hwrite hcreation rfl
    exact h.nothing hcreation hwrite rfl
  -- a creation
  have hcreate : ∀ (new : Node) (dir : Nat) (name : List UInt8) (f : UInt32 → Results),
      new.size = 0 →
      (Executed.creation? ⟨i, call, a, resOk⟩ = some (dir, name, new)) →
      (∀ status file, Executed.write? file ⟨i, call, a, status⟩ = none) →
      (if (t.create new dir name).1.1 ≠ 0 then none
        else (t.create new dir name).1.2.map fun id => f (UInt32.ofNat id),
        (t.create new dir name).2) = (r, t') →
      Explains t' (L ++ [⟨i, call, a, statusOf r⟩]) := by
    intro new dir name f hnew hcreation hwrite hr
    rcases t.create_cases new dir name with ⟨fileid, hc⟩ | ⟨entries, free, hdir, -, -, -, hc⟩
    · rw [hc] at hr
      obtain ⟨rfl, rfl⟩ := Prod.mk.inj hr
      exact h.nothing (hfailed _ rfl).1 (hfailed _ rfl).2 rfl
    · rw [hc] at hr
      obtain ⟨rfl, rfl⟩ := Prod.mk.inj hr
      exact h.create hnew hcreation (hwrite resOk) hdir
  cases a with
  | ping =>
      exact hother _ (fun _ => ite_self _) (ite_self _) (hread (t.answer stack .ping) hr)
  | lookup file =>
      exact hother _ (fun _ => ite_self _) (ite_self _) (hread (t.answer stack (.lookup file)) hr)
  | read file offset count =>
      exact hother _ (fun _ => ite_self _) (ite_self _)
        (hread (t.answer stack (.read file offset count)) hr)
  | readdir dir maxentries =>
      exact hother _ (fun _ => ite_self _) (ite_self _)
        (hread (t.answer stack (.readdir dir maxentries)) hr)
  | copy srcpath tgtpath =>
      exact hother _ (fun _ => ite_self _) (ite_self _)
        (hread (t.answer stack (.copy srcpath tgtpath)) hr)
  | create dir name =>
      exact hcreate (.file []) dir name.chars .create rfl rfl (fun _ _ => ite_self _)
        (Except.ok.inj hr)
  | mkdir dir f =>
      exact hcreate (.dir []) dir f.chars .mkdir rfl rfl (fun _ _ => ite_self _)
        (Except.ok.inj hr)
  | write file offset count data =>
      rw [Tree.handler] at hr
      split at hr
      · obtain ⟨rfl, rfl⟩ := Prod.mk.inj (Except.ok.inj hr)
        exact h.nothing (hfailed _ rfl).1 (hfailed _ rfl).2 rfl
      · rcases t.write_cases file offset count data with
          ⟨free, hw⟩ | ⟨bytes, free, hnode, -, -, hw⟩
        · rw [hw] at hr
          obtain ⟨rfl, rfl⟩ := Prod.mk.inj (Except.ok.inj hr)
          exact h.nothing (hfailed _ rfl).1 (hfailed _ rfl).2 rfl
        · obtain ⟨hpos, hle, -, -⟩ := Tree.node_some hnode
          rw [hw] at hr
          obtain ⟨rfl, rfl⟩ := Prod.mk.inj (Except.ok.inj hr)
          have hthere := (Tree.node_setNode (t := { t with free := free }) hpos hle (.file
            (Tree.overwrite bytes (min offset bytes.length) count data)) file).trans (if_pos rfl)
          rw [hthere]
          exact h.write rfl (fun _ => rfl) hnode

/-- A server that answers a request for a change. -/
theorem serve_update {numBlocks : Nat} {fs fs' : Fs} (ht : IsTree CachedRel numBlocks fs t)
    {stack : Stack} {req : Req} (htype : req.type = 4 ∨ req.type = 5 ∨ req.type = 6) {a : Args}
    (ha : Args.ofReq req = some a) {res : Res} {ressz : Nat}
    (hrun : run Fs.handler (serve stack req) fs = .ok ((res, ressz), fs')) :
    ∃ r t', t.handler stack a = .ok (r, t') ∧ IsTree CachedRel numBlocks fs' t' ∧
      res.status = statusOf r := by
  have hpage : fs.OnePage a := by
    obtain ⟨type, sn, body⟩ := req
    rcases htype with rfl | rfl | rfl <;> obtain rfl := Option.some.inj ha <;> trivial
  obtain ⟨r, t', hans, ht', hres⟩ := isTree_serve ht ha hpage hrun
  refine ⟨r, t', hans, ht', ?_⟩
  rw [(Prod.mk.inj hres).1]
  cases r <;> rfl

/-! ### Two servers -/

/-- What was executed determines the objects. -/
theorem Explains.nodes_eq {L' : List Executed} (h : Explains t L) (h' : Explains t' L')
    (hcreations : L.filterMap Executed.creation? = L'.filterMap Executed.creation?)
    (hwrites : ∀ file, L.filterMap (Executed.write? file) = L'.filterMap (Executed.write? file)) :
    t.nodes = t'.nodes := by
  have hobjects : t.nodes.map emptied = t'.nodes.map emptied := by
    rw [h.objects, h'.objects, hcreations]
  refine List.ext_getElem? fun k => ?_
  have hk : (t.nodes[k]?).map emptied = (t'.nodes[k]?).map emptied := by
    rw [← List.getElem?_map, ← List.getElem?_map, hobjects]
  cases hn : t.nodes[k]? with
  | none =>
      rw [hn] at hk
      exact (Option.map_eq_none_iff.mp hk.symm).symm
  | some n =>
      rw [hn] at hk
      obtain ⟨n', hn', heq⟩ := Option.map_eq_some_iff.mp hk.symm
      rw [hn']
      cases n with
      | dir es =>
          cases n' with
          | dir es' => exact congrArg some heq.symm
          | file b => cases heq
      | file b =>
          cases n' with
          | dir es => cases heq
          | file b' => rw [h.bytes (k + 1) b hn, h'.bytes (k + 1) b' hn', hwrites]

/-- Where the free blocks are does not matter for where a path leads. -/
theorem walk_congr (hnodes : t.nodes = t'.nodes) (ws : List (List UInt8)) (dir : Nat)
    (last : Option Nat) : t.walk dir last ws = t'.walk dir last ws := by
  induction ws generalizing dir last with
  | nil => rfl
  | cons w ws ih =>
      have hnode : t.node dir = t'.node dir := by rw [Snfs.Tree.node, Snfs.Tree.node, hnodes]
      rw [Tree.walk, Tree.walk, hnode]
      split
      · split
        · rfl
        · exact ih _ _
      · rfl

end

end Sthreads.Client
