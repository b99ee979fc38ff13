/-
What a client's calls do to the files of its server.

Only a write changes the bytes of a file there is, and no file gets fewer of them.
`my_open` opens an object that is there, whose size it is told, or a file that it has
created; then the size is what its second lookup has found, which is the directory.
-/
import Sthreads.Proofs.Client.Served
import Sthreads.Proofs.Snfs.Requests

namespace Sthreads.Client

open Snfs Prog

/-! ### Files that stay -/

/-- Nothing is written to any file. -/
def Unwritten (_ : Nat) : Prop := False

/-- Files stay, and keep their bytes where nothing is written; else they have no fewer. -/
structure Later (written : Nat → Prop) (t t' : Tree) : Prop where
  length : t.nodes.length ≤ t'.nodes.length
  stays : ∀ id old, t.node id = some (.file old) → ∃ bytes, t'.node id = some (.file bytes)
  file : ∀ id bytes, id ≤ t.nodes.length → t'.node id = some (.file bytes) →
    ∃ old, t.node id = some (.file old) ∧ old.length ≤ bytes.length ∧ (¬ written id → old = bytes)

/-- The file that the handler writes to -/
def WritesTo : Args → Nat → Prop
  | .write file .., id => id = file
  | _, _ => False

section

variable {t t' t'' : Tree} {written : Nat → Prop}

theorem Later.refl (t : Tree) : Later written t t :=
  ⟨Nat.le_refl _, fun _ old h => ⟨old, h⟩, fun _ bytes _ h =>
    ⟨bytes, h, Nat.le_refl _, fun _ => rfl⟩⟩

theorem Later.trans (h : Later written t t') (h' : Later written t' t'') : Later written t t'' := by
  refine ⟨h.length.trans h'.length, fun id old hn => ?_, fun id bytes hid hn => ?_⟩
  · obtain ⟨mid, hmid⟩ := h.stays id old hn
    exact h'.stays id mid hmid
  · obtain ⟨mid, hmid, hle, heq⟩ := h'.file id bytes (hid.trans h.length) hn
    obtain ⟨old, hold, hle', heq'⟩ := h.file id mid hid hmid
    exact ⟨old, hold, hle'.trans hle, fun hw => (heq' hw).trans (heq hw)⟩

theorem Later.mono {written' : Nat → Prop} (h : Later written t t')
    (hw : ∀ id, written id → written' id) : Later written' t t' := by
  refine ⟨h.length, h.stays, fun id bytes hid hn => ?_⟩
  obtain ⟨old, hold, hle, heq⟩ := h.file id bytes hid hn
  exact ⟨old, hold, hle, fun hnot => heq fun hid => hnot (hw id hid)⟩

/-- A file to which nothing is written -/
theorem Later.unwritten (h : Later written t t') {id : Nat} (hid : ¬ written id)
    {bytes : List UInt8} (hn : t.node id = some (.file bytes)) :
    t'.node id = some (.file bytes) := by
  obtain ⟨new, hnew⟩ := h.stays id bytes hn
  obtain ⟨old, hold, -, heq⟩ := h.file id new (Tree.node_some hn).2.1 hnew
  rw [hn] at hold
  rw [hnew, Node.file.inj (Option.some.inj hold), heq hid]

/-- The objects that were there have the same bytes. -/
theorem Later.of_node (hlen : t.nodes.length ≤ t'.nodes.length)
    (h : ∀ id bytes, id ≤ t.nodes.length →
      (t'.node id = some (.file bytes) ↔ t.node id = some (.file bytes))) : Later written t t' :=
  ⟨hlen, fun id old hn => ⟨old, (h id old (Tree.node_some hn).2.1).mpr hn⟩, fun id bytes hid hn =>
    ⟨bytes, (h id bytes hid).mp hn, Nat.le_refl _, fun _ => rfl⟩⟩

theorem later_write (file offset count : Nat) (buffer : Nat → UInt8) :
    Later (· = file) t (t.write file offset count buffer).2 := by
  rcases t.write_cases file offset count buffer with ⟨free, hw⟩ | ⟨bytes, free, hnode, -, -, hw⟩
  · rw [hw]
    exact Later.of_node (Nat.le_refl _) fun _ _ _ => Iff.rfl
  · obtain ⟨hpos, hle, -, -⟩ := Tree.node_some hnode
    have hset := Tree.node_setNode (t := { t with free := free }) hpos hle
      (.file (Tree.overwrite bytes (min offset bytes.length) count buffer))
    rw [hw]
    refine ⟨(Tree.setNode_length ..).ge, fun id old hn => ?_, fun id new _ hn => ?_⟩
    · rw [hset]
      by_cases hid : id = file
      · rw [if_pos hid]
        exact ⟨_, rfl⟩
      · rw [if_neg hid]
        exact ⟨old, hn⟩
    · rw [hset] at hn
      by_cases hid : id = file
      · rw [if_pos hid] at hn
        obtain rfl := Node.file.inj (Option.some.inj hn)
        refine ⟨bytes, hid ▸ hnode, ?_, fun h => absurd hid h⟩
        rw [length_overwrite (Nat.min_le_right ..)]
        exact Nat.le_max_left ..
      · rw [if_neg hid] at hn
        exact ⟨new, hn, Nat.le_refl _, fun _ => rfl⟩

theorem later_create (new : Node) (dir : Nat) (name : List UInt8) :
    Later Unwritten t (t.create new dir name).2 := by
  rcases t.create_cases new dir name with ⟨fileid, hc⟩ | ⟨es, free, hdir, -, -, -, hc⟩
  · rw [hc]
    exact Later.refl t
  · obtain ⟨hpos, hle, -, -⟩ := Tree.node_some hdir
    rw [hc]
    refine Later.of_node (by simp [Tree.setNode_length]) fun id bytes hid => ?_
    rw [Tree.node_created hpos hle, if_neg (by omega)]
    by_cases heq : id = dir
    · rw [if_pos heq, heq, hdir]
      simp
    · rw [if_neg heq]

/-- What a handler leaves -/
theorem later_handler {stack : Stack} {a : Args} {r : Option Results}
    (h : t.handler stack a = .ok (r, t')) : Later (WritesTo a) t t' := by
  cases Tree.handled h with
  | same => exact Later.refl t
  | wrote file offset count data => exact later_write file offset count data
  | created a hnew dir name => exact (later_create _ dir name).mono fun _ h => h.elim

/-- A program that writes to no other files leaves the others as they are. -/
theorem served_later {α : Type} {p : ApiM α}
    (h : p.Only fun c => c.Simple ∧ ∀ id, WritesTo c.args id → written id) (t : Tree) :
    wp Served (fun _ => True) p (fun _ t' => Later written t t') t :=
  wp_of_only served_mono Later.refl Later.trans
    (fun hc hq => ⟨hc.1, fun _ _ _ hans _ => hq _ _ ((later_handler hans).mono hc.2)⟩) p t h

end

/-! ### Opening -/

/-- A path that has a component and is found leads to something. -/
theorem lookup_found {t : Tree} {path : List UInt8} (htokens : tokens path ≠ [])
    {fileid : Option Nat} (h : t.lookup path = .ok (1, fileid)) : ∃ id, fileid = some id := by
  cases fileid with
  | some id => exact ⟨id, rfl⟩
  | none =>
      rw [Tree.lookup] at h
      split at h
      · cases h
      · split at h
        · cases h
        · exact absurd (Tree.walk_none (Except.ok.inj h)) htokens

/-- What a path leads to is an object. -/
theorem lookup_node {t : Tree} (hwf : t.WF) {path : List UInt8} {found : Int} {id : Nat}
    (h : t.lookup path = .ok (found, some id)) : ∃ n, t.node id = some n := by
  rw [Tree.lookup] at h
  split at h
  · cases h
  · split at h
    · cases h
    · obtain ⟨hpos, hle⟩ := Tree.walk_some hwf (fun i hi => by cases hi) (Except.ok.inj h) id rfl
      exact Tree.node_of_le hpos hle

theorem strAt_length_le {m : Nat} (page : Page m) :
    ∀ len off : Nat, (strAt page off len).length ≤ len := by
  intro len
  induction len with
  | zero => exact fun _ => Nat.le_refl _
  | succ len ih =>
      intro off
      rw [strAt]
      split
      · exact Nat.zero_le _
      · exact Nat.succ_le_succ (ih _)

theorem splitName_length (name : CStr) :
    (splitName name).2.1.chars.length ≤ 14 ∧
      (splitName name).2.2.chars.length ≤ name.chars.length := by
  rw [splitName]
  dsimp only
  split
  · exact ⟨strAt_length_le _ 14 0, by simp⟩
  · exact ⟨strAt_length_le _ 14 0, Nat.le_refl _⟩

/-- What `my_open` does: it fails, or it opens an object there is, or a file that it creates.  A
path without components may be found to be any object. -/
inductive Opened (t : Tree) (path : CStr) (lib : Lib) : Int × Lib → Tree → Prop
  | failed {t' : Tree} (hlater : Later Unwritten t t') : Opened t path lib (-1, lib) t'
  | found {id : Nat} {n : Node} (hparse : myparse path = true) (hnode : t.node id = some n)
      (hleads : tokens (path.take 14).chars ≠ [] →
        t.lookup (path.take 14).chars = .ok (1, some id)) :
      Opened t path lib (id, lib.enqueue ⟨id, n.size % 2 ^ 32, 0, 0⟩) t
  | created {id size : Nat} {t' : Tree} (hparse : myparse path = true)
      (hlater : Later Unwritten t t') (hnew : t.nodes.length < id) (hid : id < 64)
      (hnode : t'.node id = some (.file [])) (hname : (splitName path).2.1.chars ≠ [])
      (hnot : ∀ i n, t.node i = some n → t.lookup (path.take 14).chars ≠ .ok (1, some i))
      (hsize : size = 0 ∨ ∃ (stack : Stack) (dir : Option Nat) (n : Node),
        t.lookup ((splitName path).2.2.take 14).chars = .ok (1, dir) ∧
          t.node (dir.getD stack.fileid.toNat) = some n ∧ size = n.size % 2 ^ 32) :
      Opened t path lib (id, lib.enqueue ⟨id, size, 0, 0⟩) t'

section

variable {t : Tree} {H : Halt → Prop}

/-- Creating a file -/
theorem served_create_file {dir : UInt32} {name : CStr} (hlen : name.chars.length < 200)
    {Q : Option UInt32 → Tree → Prop} (hfail : Q none t)
    (hnew : ∀ id t', Later Unwritten t t' → t.nodes.length < id → id < 64 →
      t'.node id = some (.file []) → name.chars ≠ [] → Q (some (.ofNat id)) t') :
    wp Served H (snfsCreate dir name) Q t := by
  refine ⟨⟨hlen, trivial, fun _ => trivial⟩, fun stack r t' hr there => ?_⟩
  rw [ApiCall.args, Tree.handler] at hr
  have hlater := later_create (t := t) (.file []) (Args.inodeid dir) (name.take 13).chars
  rcases t.create_cases (.file []) (Args.inodeid dir) (name.take 13).chars with
    ⟨fileid, hc⟩ | ⟨es, free, hdir, -, hroom, -, hc⟩
  · rw [hc] at hr
    obtain ⟨rfl, rfl⟩ := Prod.mk.inj (Except.ok.inj hr)
    exact hfail
  · obtain ⟨hpos, hle, -, -⟩ := Tree.node_some hdir
    have hname : name.chars ≠ [] := by
      intro hnil
      have hnil' : (name.take 13).chars = [] := by
        change name.chars.take 13 = []
        rw [hnil, List.take_nil]
      rw [hnil', Tree.create, hdir] at hc
      cases hc
    rw [hc] at hr hlater
    obtain ⟨rfl, rfl⟩ := Prod.mk.inj (Except.ok.inj hr)
    exact hnew _ _ hlater (Nat.lt_succ_self _) hroom
      (by rw [Tree.node_created hpos hle, if_pos rfl]) hname

theorem asInt_word {id : Nat} (h : id < 2 ^ 16) : asInt (UInt32.ofNat id).toNat = (id : Int) := by
  rw [ofNat_toNat (by omega)]
  exact asInt_of_lt (by omega)

/-- `my_open` -/
theorem served_opened (hwf : t.WF) (path : CStr) (flags : Int) (lib : Lib) :
    wp Served H (myOpen path flags lib) (Opened t path lib) t := by
  have hcount := hwf.count
  rw [myOpen]
  split
  · exact .failed (Later.refl t)
  split
  · exact .failed (Later.refl t)
  rename_i hparse
  rw [Bool.not_eq_true', Bool.not_eq_false] at hparse
  have hlen := length_of_myparse hparse
  obtain ⟨hname, hdir⟩ := splitName_length path
  have hcreated := @Opened.created t path lib
  generalize splitName path = split at hname hdir hcreated
  obtain ⟨i, newfilename, newdirname⟩ := split
  dsimp only at hname hdir hcreated ⊢
  rw [wp_bind served_mono]
  refine served_lookup hlen (fun stack fileid n hlookup hn => ?_) fun stack there hans => ?_
  · -- the lookup finds an object
    rw [if_pos rfl]
    obtain ⟨-, hle, -, -⟩ := Tree.node_some hn
    have hsize : ((some (UInt32.ofNat n.size)).map UInt32.toNat).getD 0 = n.size % 2 ^ 32 :=
      UInt32.toNat_ofNat'
    rw [wp_pure, hsize, asInt_word (by omega), ofNat_toNat (by omega)]
    refine .found hparse hn fun htokens => ?_
    obtain ⟨g, rfl⟩ := lookup_found htokens hlookup
    exact hlookup
  · -- another lookup, and a file is created
    have hnot : ∀ i n, t.node i = some n → t.lookup (path.take 14).chars ≠ .ok (1, some i) := by
      intro i n hnode hlookup
      obtain ⟨-, hle, -, -⟩ := Tree.node_some hnode
      rw [Tree.answer_lookup hlookup, if_neg (by simp), Option.getD_some, Tree.getAttrs,
        if_neg (by omega), hnode] at hans
      cases hans
    rw [if_neg (by simp), wp_bind served_mono]
    have hcreate : ∀ (dir : UInt32) (size : Nat) (k : Option UInt32 → ApiM (Int × Lib)),
        k none = pure (-1, lib) →
        (∀ file, k (some file) = pure (asInt file.toNat, lib.enqueue ⟨file.toNat, size, 0, 0⟩)) →
        (size = 0 ∨ ∃ (stack : Stack) (dir : Option Nat) (n : Node),
          t.lookup (newdirname.take 14).chars = .ok (1, dir) ∧
            t.node (dir.getD stack.fileid.toNat) = some n ∧ size = n.size % 2 ^ 32) →
        wp Served H (Client.snfsCreate dir newfilename >>= k) (Opened t path lib) t := by
      intro dir size k hnone hsome hsize
      rw [wp_bind served_mono]
      refine served_create_file (by omega) ?_ fun id t' hlater hnew hid hnode hne => ?_
      · rw [hnone]
        exact .failed (Later.refl t)
      · rw [hsome, wp_pure, asInt_word (by omega), ofNat_toNat (by omega)]
        exact hcreated hparse hlater hnew hid hnode hne hnot hsize
    refine served_lookup (by omega) (fun stack fileid n hlookup hn => ?_) fun _ there _ => ?_
    · dsimp only
      split
      · exact hcreate _ _ _ rfl (fun _ => rfl)
          (Or.inr ⟨stack, fileid, n, hlookup, hn, UInt32.toNat_ofNat'⟩)
      · exact .failed (Later.refl t)
    · dsimp only
      split
      · exact hcreate _ _ _ rfl (fun _ => rfl) (Or.inl rfl)
      · exact .failed (Later.refl t)

end

end Sthreads.Client
