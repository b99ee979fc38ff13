/-
What happens in a session.

`Acts` says what a step does to the tree of the server and to the list of descriptors; what
is invariant in sessions is read off it.  The descriptors are of objects that are there, and
the offsets of a file's descriptor are in the file, as files only grow.
-/
import Sthreads.Client.Session
import Sthreads.Proofs.Client.Pieces
import Sthreads.Proofs.Snfs.Requests

namespace Sthreads.Client

open Snfs Prog

/-- A listing that is asked for takes one page. -/
def Session.OnePage (s : Session) : SessionAct → Prop
  | .call _ => True
  | .request stack req => (ServerState.up s.server.fs).OnePage (stack, req)

/-- The descriptor is of an object, and its offsets are in the file. -/
structure Describes (t : Tree) (d : FileDesc) : Prop where
  pos : 1 ≤ d.fileId
  le : d.fileId ≤ t.nodes.length
  writeOffset : d.writeOffset ≤ 5120
  inFile : ∀ bytes, t.node d.fileId = some (.file bytes) →
    d.readOffset ≤ bytes.length ∧ d.writeOffset ≤ bytes.length

/-- What a step does to the tree and to the library. -/
inductive Acts (t : Tree) (lib : Lib) : SessionAct → Tree → Lib → Prop
  | request {stack : Stack} {req : Req} {t' : Tree}
      (hlater : Later (fun _ => req.type = 4) t t') : Acts t lib (.request stack req) t' lib
  | openFile {name : CStr} {flags r : Int} {lib' : Lib} {t' : Tree}
      (h : Opened t name lib (r, lib') t') : Acts t lib (.call (.openFile name flags)) t' lib'
  | mkdir {dirname : CStr} {t' : Tree} (hlater : Later Unwritten t t') :
      Acts t lib (.call (.mkdir dirname)) t' lib
  | close {fileId : Nat} : Acts t lib (.call (.close fileId)) t (myClose fileId lib).2
  | read {fileId numBytes ro : Nat} {d : FileDesc} (hd : lib.get fileId = some d)
      (hro : ∀ bytes, t.node fileId = some (.file bytes) → ro ≤ bytes.length) :
      Acts t lib (.call (.read fileId numBytes)) t (lib.assign { d with readOffset := ro })
  | readNothing {fileId numBytes : Nat} : Acts t lib (.call (.read fileId numBytes)) t lib
  | write {fileId numBytes count : Nat} {buffer : Nat → UInt8} {d : FileDesc} {bytes : List UInt8}
      {t' : Tree} (hd : lib.get fileId = some d)
      (h : Wrote t t' fileId bytes d.writeOffset count buffer)
      (hnode : t.node fileId = some (.file bytes)) (hend : d.writeOffset + count ≤ 5120) :
      Acts t lib (.call (.write fileId buffer numBytes)) t' (lib.assign (d.wrote bytes count))
  | writeNothing {fileId numBytes : Nat} {buffer : Nat → UInt8} :
      Acts t lib (.call (.write fileId buffer numBytes)) t lib

section

variable {numBlocks : Nat} {t : Tree} {lib : Lib}

/-- A descriptor that is found is assigned to itself. -/
theorem Lib.assign_self {fileId : Nat} {d : FileDesc} (h : lib.get fileId = some d) :
    lib.assign d = lib := by
  have hid := Lib.fileId_of_get h
  subst hid
  have hlist : ∀ l : List FileDesc, l.find? (·.fileId == d.fileId) = some d →
      Lib.assign.assignFirst d l = l := by
    intro l
    induction l with
    | nil => exact fun _ => rfl
    | cons e l ih =>
        intro hfind
        rw [Lib.assign.assignFirst]
        by_cases he : (e.fileId == d.fileId) = true
        · rw [List.find?_cons, he] at hfind
          obtain rfl := Option.some.inj hfind
          rw [if_pos he]
        · rw [List.find?_cons, Bool.eq_false_of_not_eq_true he] at hfind
          rw [if_neg he, ih hfind]
  rw [Lib.assign, hlist lib.openFilesList h]

theorem Lib.mem_assign {d d' : FileDesc} (h : d ∈ (lib.assign d').openFilesList) :
    d = d' ∨ d ∈ lib.openFilesList := by
  have hlist : ∀ l : List FileDesc, d ∈ Lib.assign.assignFirst d' l → d = d' ∨ d ∈ l := by
    intro l
    induction l with
    | nil => exact Or.inr
    | cons e l ih =>
        intro hd
        rw [Lib.assign.assignFirst] at hd
        split at hd
        · rcases List.mem_cons.mp hd with rfl | hd
          · exact Or.inl rfl
          · exact Or.inr (List.mem_cons_of_mem _ hd)
        · rcases List.mem_cons.mp hd with rfl | hd
          · exact Or.inr List.mem_cons_self
          · exact (ih hd).imp_right (List.mem_cons_of_mem _)
  exact hlist _ h

theorem Describes.later {written : Nat → Prop} {t' : Tree} {d : FileDesc} (h : Describes t d)
    (hlater : Later written t t') : Describes t' d := by
  refine ⟨h.pos, h.le.trans hlater.length, h.writeOffset, fun bytes hn => ?_⟩
  obtain ⟨old, hold, hle, -⟩ := hlater.file d.fileId bytes h.le hn
  obtain ⟨hro, hwo⟩ := h.inFile old hold
  exact ⟨hro.trans hle, hwo.trans hle⟩

/-! ### What the calls do -/

theorem describes_get (hwf : t.WF) (hdescs : ∀ d ∈ lib.openFilesList, Describes t d)
    {fileId : Nat} {d : FileDesc} (hd : lib.get fileId = some d) :
    d.fileId = fileId ∧ fileId < 2 ^ 16 ∧ Describes t d := by
  have hid := Lib.fileId_of_get hd
  have h := hdescs d (List.mem_of_find?_eq_some hd)
  have hle := h.le
  have hcount := hwf.count
  exact ⟨hid, by omega, h⟩

theorem answered_acts_write {H : Halt → Prop} (hwf : t.WF)
    (hdescs : ∀ d ∈ lib.openFilesList, Describes t d) (fileId : Nat) (buffer : Nat → UInt8)
    (numBytes : Nat) : wp Answered H (UserCall.prog lib (.write fileId buffer numBytes))
      (fun x t' => Acts t lib (.call (.write fileId buffer numBytes)) t' x.2) t := by
  rw [UserCall.prog, wp_bind answered_mono]
  cases hd : lib.get fileId with
  | none =>
      rw [myWrite, hd]
      exact .writeNothing
  | some d =>
      obtain ⟨rfl, hsmall, hdesc⟩ := describes_get hwf hdescs hd
      by_cases hnode : ∃ bytes, t.node d.fileId = some (.file bytes)
      · obtain ⟨bytes, hnode⟩ := hnode
        exact answered_myWrite_file (fileIs_of_wf hwf hnode) hd (hdesc.inFile bytes hnode).2
          fun m r t' hwrote hfits _ => .write hd hwrote hnode hfits.size
      · have hoff := hdesc.writeOffset
        rw [myWrite, hd]
        dsimp only
        rw [wp_bind answered_mono]
        refine answered_writeLoop_other hsmall (fun bytes h => hnode ⟨bytes, h⟩) (by omega)
          (by omega) (Nat.le_refl _) ?_
        rw [wp_pure, Lib.assign_self hd]
        exact .writeNothing

theorem served_acts_read (hwf : t.WF) (hdescs : ∀ d ∈ lib.openFilesList, Describes t d)
    (fileId numBytes : Nat) : wp Served (fun _ => True) (UserCall.prog lib (.read fileId numBytes))
      (fun x t' => Acts t lib (.call (.read fileId numBytes)) t' x.2) t := by
  rw [UserCall.prog, myRead]
  cases hd : lib.get fileId with
  | none => exact .readNothing
  | some d =>
      obtain ⟨rfl, hsmall, hdesc⟩ := describes_get hwf hdescs hd
      dsimp only
      split
      · exact .readNothing
      rw [wp_bind served_mono]
      generalize hn : (if d.size < (d.readOffset + numBytes) % 2 ^ 32
        then (d.size + 2 ^ 32 - d.readOffset) % 2 ^ 32 else numBytes) = n
      by_cases hnode : ∃ bytes, t.node d.fileId = some (.file bytes)
      · obtain ⟨bytes, hnode⟩ := hnode
        refine served_readLoop (fileIs_of_wf hwf hnode) n d n (min n 1024) 0 []
          (hdesc.inFile bytes hnode).1 (by omega) fun r data ro hro _ => .read hd fun b hb => ?_
        rw [hnode] at hb
        obtain rfl := Node.file.inj (Option.some.inj hb)
        exact hro
      · exact served_readLoop_other (fun bytes h => hnode ⟨bytes, h⟩) hsmall fun r =>
          .read hd fun bytes h => absurd ⟨bytes, h⟩ hnode

theorem served_acts_openFile (hwf : t.WF) (name : CStr) (flags : Int) :
    wp Served (fun _ => True) (UserCall.prog lib (.openFile name flags))
      (fun x t' => Acts t lib (.call (.openFile name flags)) t' x.2) t := by
  rw [UserCall.prog, wp_bind served_mono]
  exact wp_mono served_mono (fun x t' h => .openFile h) _ _ (served_opened hwf name flags lib)

theorem only_snfsLookup {P : ApiCall → Prop} {path : CStr} (h : P (.lookup path)) :
    Only P (Client.snfsLookup path) :=
  only_op h fun r => by split <;> trivial

theorem only_mkdirIn {P : ApiCall → Prop} {dir : UInt32} {name : CStr} (h : P (.mkdir dir name)) :
    Only P (mkdirIn dir name) := by
  rw [mkdirIn]
  refine only_bind (fun r => ?_) (only_op h fun r => by split <;> trivial)
  split <;> trivial

/-- `my_mkdir` looks paths up and makes a directory. -/
theorem only_myMkdir (dirname : CStr) :
    Only (fun c => c.Simple ∧ ∀ id, WritesTo c.args id → Unwritten id) (myMkdir dirname) := by
  rw [myMkdir]
  split
  · trivial
  rename_i hparse
  rw [Bool.not_eq_true', Bool.not_eq_false] at hparse
  have hlen := length_of_myparse hparse
  obtain ⟨hname, hdir⟩ := splitName_length dirname
  generalize splitName dirname = split at hname hdir ⊢
  obtain ⟨i, newfilename, newdirname⟩ := split
  dsimp only at hname hdir ⊢
  have hlookup : ∀ path : CStr, path.chars.length < 200 → Only (fun c : ApiCall => c.Simple ∧
      ∀ id, WritesTo c.args id → Unwritten id) (Client.snfsLookup path) := fun path h =>
    only_snfsLookup ⟨⟨h, trivial, fun _ => trivial⟩, fun _ h => h⟩
  have hmkdir : ∀ dir, Only (fun c : ApiCall => c.Simple ∧
      ∀ id, WritesTo c.args id → Unwritten id) (mkdirIn dir newfilename) := fun dir =>
    only_mkdirIn ⟨⟨Nat.lt_of_le_of_lt hname (by decide), trivial, fun _ => trivial⟩, fun _ h => h⟩
  refine only_bind (fun r => ?_) (hlookup dirname hlen)
  split
  · trivial
  · split
    · exact hmkdir 1
    · refine only_bind (fun r => ?_) (hlookup newdirname (by omega))
      split
      · trivial
      · exact hmkdir _

theorem served_acts_mkdir (dirname : CStr) :
    wp Served (fun _ => True) (UserCall.prog lib (.mkdir dirname))
      (fun x t' => Acts t lib (.call (.mkdir dirname)) t' x.2) t := by
  rw [UserCall.prog, wp_bind served_mono]
  exact wp_mono served_mono (fun x t' h => .mkdir h) _ _ (served_later (only_myMkdir dirname) t)

/-! ### What is invariant -/

theorem Wrote.later {t' : Tree} {file offset count : Nat} {bytes : List UInt8}
    {buffer : Nat → UInt8} (h : Wrote t t' file bytes offset count buffer)
    (hnode : t.node file = some (.file bytes)) (hoff : offset ≤ bytes.length) :
    Later (· = file) t t' := by
  refine ⟨h.length.ge, fun id old hn => ?_, fun id new hid hn => ?_⟩
  · by_cases hid : id = file
    · exact ⟨_, hid ▸ h.node⟩
    · exact ⟨old, (h.others id hid).trans hn⟩
  · by_cases hid : id = file
    · rw [hid, h.node] at hn
      obtain rfl := Node.file.inj (Option.some.inj hn)
      refine ⟨bytes, hid ▸ hnode, ?_, fun hne => absurd hid hne⟩
      rw [length_overwrite hoff]
      exact Nat.le_max_left ..
    · exact ⟨new, (h.others id hid).symm.trans hn, Nat.le_refl _, fun _ => rfl⟩

theorem Opened.later {path : CStr} {x : Int × Lib} {t' : Tree} (h : Opened t path lib x t') :
    Later Unwritten t t' := by
  cases h with
  | failed hlater => exact hlater
  | found _ _ _ => exact Later.refl t
  | created _ hlater _ _ _ _ _ _ => exact hlater

/-- The descriptor of an object that has just been opened -/
theorem describes_new {id size : Nat} {n : Node} (hnode : t.node id = some n) :
    Describes t ⟨id, size, 0, 0⟩ :=
  ⟨(Tree.node_some hnode).1, (Tree.node_some hnode).2.1, Nat.zero_le _,
    fun _ _ => ⟨Nat.zero_le _, Nat.zero_le _⟩⟩

theorem Opened.describes (hdescs : ∀ d ∈ lib.openFilesList, Describes t d) {path : CStr}
    {x : Int × Lib} {t' : Tree} (h : Opened t path lib x t') :
    ∀ d ∈ x.2.openFilesList, Describes t' d := by
  have hold : ∀ d ∈ lib.openFilesList, Describes t' d := fun d hd => (hdescs d hd).later h.later
  have hnew : ∀ {id size : Nat} {n : Node}, t'.node id = some n →
      ∀ d ∈ (lib.enqueue ⟨id, size, 0, 0⟩).openFilesList, Describes t' d := by
    intro id size n hnode d hd
    rcases List.mem_append.mp hd with hd | hd
    · exact hold d hd
    · rw [List.mem_singleton.mp hd]
      exact describes_new hnode
  cases h with
  | failed _ => exact hold
  | found _ hnode _ => exact hnew hnode
  | created _ _ _ _ hnode _ _ _ => exact hnew hnode

theorem Acts.describes (hdescs : ∀ d ∈ lib.openFilesList, Describes t d) {a : SessionAct}
    {t' : Tree} {lib' : Lib} (h : Acts t lib a t' lib') :
    ∀ d ∈ lib'.openFilesList, Describes t' d := by
  have hget : ∀ {fileId d}, lib.get fileId = some d → d.fileId = fileId ∧ Describes t d :=
    fun hd => ⟨Lib.fileId_of_get hd, hdescs _ (List.mem_of_find?_eq_some hd)⟩
  cases h with
  | request hlater => exact fun d hd => (hdescs d hd).later hlater
  | openFile h => exact h.describes hdescs
  | mkdir hlater => exact fun d hd => (hdescs d hd).later hlater
  | close =>
      intro d hd
      rw [myClose_list] at hd
      exact hdescs d (List.mem_of_mem_eraseP hd)
  | readNothing => exact hdescs
  | writeNothing => exact hdescs
  | read hd hro =>
      obtain ⟨rfl, hdesc⟩ := hget hd
      intro e he
      rcases Lib.mem_assign he with rfl | he
      · exact ⟨hdesc.pos, hdesc.le, hdesc.writeOffset, fun bytes hn =>
          ⟨hro bytes hn, (hdesc.inFile bytes hn).2⟩⟩
      · exact hdescs e he
  | @write _ _ _ _ d bytes _ hd hwrote hnode hend =>
      obtain ⟨rfl, hdesc⟩ := hget hd
      obtain ⟨hro, hwo⟩ := hdesc.inFile bytes hnode
      intro e he
      rcases Lib.mem_assign he with rfl | he
      · refine ⟨hdesc.pos, hwrote.length ▸ hdesc.le, hend, fun new hn => ?_⟩
        have hnode' := hwrote.node
        rw [show t'.node d.fileId = some (.file new) from hn] at hnode'
        rw [Node.file.inj (Option.some.inj hnode'), length_overwrite hwo]
        exact ⟨hro.trans (Nat.le_max_left ..), Nat.le_max_right ..⟩
      · exact (hdescs e he).later (hwrote.later hnode hwo)

end

/-! ### Steps -/

section

variable {numBlocks : Nat} {s s' : Session} {t : Tree} {a : SessionAct}

/-- What is invariant in sessions. -/
structure Session.Sane (numBlocks : Nat) (s : Session) (t : Tree) : Prop where
  isTree : s.server.IsTree numBlocks t
  descs : ∀ d ∈ s.lib.openFilesList, Describes t d

theorem Session.call_eq {c : UserCall} {r : Int × List UInt8} {lib : Lib} {server : Server}
    (h : Prog.run Server.rpc (c.prog s.lib) s.server = .ok ((r, lib), server)) :
    s.call c = .ok (r, ⟨lib, server⟩) := by
  rw [Session.call, h]
  rfl

theorem Session.of_call {c : UserCall} {r : Int × List UInt8} (h : s.call c = .ok (r, s')) :
    Prog.run Server.rpc (c.prog s.lib) s.server = .ok ((r, s'.lib), s'.server) := by
  rw [Session.call] at h
  cases hrun : Prog.run Server.rpc (c.prog s.lib) s.server with
  | error e =>
      rw [hrun] at h
      cases h
  | ok x =>
      rw [hrun] at h
      obtain ⟨rfl, rfl⟩ := Prod.mk.inj (Except.ok.inj h)
      rfl

theorem Session.of_step {c : UserCall} (h : s.step (.call c) = some s') :
    ∃ r, s.call c = .ok (r, s') := by
  rw [Session.step] at h
  cases hcall : s.call c with
  | error e =>
      rw [hcall] at h
      cases h
  | ok x =>
      rw [hcall] at h
      obtain rfl := Option.some.inj h
      exact ⟨x.1, rfl⟩

/-- Only `REQ_WRITE` asks for a write. -/
theorem writesTo_type {req : Req} {args : Args} (hargs : Args.ofReq req = some args) {id : Nat}
    (h : WritesTo args id) : req.type = 4 := by
  unfold Args.ofReq at hargs
  split at hargs
  case h_4 htype => exact htype
  case h_9 => cases hargs
  all_goals
    obtain rfl := Option.some.inj hargs
    exact h.elim

/-- A step does one of these. -/
theorem Session.Sane.acts (hs : s.Sane numBlocks t) (hpage : s.OnePage a)
    (hstep : s.step a = some s') :
    ∃ t', s'.server.IsTree numBlocks t' ∧ Acts t s.lib a t' s'.lib := by
  have hwf := isTree_wf hs.isTree
  cases a with
  | call c =>
      obtain ⟨r, hcall⟩ := Session.of_step hstep
      have hrun := Session.of_call hcall
      have hserved : wp Served (fun _ => True) (c.prog s.lib)
          (fun x t' => Acts t s.lib (.call c) t' x.2) t := by
        cases c with
        | openFile name flags => exact served_acts_openFile hwf name flags
        | read fileId numBytes => exact served_acts_read hwf hs.descs fileId numBytes
        | write fileId buffer numBytes =>
            exact wp_served (answered_acts_write hwf hs.descs fileId buffer numBytes)
        | close fileId => exact .close
        | mkdir dirname => exact served_acts_mkdir dirname
      exact run_sound_if_ok served_sound _ hs.isTree hserved hrun
  | request stack req =>
      rw [Session.step] at hstep
      split at hstep
      · rename_i res fs hrun
        obtain rfl := Option.some.inj hstep
        cases hargs : Args.ofReq req with
        | none =>
            rw [serve, hargs] at hrun
            obtain ⟨-, rfl⟩ := Prod.mk.inj (Except.ok.inj hrun)
            exact ⟨t, hs.isTree, .request (Later.refl t)⟩
        | some args =>
            obtain ⟨r, t', hans, ht', -⟩ := isTree_serve hs.isTree hargs (hpage args hargs) hrun
            exact ⟨t', ht', .request ((later_handler hans).mono fun id h => writesTo_type hargs h)⟩
      · cases hstep

theorem Session.Sane.step (hs : s.Sane numBlocks t) (hpage : s.OnePage a)
    (hstep : s.step a = some s') : ∃ t', s'.Sane numBlocks t' := by
  obtain ⟨t', ht', hacts⟩ := hs.acts hpage hstep
  exact ⟨t', ht', hacts.describes hs.descs⟩

/-- Every session is sane. -/
theorem Session.sane_of_run (hn : 10 ≤ numBlocks) {readings : Nat → Int} {server : Server}
    (hinit : snfsInit numBlocks readings = .ok (.up server.fs))
    {tr : List (Session × SessionAct)} (hrun : Run Session.step (Session.start server) tr s)
    (hpages : ∀ p ∈ tr, p.1.OnePage p.2) : ∃ t, s.Sane numBlocks t := by
  refine hrun.invariant_of (fun s => ∃ t, s.Sane numBlocks t) Session.OnePage ?_ ?_ hpages
  · obtain ⟨t, ht⟩ := isTree_server hn hinit Run.nil fun p hp => by cases hp
    exact ⟨t, ht, fun d hd => by cases hd⟩
  · rintro s a s' ⟨t, hs⟩ hpage hstep
    exact hs.step hpage hstep

/-- A session that begins with a server that has been started -/
theorem session_of_bind (n : Nat) (readings : Nat → Int) {α : Type} {g : Session → Option α} {x : α}
    (h : ((snfsInit n readings).toOption.bind ServerState.fs?).bind
      (fun fs => g (Session.start (.start fs))) = some x) :
    ∃ server, snfsInit n readings = .ok (.up server.fs) ∧
      g (Session.start server) = some x := by
  obtain ⟨fs, hfs, hval⟩ := Option.bind_eq_some_iff.mp h
  obtain ⟨s₀, hs₀, hup⟩ := Option.bind_eq_some_iff.mp hfs
  refine ⟨.start fs, ?_, hval⟩
  cases hinit : snfsInit n readings with
  | error e =>
      rw [hinit] at hs₀
      cases hs₀
  | ok y =>
      rw [hinit] at hs₀
      obtain rfl := Option.some.inj hs₀
      rw [ServerState.eq_of_fs? hup]
      rfl

end

end Sthreads.Client
