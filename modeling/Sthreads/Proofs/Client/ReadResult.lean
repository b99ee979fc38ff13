/-
Whether `my_read` ends, and what it returns.

The loop of `my_read` asks for bytes until it has as many as it wants, so it must not want
more than there are.  It takes the size of the file from the descriptor.  `my_write` keeps
that up to date, but `my_open` gets it wrong when it creates a file: then its last lookup was
that of the directory.
-/
import Sthreads.Proofs.Client.ChunkedIo
import Sthreads.Proofs.Client.PathGrammar
import Sthreads.Proofs.Client.Sessions

namespace Sthreads.Client

open Snfs Prog

/-! ### What `my_open` looks up second -/

section

variable {s : List UInt8} {path : CStr}

/-- Each token but the first has a slash before it. -/
theorem splitPath_sum (s : List UInt8) :
    (splitPath s).1.length + ((splitPath s).2.map (·.length + 1)).sum ≤ s.length := by
  induction s with
  | nil => exact Nat.le_refl _
  | cons c cs ih =>
      rw [splitPath, List.length_cons]
      by_cases hc : c = slash
      · simp only [if_pos hc]
        split
        · simp only [List.length_nil]
          omega
        · simp only [List.length_nil, List.map_cons, List.sum_cons]
          omega
      · simp only [if_neg hc, List.length_cons]
        omega

theorem tokens_sum (hhead : s.head? = some slash) :
    ((tokens s).map (·.length + 1)).sum ≤ s.length := by
  cases s with
  | nil => cases hhead
  | cons c cs =>
      obtain rfl := Option.some.inj hhead
      have h := splitPath_sum cs
      rw [tokens_slash, tokens, List.length_cons]
      dsimp only
      split
      · omega
      · rw [List.map_cons, List.sum_cons]
        omega

theorem tokens_ne {c : List UInt8} (hc : c ∈ tokens s) : c ≠ [] := by
  have hwords := (splitPath_words s).2
  rw [tokens] at hc
  dsimp only at hc
  split at hc
  · exact (hwords c hc).1
  · rename_i hne
    rcases List.mem_cons.mp hc with rfl | hc
    · exact hne
    · exact (hwords c hc).1

/-- No token is all of a path that has another. -/
theorem length_token (hhead : s.head? = some slash) (hmany : 1 < (tokens s).length)
    {c : List UInt8} (hc : c ∈ tokens s) : c.length + 3 ≤ s.length := by
  have hsum := tokens_sum hhead
  obtain ⟨l₁, l₂, hsplit⟩ := List.append_of_mem hc
  have hpos : ∀ l : List (List UInt8), (∀ w ∈ l, w ≠ []) →
      2 * l.length ≤ (l.map (·.length + 1)).sum := by
    intro l hl
    induction l with
    | nil => exact Nat.le_refl _
    | cons w l ih =>
        have hw := List.length_pos_iff.mpr (hl w List.mem_cons_self)
        have hrest := ih fun w hw => hl w (List.mem_cons_of_mem _ hw)
        rw [List.length_cons, List.map_cons, List.sum_cons]
        omega
  have hne : ∀ w ∈ tokens s, w ≠ [] := fun w => tokens_ne
  rw [hsplit] at hsum hmany hne
  have h₁ := hpos l₁ fun w hw => hne w (List.mem_append_left _ hw)
  have h₂ := hpos l₂ fun w hw => hne w (List.mem_append_right _ (List.mem_cons_of_mem _ hw))
  rw [List.map_append, List.sum_append, List.map_cons, List.sum_cons] at hsum
  rw [List.length_append, List.length_cons] at hmany
  omega

/-- A string ends before a zero. -/
theorem strAt_length_of_zero {m : Nat} {page : Page m} {k : Nat} (off len : Nat)
    (hzero : page.get (off + k) = 0) : (strAt page off len).length ≤ k := by
  induction len generalizing off k with
  | zero => exact Nat.zero_le _
  | succ len ih =>
      rw [strAt]
      split
      · exact Nat.zero_le _
      · cases k with
        | zero => contradiction
        | succ k => exact Nat.succ_le_succ (ih _ (by rw [Nat.add_assoc, Nat.add_comm 1]; exact hzero))

theorem length_newfilename (hshort : ∀ c ∈ tokens s, c.length ≤ 13) :
    (Page.cstr ((tokens s).foldl (fun (page : Page 14) c =>
      page.copyTo 0 c.length fun k => c.getD k 0) fun _ => 0) 0).chars.length ≤
        (overlay (tokens s)).length := by
  have hblank : ∀ k, Page.get (fun _ => 0 : Page 14) k = ([] : List UInt8).getD k 0 := fun k => by
    unfold Page.get
    split <;> rfl
  refine strAt_length_of_zero 0 14 ?_
  rw [Nat.zero_add, get_copied hshort hblank]
  exact List.getD_eq_default _ _ (Nat.le_refl _)

/-- A path without components is a slash, and there is no name to create. -/
theorem newfilename_slash (hparse : myparse path = true) (htokens : tokens path.chars = []) :
    (splitName path).2.1.chars = [] := by
  obtain ⟨-, -, hdouble, hhead, -⟩ := myparse_iff.mp hparse
  obtain ⟨chars, hnul⟩ := path
  cases chars with
  | nil => cases hhead
  | cons a rest =>
      obtain rfl := Option.some.inj hhead
      cases rest with
      | nil => rfl
      | cons b rest =>
          obtain rfl := tokens_eq_nil htokens b (by simp)
          simp [hasDoubleSlash] at hdouble

/-- The second path has a component, if the first has. -/
theorem tokens_newdirname (hparse : myparse path = true) (htokens : tokens path.chars ≠ []) :
    tokens ((splitName path).2.2.take 14).chars ≠ [] := by
  obtain ⟨-, -, -, hhead, hshort⟩ := myparse_iff.mp hparse
  change tokens ((splitName path).2.2.chars.take 14) ≠ []
  have hlast := lastToken_eq path.chars.length (length_tokens_le path.chars) 0 fun _ => 0
  rw [Nat.zero_add] at hlast
  rw [splitName, hlast]
  dsimp only
  split
  · rename_i hmany
    have hlong : ∀ c ∈ tokens path.chars, c.length ≤ path.chars.length - 3 := fun c hc => by
      have := length_token hhead hmany hc
      omega
    have hlen := length_newfilename hshort
    have hoverlay := length_overlay_le.mpr hlong
    obtain ⟨c, hc⟩ := List.exists_mem_of_ne_nil _ htokens
    have hthree := length_token hhead hmany hc
    dsimp only
    rw [List.take_take]
    exact tokens_take hparse htokens (by omega)
  · exact tokens_take hparse htokens (by decide)

end

/-! ### Sizes -/

/-- What `my_read` is to do: to return the bytes from the offset on, as many as it wants and there
are. -/
def Session.Reads (s : Session) (fileId numBytes readOffset : Nat) : Prop :=
  ∃ s', s.call (.read fileId numBytes) =
    .ok ((((min numBytes ((s.server.fs.inodeOf fileId).size - readOffset) : Nat) : Int),
      ((s.server.fs.fileBytes fileId).drop readOffset).take numBytes), s')

/-- The step keeps the sizes in the descriptors right.  If `my_open` creates a file, the path that
it looks up second does not lead to an object that has a size.  If a file is closed that is open
once more, it has not been made longer since the `my_open` of the other descriptor, which kept the
size it found then.  No other request writes. -/
def Session.KeepsSizes (s : Session) : SessionAct → Prop
  | .call (.openFile name flags) =>
      ∀ s', s.step (.call (.openFile name flags)) = some s' → s'.lib ≠ s.lib →
        (∃ id, s.server.fs.Leads (name.take 14).chars id) ∨
          ∀ dir, s.server.fs.Leads ((splitName name).2.2.take 14).chars dir →
            (s.server.fs.inodeOf dir).size = 0
  | .call (.close fileId) =>
      ∀ d, (myClose fileId s.lib).2.get fileId = some d →
        (s.server.fs.inodeOf fileId).itype = 2 → d.size = (s.server.fs.inodeOf fileId).size
  | .call _ => True
  | .request stack req => s.OnePage (.request stack req) ∧ req.type ≠ 4

/-- The sizes in the descriptors that are found are those of the files. -/
def Sized (t : Tree) (lib : Lib) : Prop :=
  ∀ id d bytes, lib.get id = some d → t.node id = some (.file bytes) → d.size = bytes.length

section

variable {numBlocks : Nat} {s s' : Session} {t t' : Tree} {lib lib' : Lib} {a : SessionAct}

theorem Lib.get_enqueue (lib : Lib) (d : FileDesc) (id : Nat) :
    (lib.enqueue d).get id = (lib.get id).or (if d.fileId = id then some d else none) := by
  rw [Lib.get, Lib.enqueue, List.find?_append, Lib.get]
  congr 1
  by_cases h : d.fileId = id
  · simp [h]
  · simp [h]

/-- Another number's descriptor stays when one is closed. -/
theorem get_myClose_other {fileId id : Nat} (hid : id ≠ fileId) :
    (myClose fileId lib).2.get id = lib.get id := by
  rw [Lib.get, myClose_list, Lib.get]
  induction lib.openFilesList with
  | nil => rfl
  | cons d l ih =>
      by_cases hd : (d.fileId == fileId) = true
      · have hne : (d.fileId == id) = false := by
          rw [beq_iff_eq.mp hd]
          exact beq_eq_false_iff_ne.mpr (Ne.symm hid)
        simp [hd, hne]
      · simp [hd, List.find?_cons, ih]

theorem Sized.later (h : Sized t lib) (hdescs : ∀ d ∈ lib.openFilesList, Describes t d)
    (hlater : Later Unwritten t t') : Sized t' lib := by
  intro id d bytes hd hnode
  have hdesc := hdescs d (List.mem_of_find?_eq_some hd)
  have hid := Lib.fileId_of_get hd
  obtain ⟨old, hold, -, heq⟩ := hlater.file id bytes (hid ▸ hdesc.le) hnode
  rw [← heq fun h => h]
  exact h id d old hd hold

theorem Sized.opened (hs : s.Sane numBlocks t) (h : Sized t s.lib) {name : CStr} {flags r : Int}
    (hok : s.KeepsSizes (.call (.openFile name flags)))
    (hstep : s.step (.call (.openFile name flags)) = some s')
    (hopened : Opened t name s.lib (r, s'.lib) t') : Sized t' s'.lib := by
  have hwf := isTree_wf hs.isTree
  have hshows := isTree_shows hs.isTree
  have hold := h.later hs.descs hopened.later
  have hnew : ∀ {id size : Nat}, (∀ bytes, t'.node id = some (.file bytes) → size = bytes.length) →
      Sized t' (s.lib.enqueue ⟨id, size, 0, 0⟩) := by
    intro id size hsize i d bytes hd hnode
    rw [Lib.get_enqueue] at hd
    cases hget : s.lib.get i with
    | some e =>
        rw [hget] at hd
        exact hold i d bytes (hget.trans hd) hnode
    | none =>
        rw [hget, Option.none_or] at hd
        split at hd
        · rename_i hid
          obtain rfl := Option.some.inj hd
          exact hsize bytes (by rw [show id = i from hid]; exact hnode)
        · cases hd
  have hne : ∀ d, s.lib.enqueue d ≠ s.lib := fun d heq => by
    have hcount := congrArg Lib.openFiles heq
    simp [Lib.enqueue] at hcount
  generalize hlib : s'.lib = lib' at hopened ⊢
  cases hopened with
  | failed _ => exact hold
  | @found id n _ hnode _ =>
      refine hnew fun bytes hfile => ?_
      rw [hnode] at hfile
      obtain rfl := Option.some.inj hfile
      have hsize := hwf.sizes _ (Tree.node_some hnode).2.2.2 bytes rfl
      exact Nat.mod_eq_of_lt (by change bytes.length < _; omega)
  | @created id size _ hparse _ _ _ hnode hname hnot hsize =>
      refine hnew fun bytes hfile => ?_
      rw [hnode] at hfile
      obtain rfl := Node.file.inj (Option.some.inj hfile)
      rcases hsize with hzero | ⟨stack, dir, n, hlookup, hn, hsize⟩
      · exact hzero
      have htokens : tokens name.chars ≠ [] := fun hnil => hname (newfilename_slash hparse hnil)
      have hlen := length_of_myparse hparse
      rcases hok s' hstep (by rw [hlib]; exact hne _) with ⟨i, hleads⟩ | hempty
      · -- what the path leads to would have been found
        have hfound := (hshows.leads hwf (Nat.lt_of_le_of_lt (List.length_take_le _ _)
          (by decide)) (tokens_take hparse htokens (by decide)) i).mpr hleads
        obtain ⟨n', hn'⟩ := lookup_node hwf hfound
        exact absurd hfound (hnot i n' hn')
      · -- the second lookup has found an object without a size
        have hcomponent := tokens_newdirname hparse htokens
        obtain ⟨g, rfl⟩ := lookup_found hcomponent hlookup
        have hleads := (hshows.leads hwf (Nat.lt_of_le_of_lt (List.length_take_le _ _)
          (by decide)) hcomponent g).mp hlookup
        rw [Option.getD_some] at hn
        have hsize' := hempty g hleads
        rw [hshows.size g n hn] at hsize'
        rw [hsize, hsize']
        rfl

theorem Sized.step (hs : s.Sane numBlocks t) (h : Sized t s.lib) (hok : s.KeepsSizes a)
    (hstep : s.step a = some s') (hacts : Acts t s.lib a t' s'.lib) : Sized t' s'.lib := by
  have hshows := isTree_shows hs.isTree
  generalize hlib : s'.lib = lib' at hacts ⊢
  cases hacts with
  | request hlater => exact h.later hs.descs (hlater.mono fun _ h => hok.2 h)
  | openFile hopened => exact hlib ▸ h.opened hs hok hstep (hlib ▸ hopened)
  | mkdir hlater => exact h.later hs.descs hlater
  | @close fileId =>
      intro id d bytes hd hnode
      by_cases hid : id = fileId
      · subst hid
        exact (hok d hd (hshows.itype id _ hnode)).trans (hshows.size id _ hnode)
      · rw [get_myClose_other hid] at hd
        exact h id d bytes hd hnode
  | readNothing => exact h
  | writeNothing => exact h
  | @read fileId _ ro d hget _ =>
      have hfileId : ({ d with readOffset := ro } : FileDesc).fileId = fileId :=
        show d.fileId = fileId from Lib.fileId_of_get hget
      intro id e bytes he hnode
      by_cases hid : id = fileId
      · subst hid
        rw [Lib.get_assign hget hfileId] at he
        obtain rfl := Option.some.inj he
        exact h id d bytes hget hnode
      · rw [Lib.get_assign_other (hfileId ▸ hid)] at he
        exact h id e bytes he hnode
  | @write fileId _ count _ d old _ hget hwrote hold _ =>
      have hfileId : (d.wrote old count).fileId = fileId :=
        show d.fileId = fileId from Lib.fileId_of_get hget
      intro id e bytes he hnode
      by_cases hid : id = fileId
      · subst hid
        obtain ⟨rfl, -, hdesc⟩ := describes_get (isTree_wf hs.isTree) hs.descs hget
        rw [Lib.get_assign hget hfileId] at he
        obtain rfl := Option.some.inj he
        rw [hwrote.node] at hnode
        obtain rfl := Node.file.inj (Option.some.inj hnode)
        have hsize := h _ d old hget hold
        have hoff := (hdesc.inFile old hold).2
        rw [length_overwrite hoff, FileDesc.wrote]
        dsimp only
        split <;> omega
      · rw [Lib.get_assign_other (hfileId ▸ hid)] at he
        exact h id e bytes he ((hwrote.others id hid).symm.trans hnode)

theorem Session.KeepsSizes.onePage (h : s.KeepsSizes a) : s.OnePage a := by
  cases a with
  | call c => trivial
  | request stack req => exact h.1

/-- The sizes stay right in sessions. -/
theorem sized_of_run (hn : 10 ≤ numBlocks) {readings : Nat → Int} {server : Server}
    (hinit : snfsInit numBlocks readings = .ok (.up server.fs))
    {tr : List (Session × SessionAct)} (hrun : Run Session.step (Session.start server) tr s)
    (hok : ∀ p ∈ tr, p.1.KeepsSizes p.2) : ∃ t, s.Sane numBlocks t ∧ Sized t s.lib := by
  refine hrun.invariant_of (fun s => ∃ t, s.Sane numBlocks t ∧ Sized t s.lib) Session.KeepsSizes
    ?_ ?_ hok
  · obtain ⟨t, hs⟩ := Session.sane_of_run hn hinit Run.nil fun p hp => by cases hp
    exact ⟨t, hs, fun id d bytes hd => by cases hd⟩
  · rintro s a s' ⟨t, hs, hsized⟩ hok hstep
    obtain ⟨t', ht', hacts⟩ := hs.acts hok.onePage hstep
    exact ⟨t', ⟨ht', hacts.describes hs.descs⟩, hsized.step hs hok hstep hacts⟩

/-! ### Reading -/

/-- `my_read` of a file whose size is right -/
theorem reads_of_le (hs : s.Sane numBlocks t) {d : FileDesc} (hd : s.lib.get d.fileId = some d)
    {bytes : List UInt8} (hnode : t.node d.fileId = some (.file bytes))
    (hsize : d.size = bytes.length) {numBytes : Nat}
    (hle : d.readOffset = bytes.length ∨ d.readOffset + numBytes < 2 ^ 32) :
    s.Reads d.fileId numBytes d.readOffset := by
  have hshows := isTree_shows hs.isTree
  have hdesc := hs.descs d (List.mem_of_find?_eq_some hd)
  have hlib : s.lib.Has d.fileId bytes d.readOffset d.writeOffset := by
    rw [Lib.Has, hd, ← hsize]
  have hwp : wp Answered (fun _ => False) (UserCall.prog s.lib (.read d.fileId numBytes))
      (fun x _ => x.1 = (((min numBytes (bytes.length - d.readOffset) : Nat) : Int),
        (bytes.drop d.readOffset).take numBytes)) t :=
    answered_myRead (fileIs_of_wf (isTree_wf hs.isTree) hnode) hlib (hdesc.inFile bytes hnode).1 hle
      fun lib' m hm _ => by rw [hm]
  rcases run_sound answered_sound _ hs.isTree hwp with
    ⟨⟨r, lib⟩, server, t', hrun, -, rfl⟩ | ⟨e, -, hno⟩
  · refine ⟨⟨lib, server⟩, ?_⟩
    rw [hshows.size _ _ hnode, hshows.file _ _ hnode]
    exact Session.call_eq hrun
  · exact hno.elim

/-- Where the sum overflows, the size is not looked at and `my_read` asks for ever. -/
theorem not_reads (hs : s.Sane numBlocks t) {d : FileDesc} (hd : s.lib.get d.fileId = some d)
    {bytes : List UInt8} (hnode : t.node d.fileId = some (.file bytes))
    (hsize : d.size = bytes.length) {numBytes : Nat} (hlt : numBytes < 2 ^ 32)
    (hne : d.readOffset ≠ bytes.length) (hover : ¬ d.readOffset + numBytes < 2 ^ 32) :
    ∀ r s', s.call (.read d.fileId numBytes) ≠ .ok (r, s') := by
  intro r s' hcall
  have hfile := fileIs_of_wf (isTree_wf hs.isTree) hnode
  have hsmall := hfile.size
  have hoff := ((hs.descs d (List.mem_of_find?_eq_some hd)).inFile bytes hnode).1
  have hwp : wp Served (fun _ => True) (UserCall.prog s.lib (.read d.fileId numBytes))
      (fun _ _ => False) t := by
    rw [UserCall.prog, myRead, hd]
    dsimp only
    rw [if_neg (by omega), if_neg (by omega), wp_bind served_mono]
    refine served_readLoop hfile numBytes d numBytes (min numBytes 1024) 0 [] hoff (by omega)
      fun r data ro _ hle => ?_
    have henough := hle hlt
    omega
  obtain ⟨t', -, hno⟩ := run_sound_if_ok served_sound _ hs.isTree hwp (Session.of_call hcall)
  exact hno

end

/-- In sessions in which all steps keep the sizes, an open file's descriptor has the size of the
file, and `my_read` ends and returns the bytes that there are exactly if it is at the end or its
offset and `numBytes` are together an `unsigned`. -/
theorem my_read_ends_iff {numBlocks : Nat} (hn : 10 ≤ numBlocks) {readings : Nat → Int}
    {server : Server} (hinit : snfsInit numBlocks readings = .ok (.up server.fs))
    {tr : List (Session × SessionAct)} {s : Session}
    (hreach : Run Session.step (Session.start server) tr s)
    (hok : ∀ p ∈ tr, p.1.KeepsSizes p.2) {fileId : Nat} {d : FileDesc}
    (hd : s.lib.get fileId = some d) (hfile : (s.server.fs.inodeOf fileId).itype = 2) :
    d.size = (s.server.fs.inodeOf fileId).size ∧
      d.readOffset ≤ (s.server.fs.inodeOf fileId).size ∧
      ∀ numBytes, numBytes < 2 ^ 32 → (s.Reads fileId numBytes d.readOffset ↔
        d.readOffset = (s.server.fs.inodeOf fileId).size ∨ d.readOffset + numBytes < 2 ^ 32) := by
  obtain ⟨t, hs, hsized⟩ := sized_of_run hn hinit hreach hok
  have hshows := isTree_shows hs.isTree
  obtain ⟨rfl, -, hdesc⟩ := describes_get (isTree_wf hs.isTree) hs.descs hd
  obtain ⟨n, hnode⟩ := Tree.node_of_le hdesc.pos hdesc.le
  rw [hshows.itype _ _ hnode] at hfile
  cases n with
  | dir es => cases hfile
  | file bytes =>
      have hsize := hsized _ d bytes hd hnode
      rw [hshows.size _ _ hnode]
      refine ⟨hsize, (hdesc.inFile bytes hnode).1, fun numBytes hlt => ⟨fun ⟨s', hcall⟩ => ?_,
        reads_of_le hs hd hnode hsize⟩⟩
      by_contra hno
      rw [not_or] at hno
      exact not_reads hs hd hnode hsize hlt hno.1 hno.2 _ s' hcall

/-- A new file with three bytes is read. -/
theorem my_read_ends_iff_three_bytes :
    ∃ (s : Session) (d : FileDesc), s.lib.get 2 = some d ∧ d.size = 3 ∧
      s.Reads 2 5 d.readOffset := by
  let path : CStr := ⟨[47, 102], by decide⟩
  let create : SessionAct := .call (.openFile path 1)
  let write : SessionAct := .call (.write 2 (fun _ => 65) 3)
  obtain ⟨server, hinit, hval⟩ := session_of_bind 13 (fun i => 7 * i)
    (g := fun s₀ => ((s₀.step create).bind fun s₁ => s₁.step write).map fun s : Session =>
      (s₀.server.fs.walk 1 (tokens ((splitName path).2.2.take 14).chars), s.lib.get 2,
        (s.server.fs.inodeOf 2).itype, (s.server.fs.inodeOf 2).size))
    (x := (none, some ⟨2, 3, 0, 3⟩, 2, 3)) (by decide +kernel)
  obtain ⟨s, hsteps, hval⟩ := Option.map_eq_some_iff.mp hval
  obtain ⟨s₁, hcreate, hwrite⟩ := Option.bind_eq_some_iff.mp hsteps
  simp only [Prod.mk.injEq] at hval
  obtain ⟨hwalk, hd, htype, hsize⟩ := hval
  have hok : ∀ p ∈ [(Session.start server, create), (s₁, write)], p.1.KeepsSizes p.2 := by
    intro p hp
    simp only [List.mem_cons, List.not_mem_nil, or_false] at hp
    rcases hp with rfl | rfl
    · refine fun _ _ _ => Or.inr fun dir hdir => ?_
      rw [hdir.2] at hwalk
      cases hwalk
    · trivial
  obtain ⟨hthree, -, hreads⟩ := my_read_ends_iff (by decide) hinit
    ((Run.nil.snoc hcreate).snoc hwrite) hok hd htype
  exact ⟨s, _, hd, hthree.trans hsize, (hreads 5 (by decide)).mpr (Or.inr (by decide))⟩

/-- The file `/d/f` is created where `/d` has an entry.  The descriptor has the size of `/d`, and
`my_read` does not return. -/
theorem created_file_is_read_for_ever :
    ∃ server s d, snfsInit 13 (fun i => 7 * i) = .ok (.up server.fs) ∧
      Reaches Session.step (Session.start server) s ∧ s.lib.get 4 = some d ∧
      (s.server.fs.inodeOf 4).itype = 2 ∧ (s.server.fs.inodeOf 4).size < d.size ∧
      ∀ r s', s.call (.read 4 1) ≠ .ok (r, s') := by
  let acts : List SessionAct := [.call (.mkdir ⟨[47, 100], by decide⟩),
    .call (.openFile ⟨[47, 100, 47, 120], by decide⟩ 1),
    .call (.openFile ⟨[47, 100, 47, 102], by decide⟩ 1)]
  obtain ⟨server, hinit, hval⟩ := session_of_bind 13 (fun i => 7 * i)
    (g := fun s₀ => (runActs Session.step s₀ acts).map fun s : Session =>
      (s.lib.get 4, (s.server.fs.inodeOf 4).itype, (s.server.fs.inodeOf 4).size,
        (s.call (.read 4 1)).toOption.isNone))
    (x := (some ⟨4, 16, 0, 0⟩, 2, 0, true)) (by decide +kernel)
  obtain ⟨s, hsteps, hval⟩ := Option.map_eq_some_iff.mp hval
  simp only [Prod.mk.injEq] at hval
  obtain ⟨hd, htype, hsize, hnone⟩ := hval
  refine ⟨server, s, _, hinit, reaches_runActs _ hsteps, hd, htype, ?_, fun r s' hcall => ?_⟩
  · rw [hsize]
    decide
  · rw [hcall] at hnone
    cases hnone

end Sthreads.Client
