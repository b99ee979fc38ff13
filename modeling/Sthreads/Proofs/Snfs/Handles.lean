/-
A handle is narrowed to an inode number before it is checked.

`snfs_fhandle_t` is an `int` and `inodeid_t` an `unsigned short`, so the handlers check
and use the lower half of a handle only.  What they refuse then depends on nothing but the
inode of that number, and is the same in every state that requests lead to.
-/
import Sthreads.Proofs.Snfs.Exits
import Sthreads.Proofs.Snfs.FailedWrite

namespace Sthreads.Snfs

open Prog

/-! ### States between two requests -/

/-- The server has been started and has handled requests. -/
def ServerReached (numBlocks : Nat) (s : ServerState) : Prop :=
  ∃ readings s₀, snfsInit numBlocks readings = .ok s₀ ∧ Reaches ServerState.step s₀ s

/-- No inode is being edited, and no access has left the blocks. -/
def Fs.AtRest (fs : Fs) : Prop := (∃ x, Settled fs x) ∧ fs.blocks.wild = false

section

variable {s s' : Fs}

theorem wild_of_handler {o : FsOp} {r : o.Res} (h : Fs.handler o s = .ok (r, s')) :
    s'.blocks.wild = false := by
  rw [Fs.handler] at h
  split at h
  · dsimp only at h
    split at h
    · cases h
    · rename_i hwild
      obtain ⟨-, rfl⟩ := Prod.mk.inj (Except.ok.inj h)
      simpa using hwild
  · cases h

/-- A run that returns has stayed in the blocks. -/
theorem run_wild {α : Type} (p : FsM α) : ∀ {s s' : Fs} {a : α}, s.blocks.wild = false →
    run Fs.handler p s = .ok (a, s') → s'.blocks.wild = false := by
  induction p with
  | ret b =>
      intro s s' a hwild h
      obtain ⟨-, rfl⟩ := Prod.mk.inj (Except.ok.inj h)
      exact hwild
  | halt e =>
      intro s s' a hwild h
      cases h
  | op o k ih =>
      intro s s' a hwild h
      obtain ⟨r, s₁, hop, hrest⟩ := run_op_ok (f := k) h
      exact ih r (wild_of_handler hop) hrest

/-- The handlers edit no inode without making it known. -/
theorem seen_handler {x : Seen} (he : x.edited = none) (stack : Stack) (a : Args) :
    wp seenSpec (fun _ => True) (a.handler stack) (fun _ y => y.edited = none) x := by
  have creating : ∀ {itype dir : Nat} {name : CStr} {f : Int × Option Nat → FsM (Option Results)},
      (∀ v, Only Getting (f v)) →
      wp seenSpec (fun _ => True) (fsCreateOf itype stack.page dir name >>= f)
        (fun _ y => y.edited = none) x := by
    intro itype dir name f hf
    rw [wp_bind seenSpec_mono]
    exact wp_mono seenSpec_mono (fun v y hy => seen_getting (hf v) hy) _ _
      (seen_createOf he itype stack.page dir name)
  cases a with
  | ping => exact he
  | copy srcpath tgtpath => exact he
  | lookup file =>
      refine seen_getting (only_bind (fun v => ?_) (getting_lookup stack.page file)) he
      obtain ⟨found, fileid⟩ := v
      dsimp only
      split
      · trivial
      · refine only_bind (fun w => ?_) (getting_getAttrs _)
        obtain ⟨status, attrs⟩ := w
        dsimp only
        split <;> trivial
  | read file offset count =>
      refine seen_getting ?_ he
      change Only Getting (snfsRead stack file offset count)
      rw [snfsRead]
      split
      · trivial
      · refine only_bind (fun v => ?_) (getting_read stack.page file offset count)
        obtain ⟨status, nread, data⟩ := v
        dsimp only
        split <;> trivial
  | write file offset count data =>
      change wp _ _ (snfsWrite stack file offset count data) _ _
      rw [snfsWrite]
      split
      · exact he
      · rw [wp_bind seenSpec_mono]
        refine wp_mono seenSpec_mono (fun v y hy => ?_) _ _
          (seen_write he stack.page file offset count data)
        refine seen_getting ?_ hy
        split
        · trivial
        · refine only_bind (fun w => ?_) (getting_getAttrs _)
          obtain ⟨status, attrs⟩ := w
          dsimp only
          split <;> trivial
  | create dir name =>
      refine creating fun v => ?_
      obtain ⟨status, fileid⟩ := v
      dsimp only
      split <;> trivial
  | mkdir dir f =>
      refine creating fun v => ?_
      obtain ⟨status, dirid⟩ := v
      dsimp only
      split <;> trivial
  | readdir dir maxentries =>
      have hentries : ∀ es, Only Getting (dirEntries es) := by
        intro es
        induction es with
        | nil => trivial
        | cons e es ih =>
            rw [dirEntries]
            refine only_bind (fun _ => only_bind (fun _ => only_pure) ih) ?_
            rw [dirEntry]
            split
            · trivial
            · split <;> trivial
      refine seen_getting (only_bind (fun v => ?_)
        ((lists_readdir stack.page dir (asInt maxentries)).mono Lists.getting)) he
      obtain ⟨status, entries⟩ := v
      dsimp only
      split
      · trivial
      · split
        · trivial
        · exact only_bind (fun _ => only_pure) (hentries _)

theorem Fs.AtRest.serve (h : s.AtRest) {stack : Stack} {req : Req} {res : Res × Nat}
    (hrun : run Fs.handler (serve stack req) s = .ok (res, s')) : s'.AtRest := by
  obtain ⟨⟨x, hx, he⟩, hwild⟩ := h
  refine ⟨?_, run_wild _ hwild hrun⟩
  rw [Snfs.serve] at hrun
  split at hrun
  · obtain ⟨-, rfl⟩ := Prod.mk.inj (Except.ok.inj hrun)
    exact ⟨x, hx, he⟩
  · rename_i a ha
    refine run_sound_if_ok seen_sound _ hx (Q := fun _ y => y.edited = none) ?_ hrun
    rw [wp_bind seenSpec_mono]
    exact seen_handler he stack a

/-- The server is at rest whenever it is up. -/
theorem ServerReached.atRest {numBlocks : Nat} (h : ServerReached numBlocks (.up s)) :
    s.AtRest := by
  obtain ⟨readings, s₀, hinit, tr, hrun⟩ := h
  obtain ⟨fs, hnew, hinit⟩ := except_bind_ok hinit
  obtain ⟨fs', hformat, hinit⟩ := except_bind_ok hinit
  obtain rfl := Except.ok.inj hinit
  have hrest : fs'.AtRest := by
    refine ⟨settled_justFormatted ⟨readings, fs, hnew, hformat⟩, ?_⟩
    rw [Fs.fsFormat, Fs.checked] at hformat
    split at hformat
    · cases hformat
    · rename_i hwild
      obtain rfl := Except.ok.inj hformat
      simpa using hwild
  refine hrun.invariant (fun s => ∀ fs, s = .up fs → fs.AtRest)
    (fun fs hfs => ServerState.up.inj hfs ▸ hrest) ?_ s rfl
  rintro s ⟨stack, req⟩ s' hs hstep fs rfl
  cases s with
  | ended e => cases hstep
  | up fs₁ =>
      rw [ServerState.step] at hstep
      split at hstep
      · rename_i res fs₂ hserve
        obtain rfl := ServerState.up.inj (Option.some.inj hstep)
        exact (hs fs₁ rfl).serve hserve
      · cases Option.some.inj hstep

end

/-! ### What is refused -/

/-- The handle in a request of a type that has one. -/
def fhandle (req : Req) : Option UInt32 :=
  if 3 ≤ req.type ∧ req.type ≤ 7 then some (req.body.word 0) else none

/-- The inode is that of a directory or a file. -/
def Fs.HasObject (fs : Fs) (id : Nat) : Prop :=
  (id < 64 ∧ fs.Used id) ∧ ((fs.inodeOf id).itype = 1 ∨ (fs.inodeOf id).itype = 2)

/-- The request is refused and changes nothing. -/
def Fs.Refuses (fs : Fs) (stack : Stack) (req : Req) : Prop :=
  ∃ res fs', run Fs.handler (serve stack req) fs = .ok (res, fs') ∧ res.1.status = resError ∧
    Unchanged fs fs'

section

variable {s s' : Fs} {id : Nat} {α : Type}

/-- An operation that stays in the blocks, and what follows it. -/
theorem run_of_exec {o : FsOp} {f : o.Res → FsM α} (hin : Fs.inTable o = true)
    (hwild : (Fs.exec o s).2.blocks.wild = false) :
    run Fs.handler (.perform o >>= f) s = run Fs.handler (f (Fs.exec o s).1) (Fs.exec o s).2 := by
  have hop : Fs.handler o s = .ok (Fs.exec o s) := handler_ok hin rfl hwild
  rw [run_bind, Prog.perform, run, hop]
  rfl

theorem Fs.AtRest.unchanged (h : s.AtRest) : Unchanged s s := by
  obtain ⟨⟨x, hx⟩, -⟩ := h
  exact hx.unchanged hx rfl ⟨rfl, rfl, rfl, rfl, rfl, rfl⟩

/-- Getting an inode changes nothing, and what is got is what is looked up. -/
theorem Fs.AtRest.icGet (h : s.AtRest) (id : Nat) :
    Unchanged s (s.icGet id).2 ∧ (s.icGet id).2.blocks.wild = false ∧
      Uses ((s.icGet id).2.icache (Fs.slot (s.icGet id).1)).data (s.inodeOf id) := by
  obtain ⟨⟨x, hx⟩, hwild⟩ := h
  obtain ⟨-, hget, hframe⟩ := hx.1.icGet id
  have hx' : Settled (s.icGet id).2 (x.setPtr (s.icGet id).1 id) := ⟨hget, hx.2⟩
  refine ⟨hx.unchanged hx' rfl hframe, hframe.1 ▸ hwild, ?_⟩
  have hslot := (hget.slot (p := (s.icGet id).1) (Function.update_self ..)).2.2
  refine (hslot.resolve_left fun he => ?_).trans (hx.inodeOf id).symm
  rw [hx'.2] at he
  cases he

/-- The checks of an inode number with which the functions begin, for a directory or a file. -/
def guarded (ty id : Nat) (fail : α) (rest : Nat → Inode → FsM α) : FsM α := do
  if !bmapIsset (← inodeBmap) id then return fail
  let p ← icGet id
  let n ← inode p
  if n.itype ≠ ty then return fail
  rest p n

/-- What is no object does not pass. -/
theorem run_guarded (h : s.AtRest) (hid : id < 64) (hno : ¬ s.HasObject id) {ty : Nat}
    (hty : ty = 1 ∨ ty = 2) (fail : α) (rest : Nat → Inode → FsM α) :
    ∃ s', run Fs.handler (guarded ty id fail rest) s = .ok (fail, s') ∧ Unchanged s s' := by
  obtain ⟨hsame, hwild, huses⟩ := h.icGet id
  have hmap := run_of_exec (s := s) (o := .inodeBmap)
    (f := fun bmap => if (!bmapIsset bmap id) = true then pure fail
      else icGet id >>= fun p => inode p >>= fun n =>
        if n.itype ≠ ty then pure fail else rest p n) rfl h.2
  change run Fs.handler (guarded ty id fail rest) s = _ at hmap
  rw [hmap]
  change ∃ s', run Fs.handler (if (!bmapIsset s.inodeBmap id) = true then pure fail
    else icGet id >>= fun p => inode p >>= fun n =>
      if n.itype ≠ ty then pure fail else rest p n) s = _ ∧ _
  by_cases hused : bmapIsset s.inodeBmap id = true
  swap
  · rw [if_pos (by simpa using hused)]
    exact ⟨s, rfl, h.unchanged⟩
  · rw [if_neg (by simpa using hused)]
    have htype : (s.inodeOf id).itype ≠ ty := fun he => hno ⟨⟨hid, hused⟩, by omega⟩
    refine ⟨(s.icGet id).2, ?_, hsame⟩
    refine (run_of_exec (o := .icGet id) (decide_eq_true hid) hwild).trans ?_
    refine (run_of_exec (o := .inode _) rfl hwild).trans ?_
    change run Fs.handler (if ((s.icGet id).2.icache (Fs.slot (s.icGet id).1)).data.itype ≠ ty
      then pure fail else rest _ _) _ = _
    rw [if_pos (by rw [huses.1]; exact htype)]
    rfl

/-- What is an object of the type does. -/
theorem guarded_passes (h : s.AtRest) (hused : s.Used id) {ty : Nat}
    (htype : (s.inodeOf id).itype = ty) {fail : α} {rest : Nat → Inode → FsM α} {P : α → Prop}
    (hrest : ∀ p n, Always P (rest p n)) {v : α}
    (hrun : run Fs.handler (guarded ty id fail rest) s = .ok (v, s')) : P v := by
  obtain ⟨-, -, huses⟩ := h.icGet id
  rw [guarded] at hrun
  have hrun := run_inodeBmap hrun
  have hset : bmapIsset s.inodeBmap id = true := hused
  rw [if_neg (by simp [hset])] at hrun
  have hrun := run_inode (run_icGet hrun)
  rw [if_neg (by rw [huses.1, htype]; simp)] at hrun
  exact (hrest _ _).run hrun

/-! ### The functions -/

theorem fsRead_guarded (junk : Page 512) (file offset count : Nat) :
    ∃ rest, (∀ p n, Always (fun v => v.1 = 0 ∧ v.2.1 ≠ none) (rest p n)) ∧
      fsRead junk file offset count =
        if file ≥ 64 then pure (-1, none, []) else guarded 2 file (-1, none, []) rest := by
  refine ⟨_, fun p n => ?_, rfl⟩
  split
  · exact ⟨rfl, Option.some_ne_none _⟩
  · refine always_bind (fun r _ => ?_) (Always.trivial _)
    exact ⟨rfl, Option.some_ne_none _⟩

theorem fsReaddir_guarded (junk : Page 512) (dir : Nat) (maxentries : Int) :
    ∃ rest, (∀ p n, Always (fun v => v.1 = 0) (rest p n)) ∧ fsReaddir junk dir maxentries =
      if dir ≥ 64 ∨ maxentries < 0 then pure (-1, none) else guarded 1 dir (-1, none) rest := by
  refine ⟨_, fun p n => ?_, rfl⟩
  refine always_bind (fun r _ => ?_) (Always.trivial _)
  exact (rfl : (0 : Int) = 0)

theorem fsWrite_guarded (junk : Page 512) (file offset count : Nat) (buffer : Nat → UInt8) :
    ∃ rest, fsWrite junk file offset count buffer =
      if file ≥ 64 then pure (-1) else guarded 2 file (-1) rest := ⟨_, rfl⟩

theorem fsCreateOf_guarded (itype : Nat) (junk : Page 512) (dir : Nat) (file : CStr) :
    ∃ rest, fsCreateOf itype junk dir file =
      if dir ≥ 64 then pure (-1, none)
      else if file.chars.length = 0 ∨ file.chars.length + 1 > 14 then pure (-1, none)
      else guarded 1 dir (-1, none) rest := ⟨_, rfl⟩

end

/-! ### Requests -/

section

variable {s : Fs} {stack : Stack} {req : Req} {a : Args} {id : Nat}

/-- The handler answers `RES_ERROR` and changes nothing. -/
def Fs.Declines (s : Fs) (stack : Stack) (a : Args) : Prop :=
  ∃ s', run Fs.handler (a.handler stack) s = .ok (none, s') ∧ Unchanged s s'

theorem Fs.Declines.refuses (hargs : Args.ofReq req = some a) (h : s.Declines stack a) :
    s.Refuses stack req := by
  obtain ⟨s', hrun, hsame⟩ := h
  refine ⟨({ (respond a none).1 with sn := req.sn }, (respond a none).2), s', ?_, rfl, hsame⟩
  rw [serve, hargs]
  dsimp only
  rw [run_bind, hrun]
  rfl

/-- A function that fails, and what the handler makes of it. -/
theorem run_fails {α β : Type} {p : FsM α} {f : α → FsM β} (fail : α) {b : β}
    (h : ∃ s', run Fs.handler p s = .ok (fail, s') ∧ Unchanged s s') (hf : f fail = pure b) :
    ∃ s', run Fs.handler (p >>= f) s = .ok (b, s') ∧ Unchanged s s' := by
  obtain ⟨s', hrun, hsame⟩ := h
  refine ⟨s', ?_, hsame⟩
  rw [run_bind, hrun]
  dsimp only
  rw [hf]
  rfl

theorem declines_read (h : s.AtRest) (hno : ¬ s.HasObject id) (offset count : Nat) :
    s.Declines stack (.read id offset count) := by
  change ∃ s', run Fs.handler (snfsRead stack id offset count) s = _ ∧ _
  rw [snfsRead]
  by_cases hcount : count > 1024
  · rw [if_pos hcount]
    exact ⟨s, rfl, h.unchanged⟩
  · rw [if_neg hcount]
    refine run_fails (-1, none, []) ?_ rfl
    obtain ⟨rest, -, heq⟩ := fsRead_guarded stack.page id offset count
    rw [heq]
    split
    · exact ⟨s, rfl, h.unchanged⟩
    · exact run_guarded h (by omega) hno (Or.inr rfl) _ rest

theorem declines_write (h : s.AtRest) (hno : ¬ s.HasObject id) (offset count : Nat)
    (data : Nat → UInt8) : s.Declines stack (.write id offset count data) := by
  change ∃ s', run Fs.handler (snfsWrite stack id offset count data) s = _ ∧ _
  rw [snfsWrite]
  by_cases hcount : count > 1024
  · rw [if_pos hcount]
    exact ⟨s, rfl, h.unchanged⟩
  · rw [if_neg hcount]
    refine run_fails (-1) ?_ rfl
    obtain ⟨rest, heq⟩ := fsWrite_guarded stack.page id offset count data
    rw [heq]
    split
    · exact ⟨s, rfl, h.unchanged⟩
    · exact run_guarded h (by omega) hno (Or.inr rfl) _ rest

/-- `snfs_create` and `snfs_mkdir` -/
theorem declines_createOf (h : s.AtRest) (hno : ¬ s.HasObject id) (itype : Nat) (name : CStr)
    {f : Int × Option Nat → FsM (Option Results)} (hf : f (-1, none) = pure none) :
    ∃ s', run Fs.handler (fsCreateOf itype stack.page id name >>= f) s = .ok (none, s') ∧
      Unchanged s s' := by
  refine run_fails (-1, none) ?_ hf
  obtain ⟨rest, heq⟩ := fsCreateOf_guarded itype stack.page id name
  rw [heq]
  split
  · exact ⟨s, rfl, h.unchanged⟩
  · split
    · exact ⟨s, rfl, h.unchanged⟩
    · exact run_guarded h (by omega) hno (Or.inl rfl) _ rest

theorem declines_readdir (h : s.AtRest) (hno : ¬ s.HasObject id) (maxentries : Nat) :
    s.Declines stack (.readdir id maxentries) := by
  refine run_fails (-1, none) ?_ rfl
  obtain ⟨rest, -, heq⟩ := fsReaddir_guarded stack.page id (asInt maxentries)
  rw [heq]
  split
  · exact ⟨s, rfl, h.unchanged⟩
  · exact run_guarded h (by omega) hno (Or.inl rfl) _ rest

/-- A request with a handle acts on the inode that the handle is narrowed to. -/
theorem refuses_of_noObject (h : s.AtRest) {fh : UInt32} (hno : ¬ s.HasObject (Args.inodeid fh))
    (hreq : fhandle req = some fh) : s.Refuses stack req := by
  rw [fhandle] at hreq
  split at hreq
  · rename_i htype
    have hfh : req.body.word 0 = fh := Option.some.inj hreq
    have hcases : req.type = 3 ∨ req.type = 4 ∨ req.type = 5 ∨ req.type = 6 ∨ req.type = 7 := by
      omega
    rw [← hfh] at hno
    rcases hcases with ht | ht | ht | ht | ht
    · exact (declines_read h hno _ _).refuses (by rw [Args.ofReq, ht]; rfl)
    · exact (declines_write h hno _ _ _).refuses (by rw [Args.ofReq, ht]; rfl)
    · exact Fs.Declines.refuses (a := Args.createOf req.body) (by rw [Args.ofReq, ht]; rfl)
        (declines_createOf h hno 2 _ rfl)
    · exact Fs.Declines.refuses (a := Args.mkdirOf req.body) (by rw [Args.ofReq, ht]; rfl)
        (declines_createOf h hno 1 _ rfl)
    · exact (declines_readdir h hno _).refuses (by rw [Args.ofReq, ht]; rfl)
  · cases hreq

/-- The request of a type with this handle and zeros behind it. -/
def handleReq (type : Int) (fh : UInt32) : Req := ⟨type, 0, Page.setWord (fun _ => 0) 0 fh⟩

theorem handleReq_word (type : Int) (fh : UInt32) :
    (handleReq type fh).body.word 0 = fh ∧ (handleReq type fh).body.word 4 = 0 ∧
      (handleReq type fh).body.word 8 = 0 :=
  ⟨Page.word_setWord _ (by decide) fh, Page.word_setWord_of_out _ fh (by decide),
    Page.word_setWord_of_out _ fh (by decide)⟩

/-- If what a request asks of the file system is done, it is not refused. -/
theorem not_refuses {α : Type} {p : FsM α} {P : α → Prop} (hargs : Args.ofReq req = some a)
    (hp : ∀ v s', run Fs.handler p s = .ok (v, s') → P v)
    (hf : ∃ f, a.handler stack = p >>= f ∧ ∀ v, P v → Always (· ≠ none) (f v)) :
    ¬ s.Refuses stack req := by
  rintro ⟨res, s', hrun, hstatus, -⟩
  obtain ⟨f, hhandler, hf⟩ := hf
  rw [serve, hargs] at hrun
  dsimp only at hrun
  obtain ⟨r, s₁, hcall, hrest⟩ := run_bind_ok hrun
  rw [hhandler] at hcall
  obtain ⟨v, s₂, hv, hcall⟩ := run_bind_ok hcall
  obtain ⟨rfl, rfl⟩ := Prod.mk.inj (Except.ok.inj hrest)
  cases hr : r with
  | none => exact (hf v (hp v s₂ hv)).run hcall hr
  | some x =>
      rw [hr] at hstatus
      cases hstatus

theorem reads_object (h : s.AtRest) {fh : UInt32} (hid : Args.inodeid fh < 64)
    (hused : s.Used (Args.inodeid fh)) (htype : (s.inodeOf (Args.inodeid fh)).itype = 2) :
    ¬ s.Refuses stack (handleReq 3 fh) := by
  obtain ⟨hword, hoff, hcount⟩ := handleReq_word 3 fh
  refine not_refuses (a := Args.readOf (handleReq 3 fh).body) rfl
    (p := fsRead stack.page (Args.inodeid fh) 0 0) (P := fun v => v.1 = 0 ∧ v.2.1 ≠ none)
    (fun v s' hrun => ?_) ?_
  · obtain ⟨rest, hrest, heq⟩ := fsRead_guarded stack.page (Args.inodeid fh) 0 0
    rw [heq, if_neg (by omega)] at hrun
    exact guarded_passes h hused htype hrest hrun
  · change ∃ f, snfsRead stack _ _ _ = _ ∧ _
    rw [hword, hoff, hcount, snfsRead, if_neg (by decide)]
    refine ⟨_, rfl, fun v hv => ?_⟩
    obtain ⟨status, nread, data⟩ := v
    obtain ⟨hstatus, hnread⟩ := hv
    dsimp only
    rw [if_neg (by simpa using hstatus)]
    exact fun hnone => hnread (Option.map_eq_none_iff.mp hnone)

theorem lists_object (h : s.AtRest) {fh : UInt32} (hid : Args.inodeid fh < 64)
    (hused : s.Used (Args.inodeid fh)) (htype : (s.inodeOf (Args.inodeid fh)).itype = 1) :
    ¬ s.Refuses stack (handleReq 7 fh) := by
  obtain ⟨hword, hmax, -⟩ := handleReq_word 7 fh
  refine not_refuses (a := Args.readdirOf (handleReq 7 fh).body) rfl
    (p := fsReaddir stack.page (Args.inodeid fh) 0) (P := fun v => v.1 = 0)
    (fun v s' hrun => ?_) ?_
  · obtain ⟨rest, hrest, heq⟩ := fsReaddir_guarded stack.page (Args.inodeid fh) 0
    rw [heq, if_neg (by omega)] at hrun
    exact guarded_passes h hused htype hrest hrun
  · change ∃ f, snfsReaddir stack _ _ = _ ∧ _
    rw [hword, hmax, snfsReaddir]
    refine ⟨_, rfl, fun v hv => ?_⟩
    obtain ⟨status, entries⟩ := v
    dsimp only
    rw [if_neg (by simpa using hv)]
    split
    · trivial
    · refine always_bind (fun es _ => ?_) (Always.trivial _)
      exact Option.some_ne_none _

end

/-- The claim for one handle: if it is not the number of a used inode, requests with it are
refused and change nothing. -/
def Fs.RefusesForeign (fs : Fs) (fh : UInt32) : Prop :=
  ¬ (fh.toNat < 64 ∧ fs.Used fh.toNat) →
    ∀ stack req, fhandle req = some fh → fs.Refuses stack req

/-- Whatever has happened, a foreign handle is refused exactly if it is less than `2 ^ 16` or what
is left of it in 16 bits is the number of no file and no directory. -/
theorem foreign_handle_iff {numBlocks : Nat} {fs : Fs} (h : ServerReached numBlocks (.up fs))
    (fh : UInt32) :
    fs.RefusesForeign fh ↔ fh.toNat < 2 ^ 16 ∨ ¬ fs.HasObject (Args.inodeid fh) := by
  have hrest := h.atRest
  constructor
  · intro hrefuses
    by_contra hno
    rw [not_or, not_not] at hno
    obtain ⟨hlarge, ⟨hid, hused⟩, htype⟩ := hno
    have hall := hrefuses (by omega)
    rcases htype with htype | htype
    · exact lists_object hrest hid hused htype (hall ⟨fun _ => 0, 0⟩ _
        (congrArg some (handleReq_word 7 fh).1))
    · exact reads_object hrest hid hused htype (hall ⟨fun _ => 0, 0⟩ _
        (congrArg some (handleReq_word 3 fh).1))
  · rintro hor hforeign stack req hreq
    refine refuses_of_noObject hrest (fun hobj => ?_) hreq
    rcases hor with hsmall | hno
    · have hsame : Args.inodeid fh = fh.toNat := Nat.mod_eq_of_lt hsmall
      rw [hsame] at hobj
      exact hforeign hobj.1
    · exact hno hobj

/-- On a new server all requests with the handle 5 are refused. -/
theorem foreign_handle_iff_new_server :
    ∃ fs, snfsInit 12 (fun i => 7 * i) = .ok (.up fs) ∧ fs.RefusesForeign 5 := by
  have hfacts : (snfsInit 12 (fun i => 7 * i)).map (fun s => s.fs?.isSome) = .ok true := by
    decide +kernel
  obtain ⟨s, hs, hfacts⟩ := except_map_ok hfacts
  obtain ⟨fs, hfs⟩ := Option.isSome_iff_exists.mp hfacts
  obtain rfl := ServerState.eq_of_fs? hfs
  exact ⟨fs, hs, (foreign_handle_iff ⟨_, _, hs, [], Run.nil⟩ 5).mpr (Or.inl (by decide))⟩

/-- The request to write one byte at the beginning. -/
def writeByteReq (fh : UInt32) (byte : UInt8) : Req :=
  ⟨4, 0, ((Page.setWord (fun _ => 0) 0 fh).setWord 8 1).set 12 byte⟩

/-- There is one file, which has inode 2.  A write with the handle 65538 is answered `RES_OK` and
writes it. -/
theorem foreign_handle_writes_file :
    ∃ fs res fs', ServerReached 12 (.up fs) ∧ ¬ fs.RefusesForeign 65538 ∧
      run Fs.handler (serve ⟨fun _ => 0, 0⟩ (writeByteReq 65538 65)) fs = .ok (res, fs') ∧
      res.1.status = resOk ∧ fs.fileBytes 2 = [] ∧ fs'.fileBytes 2 = [65] := by
  have hfacts : (snfsInit 12 (fun i => 7 * i)).map (fun s =>
      (((s.step (⟨fun _ => 0, 0⟩, createReq 5 1 [102])).bind ServerState.fs?).map fun fs =>
        (fs.fileBytes 2, (run Fs.handler (serve ⟨fun _ => 0, 0⟩ (writeByteReq 65538 65)) fs).map
          fun p => (p.1.1.status, p.2.fileBytes 2)))) =
      .ok (some ([], .ok (resOk, [65]))) := by
    decide +kernel
  obtain ⟨s₀, hs, hfacts⟩ := except_map_ok hfacts
  obtain ⟨fs, hfs, hval⟩ := Option.map_eq_some_iff.mp hfacts
  obtain ⟨s, hstep, hup⟩ := Option.bind_eq_some_iff.mp hfs
  obtain rfl := ServerState.eq_of_fs? hup
  obtain ⟨hempty, hwrite⟩ := Prod.mk.inj hval
  obtain ⟨p, hrun, hwrite⟩ := except_map_ok hwrite
  obtain ⟨hstatus, hbytes⟩ := Prod.mk.inj hwrite
  refine ⟨fs, p.1, p.2, ⟨_, s₀, hs, _, Run.nil.snoc hstep⟩, fun hrefuses => ?_, hrun,
    hstatus, hempty, hbytes⟩
  obtain ⟨res, fs', hrun', herror, -⟩ := hrefuses (fun h => absurd h.1 (by decide))
    ⟨fun _ => 0, 0⟩ (writeByteReq 65538 65) (by decide +kernel)
  rw [hrun] at hrun'
  obtain ⟨rfl, -⟩ := Prod.mk.inj (Except.ok.inj hrun')
  rw [hstatus] at herror
  cases herror

end Sthreads.Snfs
