/-
Whether every `my_open` gets a descriptor of its own.

The descriptors are in a list that is searched by the number of the file, and that number is
also what `my_open` returns.  If a file is opened twice there are two descriptors with one
number, and everything that is done through it goes to the older one.

The opens are numbered here in the order in which they were made, and a call says which of
them it is meant for; the library does not see this.  Nothing is assumed of the server.
-/
import Sthreads.Proofs.Client.ChunkedIo

namespace Sthreads.Client

open Prog Snfs

/-! ### Calls and what they are meant for -/

/-- A call, with the number of the open it is meant for. -/
inductive OpensCall
  | openFile (name : CStr) (flags : Int)
  | read (k numBytes : Nat)
  | write (k : Nat) (buffer : Nat → UInt8) (numBytes : Nat)
  | close (k : Nat)

/-- The library and its server; what the opens returned, and which opens the descriptors in
`Open_files_list` are of. -/
structure Opens (σ : Type) where
  lib : Lib
  server : σ
  ids : List Nat
  numbers : List Nat

/-- The descriptor's offset for reading or for writing -/
def FileDesc.offset (d : FileDesc) (writing : Bool) : Nat :=
  if writing then d.writeOffset else d.readOffset

namespace OpensCall

/-- The open that the call is meant for -/
def meant : OpensCall → Option Nat
  | openFile .. => none
  | read k _ => some k
  | write k _ _ => some k
  | close k => some k

/-- The call as the library gets it -/
def user (ids : List Nat) : OpensCall → UserCall
  | openFile name flags => .openFile name flags
  | read k numBytes => .read (ids.getD k 0) numBytes
  | write k buffer numBytes => .write (ids.getD k 0) buffer numBytes
  | close k => .close (ids.getD k 0)

/-- The call moves the offset, or closes the file, of this number. -/
def moves (ids : List Nat) (id : Nat) (writing : Bool) : OpensCall → Bool
  | openFile .. => false
  | read k _ => !writing && ids.getD k 0 == id
  | write k _ _ => writing && ids.getD k 0 == id
  | close k => ids.getD k 0 == id

end OpensCall

namespace Opens

variable {σ : Type}

/-- A client that has made no calls -/
def start (server : σ) : Opens σ := ⟨⟨[], 0⟩, server, [], []⟩

/-- The state after a call that leaves the library and the server so: an open has returned the
number of the descriptor that it has put at the end of the list. -/
def after (s : Opens σ) (lib : Lib) (server : σ) : OpensCall → Opens σ
  | .openFile .. =>
      match lib.openFilesList[s.lib.openFilesList.length]? with
      | none => ⟨lib, server, s.ids, s.numbers⟩
      | some d => ⟨lib, server, s.ids ++ [d.fileId], s.numbers ++ [s.ids.length]⟩
  | .close k =>
      ⟨lib, server, s.ids,
        s.numbers.eraseIdx (s.lib.openFilesList.findIdx (·.fileId == s.ids.getD k 0))⟩
  | _ => ⟨lib, server, s.ids, s.numbers⟩

/-- A call, of a file that has been opened. -/
def step (h : Handler ApiCall (fun _ => Option Results × UInt32) Halt σ) (s : Opens σ)
    (a : OpensCall) : Option (Opens σ) :=
  if a.meant.all (· < s.ids.length) then
    match run h ((a.user s.ids).prog s.lib) s.server with
    | .ok ((_, lib), server) => some (s.after lib server a)
    | .error _ => none
  else none

/-- Open `k` is valid, and this is its descriptor. -/
def Has (s : Opens σ) (k : Nat) (d : FileDesc) : Prop :=
  (k, d) ∈ s.numbers.zip s.lib.openFilesList

end Opens

section

variable {σ : Type} (h : Handler ApiCall (fun _ => Option Results × UInt32) Halt σ)

/-- All along a run every open is independent of the others. -/
structure Independent (tr : List (Opens σ × OpensCall)) (s : Opens σ) : Prop where
  /-- A call that is meant for one valid open leaves the others valid, with their descriptors. -/
  apart : ∀ x a x', (x, a) ∈ tr → Opens.step h x a = some x' →
    (∀ k, a.meant = some k → ∃ d, x.Has k d) →
      ∀ j d, a.meant ≠ some j → x.Has j d → x'.Has j d
  /-- After an open the number it has returned stands for a descriptor with the offset zero, until
  a call moves it. -/
  starts : ∀ tr₁ x name flags x' id tr₂, tr = tr₁ ++ (x, .openFile name flags) :: tr₂ →
    Opens.step h x (.openFile name flags) = some x' → x'.ids = x.ids ++ [id] →
      ∀ writing, (∀ p ∈ tr₂, p.2.moves p.1.ids id writing = false) →
        ∃ d, s.lib.get id = some d ∧ d.offset writing = 0

/-- The file that the server names to an open is not open already. -/
def NotOpenYet (x : Opens σ) (a : OpensCall) : Prop :=
  ∀ x' id, Opens.step h x a = some x' → x'.ids = x.ids ++ [id] → x.lib.get id = none

end

/-! ### What the functions of the library do to its list -/

/-- `my_open` adds a descriptor at the end of the list or none. -/
def Lib.Opened (lib lib' : Lib) : Prop :=
  lib' = lib ∨ ∃ fileId size, lib' = lib.enqueue ⟨fileId, size, 0, 0⟩

/-- The descriptor that is found under a number is assigned to, but one offset of it. -/
def Lib.Assigned (lib lib' : Lib) (fileId : Nat) (writing : Bool) : Prop :=
  lib' = lib ∨ ∃ d d', lib.get fileId = some d ∧ lib' = lib.assign d' ∧ d'.fileId = fileId ∧
    d'.offset writing = d.offset writing

section

variable {lib : Lib}

theorem always_myOpen (name : CStr) (flags : Int) :
    Always (fun r => lib.Opened r.2) (myOpen name flags lib) := by
  have hopened : ∀ (r : Int) fileId size,
      Always (fun r : Int × Lib => lib.Opened r.2)
        (pure (r, lib.enqueue ⟨fileId, size, 0, 0⟩) : ApiM (Int × Lib)) :=
    fun r fileId size => Or.inr ⟨fileId, size, rfl⟩
  have hsame : ∀ r : Int, Always (fun r : Int × Lib => lib.Opened r.2)
      (pure (r, lib) : ApiM (Int × Lib)) := fun r => Or.inl rfl
  unfold myOpen
  generalize splitName name = parts
  obtain ⟨i, newfilename, newdirname⟩ := parts
  by_cases hslots : lib.openFiles ≥ 10
  · rw [if_pos hslots]
    exact hsame _
  rw [if_neg hslots]
  by_cases hparse : (!myparse name) = true
  · rw [if_pos hparse]
    exact hsame _
  rw [if_neg hparse]
  refine always_bind (fun r _ => ?_) (Always.trivial (snfsLookup name))
  obtain ⟨found, file, fsize⟩ := r
  dsimp only
  cases found with
  | true => exact hopened _ _ _
  | false =>
      refine always_bind (fun r _ => ?_) (Always.trivial (snfsLookup newdirname))
      obtain ⟨found, dir, fsize⟩ := r
      dsimp only
      by_cases hflags : flags = 1
      · rw [if_pos hflags]
        refine always_bind (fun r _ => ?_) (Always.trivial (snfsCreate _ _))
        cases r with
        | none => exact hsame _
        | some file => exact hopened _ _ _
      · rw [if_neg hflags]
        exact hsame _

theorem always_readLoop (fileId : Nat) (left : Nat) :
    ∀ (fdesc : FileDesc) (numBytes rBytes counter : Nat) (buffer : List UInt8),
      Always (fun r => r.2.2.fileId = fdesc.fileId ∧ r.2.2.writeOffset = fdesc.writeOffset)
        (readLoop fileId left fdesc numBytes rBytes counter buffer) := by
  induction left with
  | zero =>
      intro fdesc numBytes rBytes counter buffer
      rw [readLoop]
      split
      · exact ⟨rfl, rfl⟩
      · trivial
  | succ left ih =>
      intro fdesc numBytes rBytes counter buffer
      rw [readLoop]
      split
      · exact ⟨rfl, rfl⟩
      · refine always_bind (fun r _ => ?_) (Always.trivial (snfsRead _ _ _))
        cases r with
        | none => exact ⟨rfl, rfl⟩
        | some x =>
            exact ih { fdesc with readOffset := (fdesc.readOffset + x.2) % 2 ^ 32 } _ _ _ _

theorem always_myRead (fileId numBytes : Nat) :
    Always (fun r => lib.Assigned r.2 fileId true) (myRead fileId numBytes lib) := by
  unfold myRead
  split
  · exact Or.inl rfl
  · rename_i d hd
    split
    · exact Or.inl rfl
    · refine always_bind (fun r hr => ?_) (always_readLoop _ _ _ _ _ _ _)
      exact Or.inr ⟨d, r.2.2, hd, rfl, hr.1.trans (Lib.fileId_of_get hd), hr.2⟩

theorem always_writeLoop (fileId : Nat) (buffer : Nat → UInt8) (left : Nat) :
    ∀ (fdesc : FileDesc) (numBytes wBytes counter : Nat),
      Always (fun r => r.2.fileId = fdesc.fileId ∧ r.2.readOffset = fdesc.readOffset)
        (writeLoop fileId buffer left fdesc numBytes wBytes counter) := by
  induction left with
  | zero =>
      intro fdesc numBytes wBytes counter
      rw [writeLoop]
      split
      · exact ⟨rfl, rfl⟩
      · trivial
  | succ left ih =>
      intro fdesc numBytes wBytes counter
      rw [writeLoop]
      split
      · exact ⟨rfl, rfl⟩
      · refine always_bind (fun r _ => ?_) (Always.trivial (snfsWrite _ _ _ _))
        cases r with
        | none => exact ⟨rfl, rfl⟩
        | some fsize =>
            exact ih { fdesc with
              size := fsize, writeOffset := (fdesc.writeOffset + min wBytes numBytes) % 2 ^ 32 } _ _ _

theorem always_myWrite (fileId : Nat) (buffer : Nat → UInt8) (numBytes : Nat) :
    Always (fun r => lib.Assigned r.2 fileId false) (myWrite fileId buffer numBytes lib) := by
  unfold myWrite
  split
  · exact Or.inl rfl
  · rename_i d hd
    refine always_bind (fun r hr => ?_) (always_writeLoop _ _ _ _ _ _ _)
    exact Or.inr ⟨d, r.2, hd, rfl, hr.1.trans (Lib.fileId_of_get hd), hr.2⟩

end

/-! ### Looking a number up -/

section

variable {lib lib' : Lib} {fileId id : Nat} {d : FileDesc} {writing : Bool}

/-- An offset that is not moved stays, whichever file the call is for. -/
theorem Lib.Assigned.get (h : lib.Assigned lib' fileId writing) (hd : lib.get id = some d) :
    ∃ d', lib'.get id = some d' ∧ d'.offset writing = d.offset writing := by
  rcases h with rfl | ⟨e, e', he, rfl, hid, hoff⟩
  · exact ⟨d, hd, rfl⟩
  · by_cases hne : id = fileId
    · subst hne
      obtain rfl := Option.some.inj (he.symm.trans hd)
      exact ⟨e', Lib.get_assign he hid, hoff⟩
    · exact ⟨d, (Lib.get_assign_other (hid ▸ hne)).trans hd, rfl⟩

theorem Lib.Assigned.get_other (h : lib.Assigned lib' fileId writing) (hne : id ≠ fileId) :
    lib'.get id = lib.get id := by
  rcases h with rfl | ⟨e, e', he, rfl, hid, hoff⟩
  · rfl
  · exact Lib.get_assign_other (hid ▸ hne)

theorem Lib.Opened.get (h : lib.Opened lib') (hd : lib.get id = some d) :
    lib'.get id = some d := by
  rcases h with rfl | ⟨fileId, size, rfl⟩
  · exact hd
  · exact List.find?_append.trans (by rw [show lib.openFilesList.find? _ = some d from hd]; rfl)

end

/-! ### What a call can do -/

section

variable {σ : Type} {h : Handler ApiCall (fun _ => Option Results × UInt32) Halt σ}

/-- What a call can make of the state. -/
inductive Did (s : Opens σ) : OpensCall → Opens σ → Prop
  | opened (name : CStr) (flags : Int) (server : σ) (id size : Nat) :
      Did s (.openFile name flags) ⟨s.lib.enqueue ⟨id, size, 0, 0⟩, server, s.ids ++ [id],
        s.numbers ++ [s.ids.length]⟩
  | notOpened (name : CStr) (flags : Int) (server : σ) :
      Did s (.openFile name flags) { s with server := server }
  | read (k numBytes : Nat) (server : σ) (lib : Lib)
      (hlib : s.lib.Assigned lib (s.ids.getD k 0) true) :
      Did s (.read k numBytes) { s with lib := lib, server := server }
  | write (k : Nat) (buffer : Nat → UInt8) (numBytes : Nat) (server : σ) (lib : Lib)
      (hlib : s.lib.Assigned lib (s.ids.getD k 0) false) :
      Did s (.write k buffer numBytes) { s with lib := lib, server := server }
  | close (k : Nat) (server : σ) (lib : Lib)
      (hlib : lib.openFilesList = s.lib.openFilesList.eraseP (·.fileId == s.ids.getD k 0)) :
      Did s (.close k) ⟨lib, server, s.ids,
        s.numbers.eraseIdx (s.lib.openFilesList.findIdx (·.fileId == s.ids.getD k 0))⟩

theorem did_of_step {s s' : Opens σ} {a : OpensCall} (hs : Opens.step h s a = some s') :
    Did s a s' := by
  unfold Opens.step at hs
  split at hs
  · cases hrun : run h ((a.user s.ids).prog s.lib) s.server with
    | error e =>
        rw [hrun] at hs
        cases hs
    | ok x =>
        obtain ⟨⟨r, lib⟩, server⟩ := x
        rw [hrun] at hs
        obtain rfl := Option.some.inj hs
        cases a with
        | openFile name flags =>
            obtain ⟨y, server', hopen, hret⟩ := run_bind_ok hrun
            obtain ⟨⟨rfl, rfl⟩, rfl⟩ : ((y.1, []) = r ∧ y.2 = lib) ∧ server' = server := by
              simpa [pure, run] using hret
            rcases (always_myOpen name flags).run hopen with hlib | ⟨id, size, hlib⟩
            · have hafter : s.after y.2 server' (.openFile name flags) =
                  { s with server := server' } := by
                simp [Opens.after, hlib]
              rw [hafter]
              exact .notOpened name flags server'
            · have hafter : s.after y.2 server' (.openFile name flags) =
                  ⟨s.lib.enqueue ⟨id, size, 0, 0⟩, server', s.ids ++ [id],
                    s.numbers ++ [s.ids.length]⟩ := by
                simp [Opens.after, hlib, Lib.enqueue]
              rw [hafter]
              exact .opened name flags server' id size
        | read k numBytes => exact .read k numBytes server lib ((always_myRead _ _).run hrun)
        | write k buffer numBytes =>
            obtain ⟨y, server', hwrite, hret⟩ := run_bind_ok hrun
            obtain ⟨⟨rfl, rfl⟩, rfl⟩ : ((y.1, []) = r ∧ y.2 = lib) ∧ server' = server := by
              simpa [pure, run] using hret
            exact .write k buffer numBytes server' y.2 ((always_myWrite _ _ _).run hwrite)
        | close k =>
            have hlib : (myClose (s.ids.getD k 0) s.lib).2 = lib ∧ s.server = server := by
              have hret := Prod.mk.inj (Except.ok.inj hrun)
              exact ⟨(Prod.mk.inj hret.1).2, hret.2⟩
            refine .close k server lib ?_
            rw [← hlib.1]
            exact myClose_list _ _
  · cases hs

/-! ### The descriptors with their numbers -/

/-- The descriptors in the list are these, each with the number of its open, and no two of them are
of one file. -/
structure Keyed (s : Opens σ) (ps : List (Nat × FileDesc)) : Prop where
  numbers : s.numbers = ps.map Prod.fst
  list : s.lib.openFilesList = ps.map Prod.snd
  once : (ps.map Prod.fst).Nodup
  keys : (ps.map (·.2.fileId)).Nodup
  ids : ∀ p ∈ ps, s.ids[p.1]? = some p.2.fileId

namespace Keyed

variable {s s' : Opens σ} {ps : List (Nat × FileDesc)} {k : Nat} {d : FileDesc}

theorem has_iff (hk : Keyed s ps) : s.Has k d ↔ (k, d) ∈ ps := by
  have hzip : (ps.map Prod.fst).zip (ps.map Prod.snd) = ps := by
    rw [List.zip_map', List.map_id'']
    exact fun p => rfl
  rw [Opens.Has, hk.numbers, hk.list, hzip]

/-- The number of a file leads to one descriptor. -/
theorem eq_of_fileId (hk : Keyed s ps) {p q : Nat × FileDesc} (hp : p ∈ ps) (hq : q ∈ ps)
    (heq : p.2.fileId = q.2.fileId) : p = q :=
  List.inj_on_of_nodup_map hk.keys hp hq heq

theorem get_eq_some (hk : Keyed s ps) {p : Nat × FileDesc} (hp : p ∈ ps) :
    s.lib.get p.2.fileId = some p.2 := by
  have hsome : (s.lib.openFilesList.find? (·.fileId == p.2.fileId)).isSome = true := by
    rw [List.find?_isSome, hk.list]
    exact ⟨p.2, List.mem_map_of_mem hp, beq_self_eq_true _⟩
  obtain ⟨d, hd⟩ := Option.isSome_iff_exists.mp hsome
  have hmem := List.mem_of_find?_eq_some hd
  rw [hk.list] at hmem
  obtain ⟨q, hq, rfl⟩ := List.mem_map.mp hmem
  obtain rfl := hk.eq_of_fileId hp hq (Lib.fileId_of_get hd).symm
  exact hd

/-- Assigning through the number of a file replaces the descriptor of it. -/
theorem assignFirst_map {d' : FileDesc} :
    ∀ {ps : List (Nat × FileDesc)}, (ps.map (·.2.fileId)).Nodup →
      Lib.assign.assignFirst d' (ps.map Prod.snd) =
        (ps.map fun p => if p.2.fileId = d'.fileId then (p.1, d') else p).map Prod.snd := by
  intro ps
  induction ps with
  | nil => exact fun _ => rfl
  | cons p ps ih =>
      intro hnodup
      rw [List.map_cons, List.nodup_cons] at hnodup
      obtain ⟨hnot, hnodup⟩ := hnodup
      rw [List.map_cons, Lib.assign.assignFirst, List.map_cons, List.map_cons]
      by_cases hp : p.2.fileId = d'.fileId
      · rw [if_pos (beq_iff_eq.mpr hp), if_pos hp, List.map_map]
        refine congrArg (d' :: ·) (List.map_congr_left fun q hq => ?_)
        have hq' : q.2.fileId ≠ d'.fileId := by
          intro hc
          exact hnot (List.mem_map.mpr ⟨q, hq, hc.trans hp.symm⟩)
        rw [Function.comp_apply, if_neg hq']
      · rw [if_neg (by simpa using hp), if_neg hp, ih hnodup]

/-- A file is read or written. -/
theorem assigned (hk : Keyed s ps) {lib : Lib} (server : σ) {id : Nat} {writing : Bool}
    (hlib : s.lib.Assigned lib id writing) :
    ∃ ps', Keyed { s with lib := lib, server := server } ps' ∧
      ∀ p ∈ ps, p.2.fileId ≠ id → p ∈ ps' := by
  rcases hlib with rfl | ⟨e, e', he, rfl, hid, -⟩
  · exact ⟨ps, ⟨hk.numbers, hk.list, hk.once, hk.keys, hk.ids⟩, fun p hp _ => hp⟩
  · have hfst : ∀ p : Nat × FileDesc, (if p.2.fileId = e'.fileId then (p.1, e') else p).1 = p.1 :=
      fun p => by split <;> rfl
    have hsnd : ∀ p : Nat × FileDesc,
        (if p.2.fileId = e'.fileId then (p.1, e') else p).2.fileId = p.2.fileId :=
      fun p => by
        split
        · rename_i hp
          exact hp.symm
        · rfl
    refine ⟨ps.map fun p => if p.2.fileId = e'.fileId then (p.1, e') else p,
      ⟨?_, ?_, ?_, ?_, fun q hq => ?_⟩, fun p hp hne => ?_⟩
    · rw [List.map_map]
      exact hk.numbers.trans (List.map_congr_left fun p _ => (hfst p).symm)
    · rw [← assignFirst_map hk.keys, ← hk.list]
      rfl
    · rw [List.map_map]
      exact (List.map_congr_left fun p _ => (hfst p).symm) ▸ hk.once
    · rw [List.map_map]
      exact (List.map_congr_left fun p _ => (hsnd p).symm) ▸ hk.keys
    · obtain ⟨p, hp, rfl⟩ := List.mem_map.mp hq
      dsimp only
      rw [hfst, hsnd]
      exact hk.ids p hp
    · refine List.mem_map.mpr ⟨p, hp, if_neg fun hc => hne (hc.trans hid)⟩

theorem eraseIdx_map {f : Nat × FileDesc → Bool} {g : FileDesc → Bool}
    (hfg : ∀ p : Nat × FileDesc, f p = g p.2) : ∀ ps : List (Nat × FileDesc),
      (ps.map Prod.fst).eraseIdx ((ps.map Prod.snd).findIdx g) = (ps.eraseP f).map Prod.fst ∧
        (ps.map Prod.snd).eraseP g = (ps.eraseP f).map Prod.snd := by
  intro ps
  induction ps with
  | nil => exact ⟨rfl, rfl⟩
  | cons p ps ih =>
      rw [List.map_cons, List.map_cons, List.findIdx_cons, List.eraseP_cons, List.eraseP_cons,
        hfg p]
      cases g p.2 with
      | true => exact ⟨rfl, rfl⟩
      | false => exact ⟨congrArg (p.1 :: ·) ih.1, congrArg (p.2 :: ·) ih.2⟩

/-- A file is closed. -/
theorem closed (hk : Keyed s ps) {lib : Lib} (server : σ) {id : Nat}
    (hlib : lib.openFilesList = s.lib.openFilesList.eraseP (·.fileId == id)) :
    ∃ ps', Keyed (⟨lib, server, s.ids,
        s.numbers.eraseIdx (s.lib.openFilesList.findIdx (·.fileId == id))⟩ : Opens σ) ps' ∧
      ∀ p ∈ ps, p.2.fileId ≠ id → p ∈ ps' := by
  obtain ⟨hnumbers, hlist⟩ := eraseIdx_map (f := fun p => p.2.fileId == id)
    (g := (·.fileId == id)) (fun p => rfl) ps
  have hsub : (ps.eraseP fun p => p.2.fileId == id).Sublist ps := List.eraseP_sublist
  refine ⟨ps.eraseP fun p => p.2.fileId == id, ⟨?_, ?_, ?_, ?_, fun p hp => ?_⟩,
    fun p hp hne => ?_⟩
  · rw [← hnumbers, hk.numbers, hk.list]
  · rw [← hlist, hlib, hk.list]
  · exact hk.once.sublist (hsub.map _)
  · exact hk.keys.sublist (hsub.map _)
  · exact hk.ids p (hsub.subset hp)
  · exact (List.mem_eraseP_of_neg (by simpa using hne)).mpr hp

/-- A file that is not open yet is opened. -/
theorem opened (hk : Keyed s ps) {server : σ} {id size : Nat} (hnew : s.lib.get id = none) :
    Keyed (⟨s.lib.enqueue ⟨id, size, 0, 0⟩, server, s.ids ++ [id],
      s.numbers ++ [s.ids.length]⟩ : Opens σ) (ps ++ [(s.ids.length, ⟨id, size, 0, 0⟩)]) := by
  have hbound : ∀ p ∈ ps, p.1 < s.ids.length := fun p hp =>
    (List.getElem?_eq_some_iff.mp (hk.ids p hp)).1
  have hother : ∀ p ∈ ps, p.2.fileId ≠ id := by
    rintro p hp rfl
    rw [hk.get_eq_some hp] at hnew
    cases hnew
  refine ⟨?_, ?_, ?_, ?_, fun p hp => ?_⟩
  · rw [List.map_append, ← hk.numbers]
    rfl
  · rw [List.map_append, ← hk.list]
    rfl
  · rw [List.map_append, List.nodup_append]
    refine ⟨hk.once, List.nodup_singleton _, fun a ha b hb => ?_⟩
    obtain ⟨p, hp, rfl⟩ := List.mem_map.mp ha
    rw [List.mem_singleton.mp hb]
    exact Nat.ne_of_lt (hbound p hp)
  · rw [List.map_append, List.nodup_append]
    refine ⟨hk.keys, List.nodup_singleton _, fun a ha b hb => ?_⟩
    obtain ⟨p, hp, rfl⟩ := List.mem_map.mp ha
    rw [List.mem_singleton.mp hb]
    exact hother p hp
  · rcases List.mem_append.mp hp with hp | hp
    · exact (List.getElem?_append_left (hbound p hp)).trans (hk.ids p hp)
    · rw [List.mem_singleton.mp hp]
      exact List.getElem?_concat_length

/-- One call: what is said of the descriptors holds afterwards, and those of other files are as
they were. -/
theorem step {a : OpensCall} (hk : Keyed s ps) (hnew : NotOpenYet h s a)
    (hs : Opens.step h s a = some s') :
    ∃ ps', Keyed s' ps' ∧
      ∀ p ∈ ps, (∀ k, a.meant = some k → p.2.fileId ≠ s.ids.getD k 0) → p ∈ ps' := by
  have hdid := did_of_step hs
  cases hdid with
  | opened name flags server id size =>
      exact ⟨_, hk.opened (hnew _ id hs rfl), fun p hp _ => List.mem_append_left _ hp⟩
  | notOpened name flags server =>
      exact ⟨ps, ⟨hk.numbers, hk.list, hk.once, hk.keys, hk.ids⟩, fun p hp _ => hp⟩
  | read k numBytes server lib hlib =>
      obtain ⟨ps', hk', hkeep⟩ := hk.assigned server hlib
      exact ⟨ps', hk', fun p hp hne => hkeep p hp (hne k rfl)⟩
  | write k buffer numBytes server lib hlib =>
      obtain ⟨ps', hk', hkeep⟩ := hk.assigned server hlib
      exact ⟨ps', hk', fun p hp hne => hkeep p hp (hne k rfl)⟩
  | close k server lib hlib =>
      obtain ⟨ps', hk', hkeep⟩ := hk.closed server hlib
      exact ⟨ps', hk', fun p hp hne => hkeep p hp (hne k rfl)⟩

theorem run {server : σ} {tr : List (Opens σ × OpensCall)}
    (hrun : Run (Opens.step h) (.start server) tr s) (hnew : ∀ p ∈ tr, NotOpenYet h p.1 p.2) :
    ∃ ps, Keyed s ps := by
  refine hrun.invariant_of (fun s => ∃ ps, Keyed s ps) (NotOpenYet h) ?_ ?_ hnew
  · exact ⟨[], rfl, rfl, List.nodup_nil, List.nodup_nil, fun p hp => by cases hp⟩
  · rintro s a s' ⟨ps, hk⟩ hok hs
    obtain ⟨ps', hk', -⟩ := hk.step hok hs
    exact ⟨ps', hk'⟩

end Keyed

/-! ### Offsets that are not moved -/

/-- A call that does not move the offset found under a number leaves it. -/
theorem offset_step {s s' : Opens σ} {a : OpensCall} {id : Nat} {writing : Bool} {d : FileDesc}
    (hs : Opens.step h s a = some s') (hmoves : a.moves s.ids id writing = false)
    (hd : s.lib.get id = some d) :
    ∃ d', s'.lib.get id = some d' ∧ d'.offset writing = d.offset writing := by
  have hdid := did_of_step hs
  cases hdid with
  | opened name flags server id' size =>
      exact ⟨d, Lib.Opened.get (Or.inr ⟨id', size, rfl⟩) hd, rfl⟩
  | notOpened name flags server => exact ⟨d, hd, rfl⟩
  | read k numBytes server lib hlib =>
      cases writing with
      | true => exact hlib.get hd
      | false =>
          have hne : id ≠ s.ids.getD k 0 := fun hc => by simp [OpensCall.moves, hc] at hmoves
          exact ⟨d, (hlib.get_other hne).trans hd, rfl⟩
  | write k buffer numBytes server lib hlib =>
      cases writing with
      | true =>
          have hne : id ≠ s.ids.getD k 0 := fun hc => by simp [OpensCall.moves, hc] at hmoves
          exact ⟨d, (hlib.get_other hne).trans hd, rfl⟩
      | false => exact hlib.get hd
  | close k server lib hlib =>
      have hne : id ≠ s.ids.getD k 0 := fun hc => by simp [OpensCall.moves, hc] at hmoves
      refine ⟨d, ?_, rfl⟩
      have hget : ∀ l : List FileDesc, (l.eraseP (·.fileId == s.ids.getD k 0)).find?
          (·.fileId == id) = l.find? (·.fileId == id) := by
        intro l
        induction l with
        | nil => rfl
        | cons e l ih =>
            rw [List.eraseP_cons, List.find?_cons]
            by_cases he : (e.fileId == s.ids.getD k 0) = true
            · have hid : (e.fileId == id) = false := by
                rw [beq_iff_eq.mp he]
                exact beq_eq_false_iff_ne.mpr (Ne.symm hne)
              rw [he, hid]
              rfl
            · rw [Bool.eq_false_of_not_eq_true he]
              change (e :: List.eraseP _ l).find? _ = _
              rw [List.find?_cons, ih]
      exact (congrArg (List.find? (·.fileId == id)) hlib).trans ((hget _).trans hd)

theorem offset_run {s₀ s : Opens σ} {tr : List (Opens σ × OpensCall)} {id : Nat}
    {writing : Bool} (hrun : Run (Opens.step h) s₀ tr s)
    (hmoves : ∀ p ∈ tr, p.2.moves p.1.ids id writing = false)
    (hstart : ∃ d, s₀.lib.get id = some d ∧ d.offset writing = 0) :
    ∃ d, s.lib.get id = some d ∧ d.offset writing = 0 := by
  refine hrun.invariant_of (fun s => ∃ d, s.lib.get id = some d ∧ d.offset writing = 0)
    (fun s a => a.moves s.ids id writing = false) hstart ?_ hmoves
  rintro s a s' ⟨d, hd, hzero⟩ hm hs
  obtain ⟨d', hd', hoff⟩ := offset_step hs hm hd
  exact ⟨d', hd', hoff.trans hzero⟩

/--
Every `my_open` gets a descriptor of its own, in every run in which the file that the server
names to an open is never one that is open already.

A call that is meant for one of the valid opens leaves the others valid and their
descriptors as they are, and the number that an open returns leads to a descriptor with both
offsets zero until it is read, written or closed through that number.
-/
theorem opens_independent {server : σ} {tr : List (Opens σ × OpensCall)} {s : Opens σ}
    (hrun : Run (Opens.step h) (.start server) tr s) (hnew : ∀ p ∈ tr, NotOpenYet h p.1 p.2) :
    Independent h tr s := by
  refine ⟨fun x a x' hxa hs hvalid j d hj hd => ?_,
    fun tr₁ x name flags x' id tr₂ htr hs hids writing hmoves => ?_⟩
  · obtain ⟨tr₁, tr₂, htr⟩ := List.append_of_mem hxa
    subst htr
    obtain ⟨hx, -⟩ := hrun.split_at
    obtain ⟨ps, hk⟩ := Keyed.run hx fun p hp => hnew p (List.mem_append_left _ hp)
    obtain ⟨ps', hk', hkeep⟩ := hk.step (hnew (x, a) hxa) hs
    rw [hk.has_iff] at hd
    rw [hk'.has_iff]
    refine hkeep _ hd fun k hmeant hid => ?_
    -- the call is meant for another open, whose descriptor has another number
    obtain ⟨e, he⟩ := hvalid k hmeant
    rw [hk.has_iff] at he
    have hget : x.ids.getD k 0 = e.fileId := by
      rw [List.getD_eq_getElem?_getD, hk.ids _ he]
      rfl
    have heq := hk.eq_of_fileId hd he (hid.trans hget)
    rw [hmeant] at hj
    exact hj (congrArg some (congrArg Prod.fst heq).symm)
  · subst htr
    obtain ⟨-, x'', hx', hrest⟩ := hrun.split_at
    obtain rfl := Option.some.inj (hs.symm.trans hx')
    have hnone := hnew (x, .openFile name flags) (List.mem_append_right _ List.mem_cons_self)
      x' id hs hids
    refine offset_run hrest hmoves ?_
    have hdid := did_of_step hs
    cases hdid with
    | opened name flags server id' size =>
        obtain rfl : id' = id := by simpa using List.append_cancel_left hids
        refine ⟨⟨id', size, 0, 0⟩, ?_, by cases writing <;> rfl⟩
        refine List.find?_append.trans ?_
        rw [show x.lib.openFilesList.find? _ = none from hnone]
        simp
    | notOpened name flags server =>
        simp at hids

theorem notOpenYet_of_all {x : Opens σ} {a : OpensCall}
    (hcheck : ((Opens.step h x a).all fun x' =>
      (x'.ids.drop x.ids.length).all fun id => (x.lib.get id).isNone) = true) :
    NotOpenYet h x a := by
  intro x' id hs hids
  rw [hs, Option.all_some, hids, List.drop_left] at hcheck
  simpa using hcheck

end

/-- Two files are opened and one of them is written. -/
theorem opens_independent_two_files :
    ∃ fs tr s, Fs.session 12 (fun i => 7 * i) (fun _ _ => 0)
        [.create 1 ⟨[97], by decide⟩, .create 1 ⟨[98], by decide⟩] = .ok fs ∧
      Run (Opens.step Server.rpc) (.start (.start fs)) tr s ∧
      s.lib.openFilesList = [⟨2, 1, 0, 1⟩, ⟨3, 0, 0, 0⟩] ∧ Independent Server.rpc tr s := by
  have hfacts : (Fs.session 12 (fun i => 7 * i) (fun _ _ => 0)
      [.create 1 ⟨[97], by decide⟩, .create 1 ⟨[98], by decide⟩]).map (fun fs =>
        (runTrace (Opens.step Server.rpc) (.start (.start fs))
          [.openFile ⟨[47, 97], by decide⟩ 0, .write 0 (fun _ => 65) 1,
            .openFile ⟨[47, 98], by decide⟩ 0]).map fun r =>
              (r.2.lib.openFilesList, r.1.all fun p => (Opens.step Server.rpc p.1 p.2).all fun x' =>
                (x'.ids.drop p.1.ids.length).all fun id => (p.1.lib.get id).isNone)) =
      .ok (some ([⟨2, 1, 0, 1⟩, ⟨3, 0, 0, 0⟩], true)) := by
    decide +kernel
  cases hs : Fs.session 12 (fun i => 7 * i) (fun _ _ => 0)
      [.create 1 ⟨[97], by decide⟩, .create 1 ⟨[98], by decide⟩] with
  | error e =>
      rw [hs] at hfacts
      cases hfacts
  | ok fs =>
      rw [hs] at hfacts
      obtain ⟨⟨tr, s⟩, htr, hval⟩ := Option.map_eq_some_iff.mp (Except.ok.inj hfacts)
      obtain ⟨hlist, hall⟩ := Prod.mk.inj hval
      have hrun : Run (Opens.step Server.rpc) (.start (.start fs)) tr s :=
        run_of_runTrace _ .nil htr
      exact ⟨fs, tr, s, rfl, hrun, hlist, opens_independent hrun fun p hp =>
        notOpenYet_of_all (List.all_eq_true.mp hall p hp)⟩

/-- A file is opened, a byte is written to it, and it is opened once more: the number that is
returned leads to the older descriptor, and the next write starts at byte 1. -/
theorem second_open_is_not_at_start :
    ∃ fs tr s, Fs.session 12 (fun i => 7 * i) (fun _ _ => 0)
        [.create 1 ⟨[97], by decide⟩] = .ok fs ∧
      Run (Opens.step Server.rpc) (.start (.start fs)) tr s ∧
      s.lib.openFilesList = [⟨2, 1, 0, 1⟩, ⟨2, 1, 0, 0⟩] ∧ ¬ Independent Server.rpc tr s := by
  have hfacts : (Fs.session 12 (fun i => 7 * i) (fun _ _ => 0)
      [.create 1 ⟨[97], by decide⟩]).map (fun fs =>
        (runTrace (Opens.step Server.rpc) (.start (.start fs))
          [.openFile ⟨[47, 97], by decide⟩ 0, .write 0 (fun _ => 65) 1]).bind fun r =>
            (Opens.step Server.rpc r.2 (.openFile ⟨[47, 97], by decide⟩ 0)).map fun s =>
              (r.2.ids, s.ids, s.lib.openFilesList)) =
      .ok (some ([2], [2, 2], [⟨2, 1, 0, 1⟩, ⟨2, 1, 0, 0⟩])) := by
    decide +kernel
  cases hs : Fs.session 12 (fun i => 7 * i) (fun _ _ => 0) [.create 1 ⟨[97], by decide⟩] with
  | error e =>
      rw [hs] at hfacts
      cases hfacts
  | ok fs =>
      rw [hs] at hfacts
      obtain ⟨⟨tr, x⟩, htr, hlast⟩ := Option.bind_eq_some_iff.mp (Except.ok.inj hfacts)
      obtain ⟨s, hstep, hval⟩ := Option.map_eq_some_iff.mp hlast
      simp only [Prod.mk.injEq] at hval
      obtain ⟨hids, hids', hlist⟩ := hval
      have hrun : Run (Opens.step Server.rpc) (.start (.start fs)) tr x :=
        run_of_runTrace _ .nil htr
      refine ⟨fs, _, s, rfl, hrun.snoc hstep, hlist, fun hind => ?_⟩
      obtain ⟨d, hd, hzero⟩ := hind.starts tr x _ _ s 2 [] rfl hstep (by rw [hids, hids']; rfl) true
        fun p hp => by cases hp
      rw [Lib.get, hlist] at hd
      obtain rfl := Option.some.inj hd
      cases hzero

end Sthreads.Client
