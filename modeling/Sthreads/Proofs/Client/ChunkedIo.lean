/-
Chunked I/O of the client is a faithful copy of its buffer.

`my_write` and `my_read` move at most 1024 bytes in a call, and a program may split a buffer
into several calls of its own.  Each piece is written where the last one ended, so the pieces
together overwrite what the whole buffer would have.  The blocks that a file has and the free
ones are together as many after a piece as before it: there are enough for every piece if there
are enough for the whole.

All of this is so once the file is open.  `my_open` looks up what `snfs_lookup` sends, which is
not the whole path.
-/
import Sthreads.Proofs.Client.Pieces

namespace Sthreads.Client

open Snfs Prog

/-! ### Open files -/

/-- The descriptor of an open file: its size is that of the file. -/
def Lib.Has (lib : Lib) (file : Nat) (bytes : List UInt8) (readOffset writeOffset : Nat) : Prop :=
  lib.get file = some ⟨file, bytes.length, readOffset, writeOffset⟩

/-! ### Writing -/

section

variable {t : Tree} {H : Halt → Prop} {file room : Nat}

/-- `my_write`, where everything fits -/
theorem answered_myWrite {lib : Lib} {bytes : List UInt8} {buffer : Nat → UInt8} {ro wo n : Nat}
    (hfile : FileIs t file bytes room) (hlib : lib.Has file bytes ro wo)
    (hfits : Fits bytes room wo n) {Q : Int × Lib → Tree → Prop}
    (hq : ∀ t' lib', FileIs t' file (Tree.overwrite bytes wo n buffer) room →
      lib'.Has file (Tree.overwrite bytes wo n buffer) ro (wo + n) → Q (n, lib') t') :
    wp Answered H (myWrite file buffer n lib) Q t := by
  refine answered_myWrite_file hfile hlib hfits.inside fun m r t' _ _ hr => ?_
  rcases hr with ⟨rfl, rfl, hfile'⟩ | ⟨-, hno, -⟩
  · have hlen : (Tree.overwrite bytes wo m buffer).length = max bytes.length (wo + m) :=
      length_overwrite hfits.inside
    have hdesc : FileDesc.wrote ⟨file, bytes.length, ro, wo⟩ bytes m =
        ⟨file, (Tree.overwrite bytes wo m buffer).length, ro, wo + m⟩ := by
      rw [FileDesc.wrote, hlen, FileDesc.mk.injEq]
      refine ⟨rfl, ?_, rfl, rfl⟩
      have hinside := hfits.inside
      dsimp only
      split <;> omega
    rw [hdesc]
    exact hq t' _ hfile' (Lib.get_assign hlib rfl)
  · exact absurd hfits hno

/-- Calls of `my_write` with the pieces of a buffer -/
theorem answered_writePieces {buffer : Nat → UInt8} {ro : Nat}
    {Q : List Int × Lib → Tree → Prop} :
    ∀ (ws : List Nat) (bytes : List UInt8) (t : Tree) (lib : Lib) (wo pos : Nat),
      FileIs t file bytes room → lib.Has file bytes ro wo → Fits bytes room wo ws.sum →
      (∀ t' lib', FileIs t' file
          (Tree.overwrite bytes wo ws.sum fun k => buffer (pos + k)) room →
        lib'.Has file (Tree.overwrite bytes wo ws.sum fun k => buffer (pos + k)) ro
          (wo + ws.sum) → Q (ws.map (↑), lib') t') →
      wp Answered H (writePieces file buffer pos ws lib) Q t := by
  intro ws
  induction ws generalizing Q with
  | nil =>
      intro bytes t lib wo pos hfile hlib hfits hq
      rw [List.sum_nil, overwrite_zero] at hq
      exact hq t lib hfile hlib
  | cons n ws ih =>
      intro bytes t lib wo pos hfile hlib hfits hq
      rw [List.sum_cons] at hfits hq
      obtain ⟨hfirst, hrest⟩ := (fits_add fun k => buffer (pos + k)).mp hfits
      rw [writePieces, wp_bind answered_mono]
      refine answered_myWrite hfile hlib hfirst fun t' lib' hfile' hlib' => ?_
      dsimp only
      rw [wp_bind answered_mono]
      refine ih _ t' lib' (wo + n) (pos + n) hfile' hlib' hrest fun t'' lib'' hfile'' hlib'' => ?_
      have hjoin := @overwrite_overwrite _ wo n ws.sum (fun k => buffer (pos + k)) hfits.inside
      simp only [← Nat.add_assoc] at hjoin
      rw [hjoin] at hfile'' hlib''
      rw [Nat.add_assoc] at hlib''
      exact hq t'' lib'' hfile'' hlib''

/-! ### Reading -/

/-- What is read of a file, piece by piece. -/
theorem take_drop_add (bytes : List UInt8) (offset a b : Nat) :
    (bytes.drop offset).take a ++ (bytes.drop (offset + a)).take b =
      (bytes.drop offset).take (a + b) := by
  rw [List.take_add, List.drop_drop]

/-- The loop of `my_read` -/
theorem answered_readLoop {bytes : List UInt8} {wo : Nat} (hfile : FileIs t file bytes room)
    {Q : Option Nat × List UInt8 × FileDesc → Tree → Prop} :
    ∀ (left ro n rBytes counter : Nat) (buffer : List UInt8),
      ro + n ≤ bytes.length → n ≤ left → rBytes ≤ 1024 → (n = 0 ∨ 0 < rBytes) →
      Q (some (counter + n), buffer ++ (bytes.drop ro).take n,
        ⟨file, bytes.length, ro + n, wo⟩) t →
      wp Answered H
        (readLoop file left ⟨file, bytes.length, ro, wo⟩ n rBytes counter buffer) Q t := by
  have hsize := hfile.size
  intro left
  induction left with
  | zero =>
      intro ro n rBytes counter buffer hend hleft hr hpos hq
      obtain rfl : n = 0 := by omega
      rw [List.take_zero, List.append_nil] at hq
      exact hq
  | succ left ih =>
      intro ro n rBytes counter buffer hend hleft hr hpos hq
      rw [readLoop]
      by_cases hn : n = 0
      · subst hn
        rw [List.take_zero, List.append_nil] at hq
        rw [if_pos rfl]
        exact hq
      · rw [if_neg hn]
        dsimp only
        generalize hpiece : min rBytes n = piece
        obtain ⟨rest, rfl⟩ : ∃ rest, n = piece + rest := ⟨n - piece, by omega⟩
        have hlen : ((bytes.drop ro).take piece).length = piece := by
          rw [List.length_take, List.length_drop]
          omega
        rw [wp_bind answered_mono]
        refine answered_read hfile.small (by omega) (by omega) hfile.node ?_
        dsimp only
        rw [hlen, Nat.mod_eq_of_lt (by omega),
          show (piece + rest + 2 ^ 32 - piece) % 2 ^ 32 = rest by omega]
        refine ih (ro + piece) rest piece (counter + piece) _ (by omega) (by omega) (by omega)
          (by omega) ?_
        rw [List.append_assoc, take_drop_add, Nat.add_assoc, Nat.add_assoc]
        exact hq

/-- `my_read`: it ends at the end of the file, unless the offset and `numBytes` are together too
large for an `unsigned`. -/
theorem answered_myRead {lib : Lib} {bytes : List UInt8} {ro wo n : Nat}
    (hfile : FileIs t file bytes room) (hlib : lib.Has file bytes ro wo)
    (hro : ro ≤ bytes.length) (hn : ro = bytes.length ∨ ro + n < 2 ^ 32)
    {Q : (Int × List UInt8) × Lib → Tree → Prop}
    (hq : ∀ lib' m, m = min n (bytes.length - ro) → lib'.Has file bytes (ro + m) wo →
      Q ((m, (bytes.drop ro).take n), lib') t) :
    wp Answered H (myRead file n lib) Q t := by
  have hsize := hfile.size
  rw [myRead, hlib]
  dsimp only
  by_cases heof : ro = bytes.length
  · subst heof
    rw [if_pos rfl]
    have h := hq lib 0 (by omega) hlib
    rw [List.drop_length, List.take_nil] at h
    exact h
  · generalize hm : (if bytes.length < (ro + n) % 2 ^ 32
      then (bytes.length + 2 ^ 32 - ro) % 2 ^ 32 else n) = m
    have hmin : m = min n (bytes.length - ro) := by
      rw [Nat.mod_eq_of_lt (by omega)] at hm
      split at hm <;> omega
    have htake : (bytes.drop ro).take m = (bytes.drop ro).take n := by
      rw [hmin, ← List.length_drop, Nat.min_comm, List.take_eq_take_min (i := n), Nat.min_comm]
    rw [if_neg heof, wp_bind answered_mono]
    refine answered_readLoop hfile m ro m (min m 1024) 0 [] (by omega) (Nat.le_refl _) (by omega)
      (by omega) ?_
    rw [Nat.zero_add, List.nil_append, htake]
    have h := hq _ m hmin (Lib.get_assign hlib rfl)
    rw [← asInt_ofNat (n := m) (by omega)] at h
    exact h

/-- Calls of `my_read` -/
theorem answered_readPieces {bytes : List UInt8} {wo : Nat} (hfile : FileIs t file bytes room)
    {Q : (List Int × List UInt8) × Lib → Tree → Prop} :
    ∀ (rs : List Nat) (lib : Lib) (ro : Nat), lib.Has file bytes ro wo →
      ro + rs.sum ≤ bytes.length →
      (∀ lib', Q ((rs.map (↑), (bytes.drop ro).take rs.sum), lib') t) →
      wp Answered H (readPieces file rs lib) Q t := by
  intro rs
  induction rs generalizing Q with
  | nil => exact fun lib ro _ _ hq => hq lib
  | cons n rs ih =>
      intro lib ro hlib hend hq
      rw [List.sum_cons] at hend hq
      rw [readPieces, wp_bind answered_mono]
      have hsize := hfile.size
      refine answered_myRead hfile hlib (by omega) (by omega) fun lib' m hm hlib' => ?_
      obtain rfl : m = n := by omega
      dsimp only
      rw [wp_bind answered_mono]
      refine ih lib' (ro + m) hlib' (by omega) fun lib'' => ?_
      dsimp only
      rw [take_drop_add]
      exact hq lib''

end

/-! ### Another handle -/

section

variable {t : Tree} {id fileId : Nat} {n : Node}

theorem served_writeLoop (hid : id ≠ Args.inodeid (.ofNat fileId)) {buffer : Nat → UInt8}
    {Q : Option Nat × FileDesc → Tree → Prop} (hq : ∀ x t', t'.node id = some n → Q x t') :
    ∀ (left : Nat) (t : Tree) (fdesc : FileDesc) (numBytes wBytes counter : Nat),
      t.node id = some n → wBytes ≤ 1024 →
      wp Served (fun _ => True) (writeLoop fileId buffer left fdesc numBytes wBytes counter) Q
        t := by
  intro left
  induction left with
  | zero =>
      intro t fdesc numBytes wBytes counter hnode hw
      rw [writeLoop]
      split
      · exact hq _ t hnode
      · trivial
  | succ left ih =>
      intro t fdesc numBytes wBytes counter hnode hw
      rw [writeLoop]
      split
      · exact hq _ t hnode
      · dsimp only
        rw [wp_bind served_mono]
        refine served_write (by omega) hid hnode fun r t' hnode' => ?_
        cases r with
        | none => exact hq _ t' hnode'
        | some fsize => exact ih t' _ _ _ _ hnode' (by omega)

/-- Calls of `my_write` leave every other object. -/
theorem served_writePieces (hid : id ≠ Args.inodeid (.ofNat fileId)) {buffer : Nat → UInt8}
    {Q : List Int × Lib → Tree → Prop} (hq : ∀ x t', t'.node id = some n → Q x t') :
    ∀ (ws : List Nat) (t : Tree) (lib : Lib) (pos : Nat), t.node id = some n →
      wp Served (fun _ => True) (writePieces fileId buffer pos ws lib) Q t := by
  intro ws
  induction ws generalizing Q with
  | nil => exact fun t lib pos hnode => hq _ t hnode
  | cons m ws ih =>
      intro t lib pos hnode
      rw [writePieces, wp_bind served_mono, myWrite]
      have hrest : ∀ (lib' : Lib) (t' : Tree) (f : List Int × Lib → List Int × Lib),
          t'.node id = some n → wp Served (fun _ => True)
            (writePieces fileId buffer (pos + m) ws lib' >>= fun x => pure (f x)) Q t' := by
        intro lib' t' f hnode'
        rw [wp_bind served_mono]
        exact ih (fun x t'' h => hq _ t'' h) t' lib' _ hnode'
      split
      · exact hrest lib t _ hnode
      · rw [wp_bind served_mono]
        exact served_writeLoop hid (fun x t' h => hrest _ t' _ h) _ _ _ _ _ _ hnode (by omega)

end

/-! ### Opening -/

/-- The first characters of a path with a component are a path with a component, as no `/` follows
the first. -/
theorem tokens_take {path : CStr} (hparse : myparse path = true)
    (htokens : tokens path.chars ≠ []) {n : Nat} (hn : 2 ≤ n) :
    tokens (path.chars.take n) ≠ [] := by
  obtain ⟨n, rfl⟩ : ∃ k, n = k + 2 := ⟨n - 2, by omega⟩
  simp only [myparse, Bool.and_eq_true, beq_iff_eq] at hparse
  obtain ⟨⟨⟨-, hdouble⟩, hhead⟩, -⟩ := hparse
  cases hchars : path.chars with
  | nil =>
      rw [hchars] at hhead
      cases hhead
  | cons a rest =>
      rw [hchars, List.head?_cons, Option.some.injEq] at hhead
      subst hhead
      cases rest with
      | nil =>
          rw [hchars] at htokens
          exact absurd rfl htokens
      | cons c rest =>
          have hc : c ≠ slash := by
            rintro rfl
            rw [hchars] at hdouble
            simp [hasDoubleSlash] at hdouble
          rw [List.take_succ_cons, List.take_succ_cons, tokens_slash, tokens, splitPath]
          simp [hc]

/-- What `my_open` opens: the file, exactly if the path that is sent leads to it. -/
theorem served_myOpen {t : Tree} {file : Nat} {bytes : List UInt8} (hwf : t.WF)
    (hnode : t.node file = some (.file bytes)) {path : CStr}
    (htokens : tokens path.chars ≠ []) (flags : Int) (lib : Lib)
    {Q : Int × Lib → Tree → Prop} (hfail : ∀ t', Q (-1, lib) t')
    (hopen : ∀ (id fsize : Nat) t', myparse path = true →
      t'.node file = some (.file bytes) → id < 2 ^ 16 →
      (id = file ↔ t.lookup (path.take 14).chars = .ok (1, some file)) →
      (id = file → fsize = bytes.length) → Q (id, lib.enqueue ⟨id, fsize, 0, 0⟩) t') :
    wp Served (fun _ => True) (myOpen path flags lib) Q t := by
  have hcount := hwf.count
  obtain ⟨-, hle, -, hmem⟩ := Tree.node_some hnode
  refine wp_mono served_mono (fun x t' h => ?_) _ _ (served_opened hwf path flags lib)
  cases h with
  | failed _ => exact hfail t'
  | found hparse hn hleads =>
      obtain ⟨-, hid, -, -⟩ := Tree.node_some hn
      have hlookup := hleads (tokens_take hparse htokens (by decide))
      refine hopen _ _ t hparse hnode (by omega) (by rw [hlookup]; simp) fun h => ?_
      rw [h, hnode] at hn
      obtain rfl := Option.some.inj hn
      have hsize := hwf.sizes _ hmem bytes rfl
      exact Nat.mod_eq_of_lt (by change bytes.length < _; omega)
  | @created id _ _ hparse hlater hnew hid _ _ hnot _ =>
      have hne : id ≠ file := by omega
      exact hopen _ _ t' hparse (hlater.unwritten (fun h => h) hnode) (by omega)
        ⟨fun h => absurd h hne, fun h => absurd h (hnot file _ hnode)⟩ fun h => absurd h hne

/-! ### The whole -/

/-- What is written from the beginning of a file. -/
theorem overwrite_list (bytes b : List UInt8) :
    Tree.overwrite bytes 0 b.length (fun i => b.getD i 0) = b ++ bytes.drop b.length := by
  have hb : (List.range b.length).map (fun i => b.getD i 0) = b := by
    refine List.ext_getElem (by simp) fun i h h' => ?_
    rw [List.getElem_map, List.getElem_range, List.getD_eq_getElem _ _ h']
  rw [Tree.overwrite, List.take_zero, List.nil_append, hb, Nat.zero_add]

/-- A buffer is written to the open file in any pieces and read back in any pieces. -/
def FaithfulCopy (numBlocks : Nat) (fd : Int) (file : Nat) (bytes : List UInt8) (lib : Lib)
    (s : Server) : Prop :=
  ∀ b : List UInt8, b.length ≤ 10 * 512 →
    offsetToBlocks (max bytes.length b.length) ≤
      offsetToBlocks bytes.length + freeCount s.fs.blkBmap numBlocks →
    ∀ ws rs : List Nat, ws.sum = b.length → rs.sum = b.length →
      ∃ lib' s' lib'' s'',
        run Server.rpc (writePieces fd.toNat (fun i => b.getD i 0) 0 ws lib) s =
          .ok ((ws.map (↑), lib'), s') ∧
        s'.fs.fileBytes file = b ++ bytes.drop b.length ∧
        run Server.rpc (readPieces fd.toNat rs lib') s' = .ok (((rs.map (↑), b), lib''), s'')

section

variable {numBlocks : Nat} {s : Server} {t : Tree} {file : Nat} {bytes : List UInt8} {lib : Lib}

theorem Server.IsTree.fileBytes (ht : s.IsTree numBlocks t)
    (hnode : t.node file = some (.file bytes)) : s.fs.fileBytes file = bytes :=
  (isTree_shows ht).file file bytes hnode

/-- A file that is open is copied to faithfully. -/
theorem faithfulCopy (hn : numBlocks < 2 ^ 32) (ht : s.IsTree numBlocks t)
    (hnode : t.node file = some (.file bytes)) (hlib : lib.Has file bytes 0 0) :
    FaithfulCopy numBlocks file file bytes lib s := by
  intro b hb hblocks ws rs hws hrs
  have hfile := fileIs_of_wf (isTree_wf ht) hnode
  rw [← isTree_free ht hn hnode] at hblocks
  have hfits : Fits bytes (offsetToBlocks bytes.length + t.free) 0 ws.sum :=
    ⟨Nat.zero_le _, by omega, by rw [hws, Nat.zero_add]; exact hblocks⟩
  rw [Int.toNat_natCast]
  have hwrite : wp Answered (fun _ => False) (writePieces file (fun i => b.getD i 0) 0 ws lib)
      (fun x t' => ∃ lib', x = (ws.map (↑), lib') ∧
        FileIs t' file (b ++ bytes.drop b.length) (offsetToBlocks bytes.length + t.free) ∧
        lib'.Has file (b ++ bytes.drop b.length) 0 b.length) t :=
    answered_writePieces ws bytes t lib 0 0 hfile hlib hfits fun t' lib' hfile' hlib' => by
      simp only [Nat.zero_add, hws, overwrite_list] at hfile' hlib'
      exact ⟨lib', rfl, hfile', hlib'⟩
  rcases run_sound answered_sound _ ht hwrite with
    ⟨x, s', t', hrun, ht', lib', rfl, hfile', hlib'⟩ | ⟨e, -, hno⟩
  · have hread := answered_readPieces (H := fun _ => False) hfile'
      (Q := fun x _ => ∃ lib'', x = ((rs.map (↑), b), lib'')) rs lib' 0 hlib'
      (by rw [List.length_append]; omega)
      fun lib'' => ⟨lib'', by rw [List.drop_zero, hrs, List.take_left]⟩
    rcases run_sound answered_sound _ ht' hread with
      ⟨x, s'', t'', hrun', -, lib'', rfl⟩ | ⟨e, -, hno⟩
    · exact ⟨lib', s', lib'', s'', hrun, ht'.fileBytes hfile'.node, hrun'⟩
    · exact hno.elim
  · exact hno.elim

end

/-! ### Pieces without bytes -/

section

variable {fileId : Nat} {d : FileDesc}

theorem writePieces_zero (buffer : Nat → UInt8) (ws : List Nat) (hsum : ws.sum = 0) :
    ∀ (pos : Nat) (lib : Lib), lib.get fileId = some d → ∃ lib', lib'.get fileId = some d ∧
      writePieces fileId buffer pos ws lib = pure (ws.map (↑), lib') := by
  induction ws with
  | nil => exact fun _ lib hlib => ⟨lib, hlib, rfl⟩
  | cons n ws ih =>
      intro pos lib hlib
      rw [List.sum_cons] at hsum
      obtain rfl : n = 0 := by omega
      obtain ⟨lib', hlib', hrest⟩ := ih (by omega) (pos + 0) (lib.assign d)
        (Lib.get_assign hlib (Lib.fileId_of_get hlib))
      have hone : myWrite fileId (fun k => buffer (pos + k)) 0 lib = pure (0, lib.assign d) := by
        rw [myWrite, hlib]
        rfl
      refine ⟨lib', hlib', ?_⟩
      rw [writePieces, hone]
      change (writePieces fileId buffer (pos + 0) ws (lib.assign d) >>= _) = _
      rw [hrest]
      rfl

theorem readPieces_zero (hd : d.readOffset = 0) (rs : List Nat) (hsum : rs.sum = 0) :
    ∀ lib : Lib, lib.get fileId = some d → ∃ lib',
      readPieces fileId rs lib = pure ((rs.map (↑), []), lib') := by
  induction rs with
  | nil => exact fun lib _ => ⟨lib, rfl⟩
  | cons n rs ih =>
      intro lib hlib
      rw [List.sum_cons] at hsum
      obtain rfl : n = 0 := by omega
      obtain ⟨lib', hlib', hone⟩ : ∃ lib', lib'.get fileId = some d ∧
          myRead fileId 0 lib = pure ((0, []), lib') := by
        rw [myRead, hlib]
        dsimp only
        by_cases heof : d.readOffset = d.size
        · exact ⟨lib, hlib, if_pos heof⟩
        · refine ⟨lib.assign d, Lib.get_assign hlib (Lib.fileId_of_get hlib), ?_⟩
          rw [if_neg heof, hd, if_neg (by omega)]
          rfl
      obtain ⟨lib'', hrest⟩ := ih (by omega) lib' hlib'
      refine ⟨lib'', ?_⟩
      rw [readPieces, hone]
      change (readPieces fileId rs lib' >>= _) = _
      rw [hrest]
      rfl

/-- Where no byte can be written every open file will do. -/
theorem faithfulCopy_nothing {numBlocks : Nat} {s : Server} {t : Tree} {file : Nat} {lib : Lib}
    (ht : s.IsTree numBlocks t) (hnode : t.node file = some (.file []))
    (hfree : freeCount s.fs.blkBmap numBlocks = 0) (hlib : lib.get fileId = some d)
    (hd : d.readOffset = 0) : FaithfulCopy numBlocks fileId file [] lib s := by
  intro b hb hblocks ws rs hws hrs
  obtain rfl : b = [] := by
    rw [List.length_nil, Nat.zero_max, offsetToBlocks_eq, offsetToBlocks_eq, hfree] at hblocks
    exact List.eq_nil_of_length_eq_zero (by omega)
  rw [Int.toNat_natCast]
  obtain ⟨lib', hlib', hwrite⟩ := writePieces_zero (fun i => ([] : List UInt8).getD i 0) ws hws 0
    lib hlib
  obtain ⟨lib'', hread⟩ := readPieces_zero hd rs hrs lib' hlib'
  exact ⟨lib', s, lib'', s, by rw [hwrite]; rfl, ht.fileBytes hnode, by rw [hread]; rfl⟩

end

/-! ### Files that are opened -/

section

variable {numBlocks : Nat} {s s' : Server} {t : Tree} {file : Nat} {bytes : List UInt8}

/-- A file's path has a component, and the tree has the file. -/
theorem leads_file (ht : s.IsTree numBlocks t) {path : List UInt8}
    (hpath : s.fs.Leads path file) (htype : (s.fs.inodeOf file).itype = 2) :
    tokens path ≠ [] ∧ t.node file = some (.file (s.fs.fileBytes file)) := by
  have hshows := isTree_shows ht
  obtain ⟨A, -, hrep, -, -⟩ := ht
  obtain ⟨es, hroot⟩ := hrep.wf.root
  have htokens : tokens path ≠ [] := by
    intro hnil
    have hwalk := hpath.2
    rw [hnil, Fs.walk, Option.some.injEq] at hwalk
    subst hwalk
    rw [hshows.itype 1 _ hroot] at htype
    cases htype
  have hwalk := (hshows.walk hrep.wf (tokens path) ⟨Nat.le_refl _, hrep.wf.length_pos⟩ none
    file).mpr (Or.inr ⟨htokens, hpath.2⟩)
  have hlast : ∀ i, (none : Option Nat) = some i → 1 ≤ i ∧ i ≤ t.nodes.length :=
    fun i h => by cases h
  obtain ⟨-, hle⟩ := Tree.walk_some hrep.wf hlast hwalk file rfl
  exact ⟨htokens, hshows.node_file ((hshows.used file).mpr hle) htype⟩

/-- If another handle is written to, the file stays, and so the copy is not faithful unless nothing
can be written. -/
theorem not_faithfulCopy {lib : Lib} {id : Nat} (hid : id < 2 ^ 16) (hne : id ≠ file)
    (ht : s.IsTree numBlocks t) (hnode : t.node file = some (.file bytes))
    (hroom : ¬ (bytes = [] ∧ freeCount s.fs.blkBmap numBlocks = 0)) :
    ¬ FaithfulCopy numBlocks id file bytes lib s := by
  intro hcopy
  -- one byte, other than the first of the file
  obtain ⟨c, hc⟩ : ∃ c : UInt8, bytes ≠ c :: bytes.drop 1 := by
    cases bytes with
    | nil => exact ⟨0, fun h => by cases h⟩
    | cons d rest => exact ⟨d + 1, fun h => by simpa using (List.cons.inj h).1⟩
  have hblocks : offsetToBlocks (max bytes.length [c].length) ≤
      offsetToBlocks bytes.length + freeCount s.fs.blkBmap numBlocks := by
    rw [offsetToBlocks_eq, offsetToBlocks_eq, List.length_singleton]
    rcases Nat.eq_zero_or_pos bytes.length with hzero | hpos
    · have : freeCount s.fs.blkBmap numBlocks ≠ 0 :=
        fun h => hroom ⟨List.eq_nil_of_length_eq_zero hzero, h⟩
      omega
    · omega
  obtain ⟨lib', s', lib'', s'', hrun, hbytes, -⟩ := hcopy [c] (by simp) hblocks [1] [1] rfl rfl
  have hother : file ≠ Args.inodeid (.ofNat id) := by
    rw [inodeid_ofNat hid]
    exact fun h => hne h.symm
  rw [Int.toNat_natCast] at hrun
  obtain ⟨t', ht', hnode'⟩ := run_sound_if_ok served_sound _ ht
    (served_writePieces hother (Q := fun _ t' => t'.node file = some (.file bytes))
      (fun _ _ h => h) [1] t lib 0 hnode) hrun
  rw [ht'.fileBytes hnode'] at hbytes
  exact hc hbytes

end

/-- A buffer is copied faithfully, in any pieces, exactly if the first 14 characters of the path
lead to the file that was to be opened, unless nothing can be written to it. -/
theorem chunked_io_iff {numBlocks : Nat} (hn : 10 ≤ numBlocks) (hn' : numBlocks < 2 ^ 32)
    {readings : Nat → Int} {s₀ : ServerState} (hinit : snfsInit numBlocks readings = .ok s₀)
    {tr : List (ServerState × (Stack × Req))} {s : Server}
    (hreach : Run ServerState.step s₀ tr (.up s.fs)) (hsafe : ∀ p ∈ tr, p.1.Safe p.2)
    {path : CStr} {file : Nat} (hpath : s.fs.Leads path.chars file)
    (htype : (s.fs.inodeOf file).itype = 2) {flags : Int} {lib lib' : Lib} {fd : Int}
    {s' : Server} (hopen : run Server.rpc (myOpen path flags lib) s = .ok ((fd, lib'), s'))
    (hfd : fd ≠ -1) (honly : ∀ d ∈ lib.openFilesList, (d.fileId : Int) ≠ fd) :
    FaithfulCopy numBlocks fd file (s.fs.fileBytes file) lib' s' ↔
      s.fs.Leads (path.take 14).chars file ∨
        s.fs.fileBytes file = [] ∧ freeCount s'.fs.blkBmap numBlocks = 0 := by
  obtain ⟨t, ht⟩ : ∃ t, s.IsTree numBlocks t := hreach.invariant_of (ServerState.Sane numBlocks)
    ServerState.Safe (Sane.init hn hinit) (fun _ _ _ h hok hs => Sane.step h hok hs) hsafe
  obtain ⟨htokens, hnode⟩ := leads_file ht hpath htype
  generalize hbytes : s.fs.fileBytes file = bytes at hnode
  have hshows := isTree_shows ht
  have hwf : t.WF := by
    obtain ⟨A, -, hrep, -, -⟩ := ht
    exact hrep.wf
  obtain ⟨t', ht', hopened⟩ := run_sound_if_ok served_sound _ ht (served_myOpen
    (Q := fun x t' => x.1 = -1 ∨ ∃ id fsize : Nat, x = (↑id, lib.enqueue ⟨id, fsize, 0, 0⟩) ∧
      myparse path = true ∧ t'.node file = some (.file bytes) ∧ id < 2 ^ 16 ∧
      (id = file ↔ t.lookup (path.take 14).chars = .ok (1, some file)) ∧
      (id = file → fsize = bytes.length))
    hwf hnode htokens flags lib (fun _ => .inl rfl)
    fun id fsize t' h0 h1 h2 h3 h4 => .inr ⟨id, fsize, rfl, h0, h1, h2, h3, h4⟩) hopen
  rcases hopened with hfail | ⟨id, fsize, hx, hparse, hnode', hid, hiff, hsize⟩
  · exact absurd hfail hfd
  obtain ⟨rfl, rfl⟩ := Prod.mk.inj hx
  have hcut : id = file ↔ s.fs.Leads (path.take 14).chars file := by
    rw [hiff]
    refine hshows.leads hwf ?_ (tokens_take hparse htokens (by decide)) file
    exact Nat.lt_of_le_of_lt (List.length_take_le _ _) (by omega)
  have hget : (lib.enqueue ⟨id, fsize, 0, 0⟩).get id = some ⟨id, fsize, 0, 0⟩ := by
    have hnone : lib.openFilesList.find? (·.fileId == id) = none := by
      rw [List.find?_eq_none]
      intro d hd hd'
      exact honly d hd (by exact_mod_cast beq_iff_eq.mp hd')
    rw [Lib.get, Lib.enqueue, List.find?_append, hnone]
    simp
  constructor
  · intro hcopy
    by_cases heq : id = file
    · exact Or.inl (hcut.mp heq)
    · by_contra hno
      exact not_faithfulCopy hid heq ht' hnode' (fun h => hno (Or.inr h)) hcopy
  · rintro (hleads | ⟨hnil, hfree⟩)
    · obtain rfl := hcut.mpr hleads
      obtain rfl : fsize = bytes.length := hsize rfl
      exact faithfulCopy hn' ht' hnode' hget
    · subst hnil
      exact faithfulCopy_nothing ht' hnode' hfree hget rfl

/-- `/f` -/
def shortPath : CStr := ⟨[47, 102], by decide⟩

/-- A server that is up, and a file that was opened there. -/
theorem opened_of_bind {s : Option ServerState} {path : CStr} {α : Type}
    {f : Fs → (Int × Lib) × Server → α} {a : α}
    (h : ((s.bind ServerState.fs?).bind fun fs =>
      (run Server.rpc (myOpen path 0 ⟨[], 0⟩) (.start fs)).toOption.map (f fs)) = some a) :
    ∃ fs s' fd lib, s = some (.up fs) ∧
      run Server.rpc (myOpen path 0 ⟨[], 0⟩) (.start fs) = .ok ((fd, lib), s') ∧
      f fs ((fd, lib), s') = a := by
  obtain ⟨fs, hfs, hmap⟩ := Option.bind_eq_some_iff.mp h
  obtain ⟨s₁, rfl, hs₁⟩ := Option.bind_eq_some_iff.mp hfs
  obtain ⟨⟨⟨fd, lib⟩, s'⟩, hopen, hval⟩ := Option.map_eq_some_iff.mp hmap
  refine ⟨fs, s', fd, lib, congrArg some (ServerState.eq_of_fs? hs₁), ?_, hval⟩
  cases hrun : run Server.rpc (myOpen path 0 ⟨[], 0⟩) (.start fs) with
  | error e =>
      rw [hrun] at hopen
      cases hopen
  | ok x =>
      rw [hrun] at hopen
      exact congrArg Except.ok (Option.some.inj hopen)

/-- A new file `/f` is copied to. -/
theorem chunked_io_iff_short :
    ∃ fs lib s', run Server.rpc (myOpen shortPath 0 ⟨[], 0⟩) (.start fs) = .ok ((2, lib), s') ∧
      FaithfulCopy 16 2 2 (fs.fileBytes 2) lib s' := by
  let req : Stack × Req := (⟨fun _ => 0, 0⟩, (ApiCall.create 1 ⟨[102], by decide⟩).request 0)
  have hfacts : (snfsInit 16 (fun i => 7 * i)).map (fun s₀ =>
      ((s₀.step req).bind ServerState.fs?).bind fun fs =>
        (run Server.rpc (myOpen shortPath 0 ⟨[], 0⟩) (.start fs)).toOption.map fun x =>
          (decide (fs.Leads shortPath.chars 2), (fs.inodeOf 2).itype, x.1.1)) =
      .ok (some (true, 2, 2)) := by
    decide +kernel
  obtain ⟨s₀, hs, hfacts⟩ := except_map_ok hfacts
  obtain ⟨fs, s', fd, lib, hfs, hopen, hval⟩ := opened_of_bind hfacts
  simp only [Prod.mk.injEq, decide_eq_true_eq] at hval
  obtain ⟨hleads, htype, rfl⟩ := hval
  refine ⟨fs, lib, s', hopen, (chunked_io_iff (by decide) (by decide) hs
    (s := .start fs) (Run.nil.snoc hfs) ?_ hleads htype hopen (by decide)
    (by simp)).mpr (Or.inl hleads)⟩
  intro p hp
  obtain rfl : p = (s₀, req) := by simpa using hp
  cases s₀ with
  | ended e => trivial
  | up fs₀ =>
      intro a ha
      obtain rfl := Option.some.inj ha
      exact ⟨trivial, fun file h => by cases h⟩

/-- `/abcdefghijklm/x` is opened, and what is opened is the directory. -/
theorem long_path_opens_directory :
    ∃ s₀ fs lib s', snfsInit 16 (fun i => 7 * i) = .ok s₀ ∧
      Reaches ServerState.step s₀ (.up fs) ∧
      fs.Leads longPath.chars 3 ∧ (fs.inodeOf 3).itype = 2 ∧
      run Server.rpc (myOpen longPath 0 ⟨[], 0⟩) (.start fs) = .ok ((2, lib), s') ∧
      ¬ FaithfulCopy 16 2 3 (fs.fileBytes 3) lib s' := by
  let reqs : List (Stack × Req) :=
    ([.mkdir 1 ⟨(longPath.chars.take 14).drop 1, by decide⟩, .create 2 ⟨[120], by decide⟩] :
      List ApiCall).map fun c => (⟨fun _ => 0, 0⟩, c.request 0)
  have hfacts : (snfsInit 16 (fun i => 7 * i)).map (fun s₀ =>
      ((runActs ServerState.step s₀ reqs).bind ServerState.fs?).bind fun fs =>
        (run Server.rpc (myOpen longPath 0 ⟨[], 0⟩) (.start fs)).toOption.map fun x =>
          (decide (fs.Leads longPath.chars 3 ∧ (fs.inodeOf 3).itype = 2 ∧
            fs.fileBytes 3 = [] ∧ 1 ≤ freeCount x.2.fs.blkBmap 16), x.1.1,
            (run Server.rpc (writePieces 2 (fun i => [65].getD i 0) 0 [1] x.1.2)
              x.2).toOption.map fun y => y.1.1)) = .ok (some (true, 2, some [-1])) := by
    decide +kernel
  obtain ⟨s₀, hs, hfacts⟩ := except_map_ok hfacts
  obtain ⟨fs, s', fd, lib, hfs, hopen, hval⟩ := opened_of_bind hfacts
  simp only [Prod.mk.injEq, decide_eq_true_eq] at hval
  obtain ⟨⟨hleads, htype, hbytes, hfree⟩, rfl, hwrite⟩ := hval
  refine ⟨s₀, fs, lib, s', hs, reaches_runActs _ hfs, hleads, htype, hopen, fun hcopy => ?_⟩
  rw [hbytes] at hcopy
  have hblocks : offsetToBlocks (max ([] : List UInt8).length [(65 : UInt8)].length) ≤
      offsetToBlocks ([] : List UInt8).length + freeCount s'.fs.blkBmap 16 :=
    Nat.le_trans (by decide) (Nat.add_le_add_left hfree _)
  obtain ⟨lib', s'', -, -, hrun, -⟩ := hcopy [65] (by decide) hblocks [1] [1] rfl rfl
  change run Server.rpc (writePieces 2 (fun i => [65].getD i 0) 0 [1] lib) s' = _ at hrun
  rw [hrun] at hwrite
  cases hwrite

end Sthreads.Client
