/-
Marks are never taken away.

No operation clears a bit of a bitmap, and `fs_format` does not either: it sets the bits of
the first inodes and of the first blocks.
-/
import Sthreads.Proofs.Snfs.FailedWrite
import Sthreads.Proofs.Snfs.Format

namespace Sthreads.Snfs

open Cache

/-- What is marked stays marked. -/
structure Fs.Marks (s s' : Fs) : Prop where
  inodes : ∀ id, s.Used id → s'.Used id
  blocks : ∀ b, bmapIsset s.blkBmap b = true → bmapIsset s'.blkBmap b = true

/-- The same bitmaps. -/
def SameBitmaps (s s' : Fs) : Prop := s'.inodeBmap = s.inodeBmap ∧ s'.blkBmap = s.blkBmap

section

variable {s s' : Fs}

theorem Fs.Marks.refl (s : Fs) : s.Marks s := ⟨fun _ h => h, fun _ h => h⟩

theorem Fs.Marks.trans {s'' : Fs} (h : s.Marks s') (h' : s'.Marks s'') : s.Marks s'' :=
  ⟨fun id hid => h'.inodes id (h.inodes id hid), fun b hb => h'.blocks b (h.blocks b hb)⟩

theorem SameBitmaps.refl (s : Fs) : SameBitmaps s s := ⟨rfl, rfl⟩

theorem SameBitmaps.trans {s'' : Fs} (h : SameBitmaps s s') (h' : SameBitmaps s' s'') :
    SameBitmaps s s'' := ⟨h'.1.trans h.1, h'.2.trans h.2⟩

theorem SameBitmaps.marks (h : SameBitmaps s s') : s.Marks s' := by
  refine ⟨fun id hid => ?_, fun b hb => ?_⟩
  · rw [Fs.Used, h.1]
    exact hid
  · rw [h.2]
    exact hb

/-! ### The caches -/

theorem ic_keeps_bitmaps (s : Fs) : Keeps Fs.icBacking (SameBitmaps s) where
  read _ _ _ h := h
  write _ _ _ h := h
  tick _ h := h
  time _ h := h

theorem bc_keeps_bitmaps (s : Fs) : Keeps Fs.bcBacking (SameBitmaps s) where
  read _ _ _ h := h
  write _ _ _ h := h
  tick _ h := h
  time _ h := h

theorem sameBitmaps_bcRead (s : Fs) (b : Nat) : SameBitmaps s (s.bcRead b).2 :=
  fetch_keeps (bc_keeps_bitmaps s) Fs.writebackInterval b (SameBitmaps.refl s)

theorem sameBitmaps_bcWrite (s : Fs) (b : Nat) (buf : Page 512) :
    SameBitmaps s (s.bcWrite b buf) :=
  store_keeps (bc_keeps_bitmaps s) Fs.writebackInterval b buf (SameBitmaps.refl s)

theorem dc_keeps_bitmaps (s : Fs) : Keeps Fs.dcBacking (SameBitmaps s) where
  read k _ s' h := h.trans (sameBitmaps_bcRead s' k.2)
  write k v s' h := h.trans (sameBitmaps_bcWrite s' k.2 v)
  tick _ h := h
  time _ h := h

theorem sameBitmaps_icInvalidate (s : Fs) (id : Nat) : SameBitmaps s (s.icInvalidate id) := by
  rw [icInvalidate_eq]
  refine List.foldlRecOn (motive := fun q : (Fin 4 → Entry Nat Inode) × Fs => SameBitmaps s q.2)
    _ _ (SameBitmaps.refl s) fun q hq i _ => ?_
  unfold invalidateSlot
  split
  · exact flush_keeps (ic_keeps_bitmaps s) i hq
  · exact hq

theorem sameBitmaps_icDirty (s : Fs) (id : Nat) : SameBitmaps s (s.icDirty id) := by
  rw [Fs.icDirty]
  split
  · exact SameBitmaps.refl s
  · dsimp only
    split
    · exact SameBitmaps.refl s
    · exact SameBitmaps.refl s

theorem storeBlocks_bitmaps (st : Store) :
    st.storeBlocks.inodeBmap = st.inodeBmap ∧ st.storeBlocks.blkBmap = st.blkBmap := by
  rw [Store.storeBlocks]
  exact List.foldlRecOn
    (motive := fun q : Store => q.inodeBmap = st.inodeBmap ∧ q.blkBmap = st.blkBmap) _ _
    ⟨rfl, rfl⟩ fun q hq i _ => hq

theorem sameBitmaps_storeFsdata (s : Fs) : SameBitmaps s s.storeFsdata := by
  have hic : SameBitmaps s s.icFlushAll := flushAll_keeps (ic_keeps_bitmaps s) (SameBitmaps.refl s)
  have hdc : SameBitmaps s s.icFlushAll.dcFlushAll := flushAll_keeps (dc_keeps_bitmaps s) hic
  have hbc : SameBitmaps s s.icFlushAll.dcFlushAll.bcFlushAll :=
    flushAll_keeps (bc_keeps_bitmaps s) hdc
  exact hbc.trans (storeBlocks_bitmaps _)

/-! ### Operations, calls and formatting -/

/-- Setting a bit leaves the others. -/
theorem bmapIsset_set {bmap : Page 512} {num : Nat} (b : Nat) (h : bmapIsset bmap num = true) :
    bmapIsset (bmapSet bmap b) num = true := by
  by_cases hb : b < 4096
  · rw [bmapIsset_bmapSet hb, h, Bool.or_true]
  · have hsame : bmapSet bmap b = bmap := by
      funext k
      have hk := k.isLt
      rw [bmapSet, Page.set, if_neg (by omega)]
    rw [hsame]
    exact h

theorem marks_exec (o : FsOp) (s : Fs) : s.Marks (Fs.exec o s).2 := by
  have same : ∀ {s'}, SameBitmaps s s' → s.Marks s' := SameBitmaps.marks
  cases o with
  | icGet id => exact same (fetch_keeps (ic_keeps_bitmaps s) _ id (SameBitmaps.refl s))
  | inode p => exact Fs.Marks.refl s
  | setSize p n => exact same ⟨rfl, rfl⟩
  | setBlock p i b => exact same ⟨rfl, rfl⟩
  | icDirty id => exact same (sameBitmaps_icDirty s id)
  | icInvalidate id => exact same (sameBitmaps_icInvalidate s id)
  | bcRead b buf => exact same (sameBitmaps_bcRead s b)
  | bcWrite b buf => exact same (sameBitmaps_bcWrite s b buf)
  | dcRead dir b page =>
      exact same (fetch_keeps (dc_keeps_bitmaps s) _ (dir, b) (SameBitmaps.refl s))
  | dcWrite dir b page =>
      exact same (store_keeps (dc_keeps_bitmaps s) _ (dir, b) page (SameBitmaps.refl s))
  | inodeBmap => exact Fs.Marks.refl s
  | blkBmap => exact Fs.Marks.refl s
  | setInodeBmap num => exact ⟨fun id hid => bmapIsset_set num hid, fun _ hb => hb⟩
  | setBlkBmap num => exact ⟨fun _ hid => hid, fun b hb => bmapIsset_set num hb⟩
  | blockNumBlocks => exact Fs.Marks.refl s
  | inodeInit id itype => exact same ⟨rfl, rfl⟩
  | storeFsdata => exact same (sameBitmaps_storeFsdata s)
  | strtok left => exact same ⟨rfl, rfl⟩

/-- A run that returns has taken no mark away. -/
theorem run_marks {α : Type} (p : FsM α) : ∀ {s s' : Fs} {a : α},
    Prog.run Fs.handler p s = .ok (a, s') → s.Marks s' := by
  induction p with
  | ret b =>
      intro s s' a h
      obtain ⟨-, rfl⟩ := Prod.mk.inj (Except.ok.inj h)
      exact Fs.Marks.refl s
  | halt e =>
      intro s s' a h
      cases h
  | op o k ih =>
      intro s s' a h
      have hmarks := marks_exec o s
      exact hmarks.trans (ih _ (run_exec (f := k) h))

/-- What is marked after `fs_format`. -/
theorem fsFormat_bitmaps (h : s.fsFormat = .ok s') :
    s'.inodeBmap = bmapSet (bmapSet s.inodeBmap 0) 1 ∧
      s'.blkBmap = (List.range 10).foldl bmapSet s.blkBmap := by
  rw [Fs.fsFormat, Fs.checked] at h
  split at h
  · cases h
  · obtain rfl := Except.ok.inj h
    obtain ⟨hibm, hbbm⟩ := sameBitmaps_storeFsdata (s.withStore s.formatted)
    obtain ⟨hbbm', hibm', -⟩ := formatted_metadata s.toStore
    exact ⟨hibm.trans hibm', hbbm.trans hbbm'⟩

theorem marks_fsFormat (h : s.fsFormat = .ok s') : s.Marks s' := by
  obtain ⟨hibm, hbbm⟩ := fsFormat_bitmaps h
  refine ⟨fun id hid => ?_, fun b hb => ?_⟩
  · rw [Fs.Used, hibm]
    exact bmapIsset_set 1 (bmapIsset_set 0 hid)
  · rw [hbbm]
    exact List.foldlRecOn (motive := fun bmap => bmapIsset bmap b = true) _ _ hb
      fun bmap hset i _ => bmapIsset_set i hset

end

end Sthreads.Snfs
