/-
What is mounted from the blocks behaves as the file system that wrote them.

After a successful update a file system with empty caches, filled by `fsi_load_fsdata` from
the blocks or from an image of them that `block_store` has written and `block_load` has read
back, is the same tree.  So it answers every sequence of calls as the other would have.
-/
import Sthreads.Proofs.Snfs.BlockStore
import Sthreads.Proofs.Snfs.Durability

namespace Sthreads.Snfs

open Prog

/-- Nothing outside the blocks that are loaded has been accessed. -/
theorem blockLoad_wild {file : Option (List UInt8)} {r : Σ sz, Blocks sz}
    (h : blockLoad file = some r) : r.2.wild = false := by
  cases file with
  | none => cases h
  | some file =>
      rw [blockLoad] at h
      split at h
      · cases h
      · dsimp only at h
        split at h
        · cases h
        · split at h
          · cases h
          · obtain rfl := Option.some.inj h
            rfl

namespace Blocks

/-- What was stored is loaded as a copy, if it is stored in one `write`. -/
theorem copied_image (bks : Blocks 512) (hsize : 8 + bks.numBlocks * 512 ≤ 0x7ffff000)
    (hwild : bks.wild = false) (old : List UInt8) :
    ∃ file bks', bks.blockStore (some old) = (some file, 0) ∧
      blockLoad (some file) = some ⟨512, bks'⟩ ∧ bks.Copied bks' := by
  have hmod : bks.numBlocks * 512 % 2 ^ 32 = bks.numBlocks * 512 := Nat.mod_eq_of_lt (by omega)
  obtain ⟨file, bks', hstore, hload, hnum, halloc, hbytes⟩ :=
    bks.blockLoad_blockStore (by decide) (by omega) (by omega) old
  rw [hmod] at halloc
  have hhas : ∀ b, bks.Has b → bks'.Has b := by
    intro b hb
    obtain ⟨hlt, -, -⟩ := hb
    refine ⟨?_, ?_, ?_⟩
    · omega
    · omega
    · omega
  have hwild' : bks'.wild = false := blockLoad_wild hload
  refine ⟨file, bks', hstore, hload, ⟨hnum, by rw [hwild, hwild'], hhas, fun b hb => ?_⟩⟩
  obtain ⟨hlt, -, -⟩ := id hb
  funext k
  have hk := k.isLt
  rw [page, page, hb.address_eq]
  exact hbytes _ (by omega)

end Blocks

/-- After a successful update, what is mounted from the blocks, or from an image of them that was
stored and loaded, answers every sequence of calls as the file system does. -/
theorem remount {numBlocks : Nat} (hn : 10 ≤ numBlocks) {s s' : Fs} (h : Reached numBlocks s)
    {c : Call} (hok : c.Ok) {junk : Page 512} {r : Reply}
    (hcall : run Fs.handler (c.prog junk) s = .ok (r, s')) (hr : r.Updated)
    {calls : List Call} (hcalls : ∀ c ∈ calls, c.Ok) (junk₁ junk₂ : Nat → Page 512) :
    (∀ (st : Store) (readings : Nat → Int), st.blocks = s'.blocks →
      outcome Fs.handler junk₁ calls (Fs.empty st.loadFsdata readings) =
        outcome Fs.handler junk₂ calls s') ∧
    (8 + numBlocks * 512 ≤ 0x7ffff000 → ∀ old, ∃ file bks,
      s'.blocks.blockStore (some old) = (some file, 0) ∧
      blockLoad (some file) = some ⟨512, bks⟩ ∧
      ∀ (st : Store) (readings : Nat → Int), st.blocks = bks →
        outcome Fs.handler junk₁ calls (Fs.empty st.loadFsdata readings) =
          outcome Fs.handler junk₂ calls s') := by
  obtain ⟨t, ht⟩ := h.isTree hn
  rcases isTree_call cached_sound cached_forgets ht hok junk with
    ⟨r', t', s'', -, hrun, ht', hstored⟩ | ⟨e, -, hrun⟩
  · rw [hrun] at hcall
    obtain ⟨rfl, rfl⟩ := Prod.mk.inj (Except.ok.inj hcall)
    obtain ⟨A, hrel, hrep, heq, hst⟩ := hstored hr
    have hdur := hrel.stored hst
    -- a copy of the blocks is the same tree
    have hcopy : ∀ (st : Store) (readings : Nat → Int), s''.blocks.Copied st.blocks →
        outcome Fs.handler junk₁ calls (Fs.empty st.loadFsdata readings) =
          outcome Fs.handler junk₂ calls s'' := by
      intro st readings hst
      have hload := hrel.reload_copy hrep heq hdur hst readings
      rw [isTree_outcome cached_sound cached_forgets junk₁ hload hcalls,
        isTree_outcome cached_sound cached_forgets junk₂ ht' hcalls]
    refine ⟨fun st readings hst => hcopy st readings (hst ▸ Blocks.Copied.refl s''.blocks),
      fun hsize old => ?_⟩
    have hnum : s''.blocks.numBlocks = numBlocks := by
      obtain ⟨A', hrel', -, -, hnum'⟩ := ht'
      exact hrel'.numBlocks.trans hnum'
    obtain ⟨file, bks, hstore, hload, hcop⟩ :=
      s''.blocks.copied_image (hnum ▸ hsize) hrel.wild old
    exact ⟨file, bks, hstore, hload, fun st readings hst => hcopy st readings (hst ▸ hcop)⟩
  · rw [hrun] at hcall
    cases hcall

/-- Twelve blocks, and a write that succeeds: the file is read from the blocks. -/
theorem remount_twelve_blocks :
    ∃ s s' r, Fs.session 12 (fun i => 7 * i) (fun _ _ => 0) [.create 1 ⟨[102], by decide⟩] = .ok s ∧
      run Fs.handler ((Call.write 2 0 3 fun _ => 65).prog fun _ => 0) s = .ok (r, s') ∧
      outcome Fs.handler (fun _ _ => 0) [.read 2 1 5]
          (Fs.empty (Store.loadFsdata { s'.toStore with blkBmap := fun _ => 0 }) fun i => i) =
        outcome Fs.handler (fun _ _ => 1) [.read 2 1 5] s' := by
  have hfacts : ((Fs.session 12 (fun i => 7 * i) (fun _ _ => 0)
      [.create 1 ⟨[102], by decide⟩]).bind fun s =>
        (run Fs.handler ((Call.write 2 0 3 fun _ => 65).prog fun _ => 0) s).map (·.1)) =
      .ok (.write 0) := by
    decide +kernel
  cases hs : Fs.session 12 (fun i => 7 * i) (fun _ _ => 0) [.create 1 ⟨[102], by decide⟩] with
  | error e =>
      rw [hs] at hfacts
      cases hfacts
  | ok s =>
      rw [hs] at hfacts
      cases hrun : run Fs.handler ((Call.write 2 0 3 fun _ => 65).prog fun _ => 0) s with
      | error e =>
          simp only [Except.bind, hrun] at hfacts
          cases hfacts
      | ok p =>
          simp only [Except.bind, hrun] at hfacts
          have hr : p.1 = .write 0 := Except.ok.inj hfacts
          have hok : (Call.write 2 0 3 fun _ => 65).Ok := show 3 ≤ 1024 by decide
          exact ⟨s, p.2, p.1, rfl, hrun, (remount (by decide)
            (Reached.session (by simp [Call.Ok]) hs) hok hrun (by rw [hr]; rfl)
            (by simp [Call.Ok]) _ _).1 _ _ rfl⟩

end Sthreads.Snfs
