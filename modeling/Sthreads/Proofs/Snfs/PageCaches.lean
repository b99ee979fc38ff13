/-
The two caches of pages.

A page can be in three places: in a slot of `dcache`, in a slot of `bcache` behind it, and
in its block behind both.  A dirty slot of `dcache` has the right page; where there is none,
a dirty slot of `bcache` has it; where there is none of these either, the block has it.  The
library says this of one cache over one backing store, and `PagesOn` says it twice: what is
behind `dcache` is what is seen through `bcache`.

The blocks of a set are considered, each of which is used through `bcache`, or as a page of
one directory through `dcache`.
-/
import Sthreads.Snfs.Cached

namespace Sthreads.Snfs

open Cache

/-- All but the blocks, the caches of pages and the clocks is the same. -/
def Frame (s₀ s : Fs) : Prop :=
  s.inodeBmap = s₀.inodeBmap ∧ s.blkBmap = s₀.blkBmap ∧ s.inodeTab = s₀.inodeTab ∧
    s.icache = s₀.icache ∧ s.strtokRest = s₀.strtokRest ∧
    s.blocks.numBlocks = s₀.blocks.numBlocks ∧ s.blocks.allocated = s₀.blocks.allocated

theorem Frame.refl (s : Fs) : Frame s s := ⟨rfl, rfl, rfl, rfl, rfl, rfl, rfl⟩

/-- The blocks of `D` are those of `m`, and `dcache` is this. -/
def DeviceOn (D : Nat → Prop) (s₀ : Fs) (d : Fin 4 → Entry (Nat × Nat) (Page 512)) (s : Fs)
    (m : Nat → Page 512) : Prop :=
  Frame s₀ s ∧ s.dcache = d ∧ s.blocks.wild = false ∧
    ∀ b, D b → s.blocks.Has b ∧ m b = s.blocks.page b

/-- The blocks of `D`, seen through `bcache`, are those of `m`. -/
def BufferedOn (D : Nat → Prop) (s₀ s : Fs) (m : Nat → Page 512) : Prop :=
  ∃ dev, DeviceOn D s₀ s.dcache s dev ∧
    Coherent id D (fun b v => v = m b) (fun b v => v = m b) s.bcache dev

/-- The pages of `D`, seen through `dcache` if a directory owns them, are those of `page`. -/
def PagesOn (D : Nat → Prop) (dirOf : Nat → Option Nat) (page : Nat → Page 512) (s₀ : Fs)
    (p : (Fin 4 → Entry (Nat × Nat) (Page 512)) × Fs) : Prop :=
  Represents Prod.snd (fun k => D k.2 ∧ dirOf k.2 = some k.1) (BufferedOn D s₀)
    (fun k v => v = page k.2) (fun k v => v = page k.2) page p

theorem deviceOn_spec (D : Nat → Prop) (s₀ : Fs) (d : Fin 4 → Entry (Nat × Nat) (Page 512)) :
    BackingSpec Fs.bcBacking id D (DeviceOn D s₀ d) where
  read s m b old h hb := by
    obtain ⟨hframe, hd, hwild, hm⟩ := h
    obtain ⟨hhas, hpage⟩ := hm b hb
    simp only [Fs.bcBacking, Blocks.blockRead_of_has hhas]
    exact ⟨hpage.symm, hframe, hd, hwild, hm⟩
  write s m b v h hb := by
    obtain ⟨hframe, hd, hwild, hm⟩ := h
    obtain ⟨hhas, hpage⟩ := hm b hb
    obtain ⟨h1, h2, h3, h4, h5, hnum, halloc⟩ := hframe
    refine ⟨⟨h1, h2, h3, h4, h5, ?_, ?_⟩, hd, ?_, ?_⟩
    · exact (Blocks.blockWrite_numBlocks b v).trans hnum
    · exact (Blocks.blockWrite_allocated b v).trans halloc
    · exact (Blocks.blockWrite_wild hhas v).trans hwild
    · intro b' hb'
      obtain ⟨hhas', hpage'⟩ := hm b' hb'
      refine ⟨(Blocks.blockWrite_has b v).mpr hhas', ?_⟩
      by_cases hbb : b' = b
      · subst hbb
        rw [id, Function.update_self]
        exact (Blocks.page_blockWrite_self hhas.1 v).symm
      · rw [id, Function.update_of_ne hbb, hpage']
        exact (Blocks.page_blockWrite_other hhas hhas' hbb v).symm
  tick _ _ h := h
  time _ _ h := h

section

variable {D : Nat → Prop} {s₀ s : Fs} {m : Nat → Page 512} {b : Nat}

/-! ### The block cache -/

theorem bufferedOn_iff : BufferedOn D s₀ s m ↔
    ∃ dev, Represents id D (DeviceOn D s₀ s.dcache) (fun b v => v = m b)
      (fun b v => v = m b) dev (s.bcache, s) :=
  ⟨fun ⟨dev, hdev, hc⟩ => ⟨dev, dev, hdev, hc, fun _ _ => rfl⟩,
    fun ⟨_, dev, hdev, hc, _⟩ => ⟨dev, hdev, hc⟩⟩

theorem BufferedOn.frame (h : BufferedOn D s₀ s m) : Frame s₀ s := by
  obtain ⟨dev, ⟨hframe, -⟩, -⟩ := h
  exact hframe

theorem BufferedOn.wild (h : BufferedOn D s₀ s m) : s.blocks.wild = false := by
  obtain ⟨dev, ⟨-, -, hwild, -⟩, -⟩ := h
  exact hwild

theorem BufferedOn.self (h : BufferedOn D s₀ s m) : BufferedOn D s s m := by
  obtain ⟨dev, ⟨-, -, hrest⟩, hc⟩ := h
  exact ⟨dev, ⟨Frame.refl s, rfl, hrest⟩, hc⟩

theorem BufferedOn.withDcache (h : BufferedOn D s₀ s m)
    (c : Fin 4 → Entry (Nat × Nat) (Page 512)) : BufferedOn D s₀ (Fs.withDcache (c, s)) m := by
  obtain ⟨dev, ⟨hframe, -, hrest⟩, hc⟩ := h
  exact ⟨dev, ⟨hframe, rfl, hrest⟩, hc⟩

/-- A block is read as it is seen. -/
theorem BufferedOn.read (h : BufferedOn D s₀ s m) (hb : D b) :
    (s.bcRead b).1 = m b ∧ BufferedOn D s₀ (s.bcRead b).2 m ∧
      (s.bcRead b).2.dcache = s.dcache := by
  obtain ⟨dev, hdev⟩ := bufferedOn_iff.mp h
  obtain ⟨⟨dev', hrel, hc, -⟩, hvalid, hkey, -⟩ := represents_fetch (deviceOn_spec D s₀ s.dcache)
    (fun _ _ _ _ h => h) (fun _ _ h => h) Fs.writebackInterval hb (fun _ h => h) hdev
  have hheld := hc.held _ hvalid
  rw [hkey] at hheld
  obtain ⟨hframe, hd, hrest⟩ := hrel
  exact ⟨hheld, ⟨dev', ⟨hframe, rfl, hrest⟩, hc⟩, hd⟩

/-- A block is written as it is seen. -/
theorem BufferedOn.write (h : BufferedOn D s₀ s m) (hb : D b) (v : Page 512) :
    BufferedOn D s₀ (s.bcWrite b v) (Function.update m b v) ∧
      (s.bcWrite b v).dcache = s.dcache := by
  obtain ⟨dev, hdev⟩ := bufferedOn_iff.mp h
  have hother : ∀ k' x, D k' → k' ≠ b → x = m k' → x = Function.update m b v k' := by
    intro k' x _ hk hx
    rw [Function.update_of_ne hk, hx]
  have hnew : v = Function.update m b v b := by rw [Function.update_self]
  obtain ⟨dev', hrel, hc, -⟩ := represents_store (deviceOn_spec D s₀ s.dcache) (fun _ _ _ _ h => h)
    (fun b' x => x = Function.update m b v b') (fun b' x => x = Function.update m b v b') (fun _ _ h => h)
    Fs.writebackInterval hb hnew hother hother hdev
  obtain ⟨hframe, hd, hrest⟩ := hrel
  exact ⟨⟨dev', ⟨hframe, rfl, hrest⟩, hc⟩, hd⟩

/-- Writing everything back changes nothing that is seen, and leaves nothing dirty. -/
theorem BufferedOn.flushAll (h : BufferedOn D s₀ s m) :
    BufferedOn D s₀ s.bcFlushAll m ∧ s.bcFlushAll.dcache = s.dcache ∧
      ∀ i, (s.bcFlushAll.bcache i).dirty = false := by
  obtain ⟨dev, hdev⟩ := bufferedOn_iff.mp h
  obtain ⟨⟨dev', ⟨hframe, hd, hrest⟩, hc, -⟩, -⟩ := represents_flushAll
    (deviceOn_spec D s₀ s.dcache) (fun _ _ _ _ h => h) (fun _ _ hv => hv) hdev
  exact ⟨⟨dev', ⟨hframe, rfl, hrest⟩, hc⟩, hd, hc.all_clean (flushAll_clean (s.bcache, s))⟩

/-- Where no slot is dirty, the blocks are what is seen. -/
theorem BufferedOn.clean (h : BufferedOn D s₀ s m) (hclean : ∀ i, (s.bcache i).dirty = false)
    (hb : D b) : s.blocks.page b = m b := by
  obtain ⟨dev, ⟨-, -, -, hdev⟩, hc⟩ := h
  rw [← (hdev b hb).2]
  exact hc.clean (fun i _ => hclean i) hb

theorem bufferedOn_spec (s₀ : Fs) (E : Nat × Nat → Prop) (hE : ∀ k, E k → D k.2) :
    BackingSpec Fs.dcBacking Prod.snd E (BufferedOn D s₀) where
  read _ _ k _ h hk := ⟨(h.read (hE k hk)).1, (h.read (hE k hk)).2.1⟩
  write _ _ k v h hk := (h.write (hE k hk) v).1
  tick _ _ h := h
  time _ _ h := h

/-! ### Both caches -/

variable {dirOf : Nat → Option Nat} {page : Nat → Page 512} {dir : Nat}

/-- A block is owned by one directory at most. -/
theorem owned_injective (D : Nat → Prop) (dirOf : Nat → Option Nat) : ∀ k k' : Nat × Nat,
    D k.2 ∧ dirOf k.2 = some k.1 → D k'.2 ∧ dirOf k'.2 = some k'.1 → k.2 = k'.2 → k = k' := by
  rintro ⟨d, b⟩ ⟨d', b'⟩ ⟨-, h⟩ ⟨-, h'⟩ heq
  dsimp only at h h' heq
  subst heq
  rw [h, Option.some.injEq] at h'
  rw [h']

theorem PagesOn.frame (h : PagesOn D dirOf page s₀ (s.dcache, s)) : Frame s₀ s := by
  obtain ⟨m, hbuf, -⟩ := h
  exact hbuf.frame

theorem PagesOn.wild (h : PagesOn D dirOf page s₀ (s.dcache, s)) : s.blocks.wild = false := by
  obtain ⟨m, hbuf, -⟩ := h
  exact hbuf.wild

theorem PagesOn.self (h : PagesOn D dirOf page s₀ (s.dcache, s)) :
    PagesOn D dirOf page s (s.dcache, s) := by
  obtain ⟨m, hbuf, hc, hout⟩ := h
  exact ⟨m, hbuf.self, hc, hout⟩

/-- A page that no directory owns is the same behind `dcache`. -/
theorem PagesOn.behind (h : PagesOn D dirOf page s₀ (s.dcache, s)) :
    ∃ m, BufferedOn D s₀ s m ∧ Coherent Prod.snd
      (fun k : Nat × Nat => D k.2 ∧ dirOf k.2 = some k.1)
      (fun k v => v = page k.2) (fun k v => v = page k.2) s.dcache m ∧
      ∀ x, dirOf x = none → m x = page x := by
  obtain ⟨m, hbuf, hc, hout⟩ := h
  refine ⟨m, hbuf, hc, fun x hx => hout x ?_⟩
  rintro k ⟨-, hk⟩ rfl
  rw [hx] at hk
  cases hk

theorem PagesOn.bcRead (h : PagesOn D dirOf page s₀ (s.dcache, s)) (hb : D b)
    (hdir : dirOf b = none) :
    (s.bcRead b).1 = page b ∧
      PagesOn D dirOf page s₀ ((s.bcRead b).2.dcache, (s.bcRead b).2) := by
  obtain ⟨m, hbuf, hc, hout⟩ := h
  obtain ⟨hread, hbuf', hd⟩ := hbuf.read hb
  refine ⟨hread.trans (hout b ?_), ?_⟩
  · rintro k ⟨-, hk⟩ rfl
    rw [hdir] at hk
    cases hk
  · rw [hd]
    exact ⟨m, hbuf', hc, hout⟩

theorem PagesOn.bcWrite (h : PagesOn D dirOf page s₀ (s.dcache, s)) (hb : D b)
    (hdir : dirOf b = none) (v : Page 512) :
    PagesOn D dirOf (Function.update page b v) s₀ ((s.bcWrite b v).dcache, s.bcWrite b v) := by
  obtain ⟨m, hbuf, hc, hout⟩ := h
  have hne : ∀ k : Nat × Nat, D k.2 ∧ dirOf k.2 = some k.1 → k.2 ≠ b := by
    rintro k ⟨-, hk⟩ rfl
    rw [hdir] at hk
    cases hk
  have hsame : ∀ (k : Nat × Nat) (x : Page 512), D k.2 ∧ dirOf k.2 = some k.1 → x = page k.2 →
      x = Function.update page b v k.2 := fun k x hk hx => by
    rw [Function.update_of_ne (hne k hk), hx]
  obtain ⟨hbuf', hd⟩ := hbuf.write hb v
  rw [hd]
  refine ⟨_, hbuf', ?_, fun x hx => ?_⟩
  · exact (hc.congr_back fun k hk => Function.update_of_ne (hne k hk) _ _).mono
      (fun _ hk => hk) hsame hsame fun k hk hnk => absurd hk hnk
  · by_cases hxb : x = b
    · rw [hxb, Function.update_self, Function.update_self]
    · rw [Function.update_of_ne hxb, Function.update_of_ne hxb]
      exact hout x hx

theorem PagesOn.dcRead (h : PagesOn D dirOf page s₀ (s.dcache, s)) (hb : D b)
    (hdir : dirOf b = some dir) :
    (s.dcRead dir b).1 = page b ∧
      PagesOn D dirOf page s₀ ((s.dcRead dir b).2.dcache, (s.dcRead dir b).2) := by
  obtain ⟨⟨m, hbuf, hc, hout⟩, hvalid, hkey, -⟩ := represents_fetch
    (bufferedOn_spec s₀ _ fun k hk => hk.1) (owned_injective D dirOf)
    (fun _ _ hv => hv) Fs.writebackInterval (k := (dir, b)) ⟨hb, hdir⟩ (fun _ hv => hv) h
  refine ⟨?_, m, hbuf.withDcache _, hc, hout⟩
  have hheld := hc.held _ hvalid
  rw [hkey] at hheld
  exact hheld

theorem PagesOn.dcWrite (h : PagesOn D dirOf page s₀ (s.dcache, s)) (hb : D b)
    (hdir : dirOf b = some dir) (v : Page 512) :
    PagesOn D dirOf (Function.update page b v) s₀
      ((s.dcWrite dir b v).dcache, s.dcWrite dir b v) := by
  have hk : D b ∧ dirOf b = some dir := ⟨hb, hdir⟩
  have hother : ∀ (k : Nat × Nat) (x : Page 512), D k.2 ∧ dirOf k.2 = some k.1 → k ≠ (dir, b) →
      x = page k.2 → x = Function.update page b v k.2 := by
    intro k x hkd hne hx
    have hkb : k.2 ≠ b := fun hkb => hne (owned_injective D dirOf k (dir, b) hkd hk hkb)
    rw [Function.update_of_ne hkb, hx]
  have hnew : v = Function.update page b v b := by rw [Function.update_self]
  obtain ⟨m, hbuf, hc, hout⟩ := represents_store
    (bufferedOn_spec s₀ _ fun k hk => hk.1) (owned_injective D dirOf)
    (fun k x => x = Function.update page b v k.2) (fun k x => x = Function.update page b v k.2)
    (fun _ _ hv => hv) Fs.writebackInterval (k := (dir, b)) hk hnew hother hother h
  refine ⟨m, hbuf.withDcache _, hc, fun x hx => ?_⟩
  have hxb : x ≠ b := fun hxb => hx (dir, b) hk hxb.symm
  rw [Function.update_of_ne hxb]
  exact hout x hx

/-- Writing `dcache` back changes nothing that is seen, and leaves nothing dirty in it. -/
theorem PagesOn.dcFlushAll (h : PagesOn D dirOf page s₀ (s.dcache, s)) :
    PagesOn D dirOf page s₀ (s.dcFlushAll.dcache, s.dcFlushAll) ∧
      ∀ i, (s.dcFlushAll.dcache i).dirty = false := by
  obtain ⟨⟨m, hbuf, hc, hout⟩, -⟩ := represents_flushAll
    (bufferedOn_spec s₀ _ fun k hk => hk.1) (owned_injective D dirOf) (fun _ _ hv => hv) h
  exact ⟨⟨m, hbuf.withDcache _, hc, hout⟩, hc.all_clean (flushAll_clean (s.dcache, s))⟩

/-- Writing `bcache` back changes nothing that is seen, and leaves nothing dirty in it. -/
theorem PagesOn.bcFlushAll (h : PagesOn D dirOf page s₀ (s.dcache, s)) :
    PagesOn D dirOf page s₀ (s.bcFlushAll.dcache, s.bcFlushAll) ∧
      s.bcFlushAll.dcache = s.dcache ∧ ∀ i, (s.bcFlushAll.bcache i).dirty = false := by
  obtain ⟨m, hbuf, hc, hout⟩ := h
  obtain ⟨hbuf', hd, hclean⟩ := hbuf.flushAll
  refine ⟨?_, hd, hclean⟩
  rw [hd]
  exact ⟨m, hbuf', hc, hout⟩

/-- Where nothing is dirty, the blocks hold the pages. -/
theorem PagesOn.clean (h : PagesOn D dirOf page s₀ (s.dcache, s))
    (hd : ∀ i, (s.dcache i).dirty = false) (hb : ∀ i, (s.bcache i).dirty = false) {x : Nat}
    (hx : D x) : s.blocks.page x = page x := by
  obtain ⟨m, hbuf, hc, hout⟩ := h.behind
  rw [hbuf.clean hb hx]
  cases hdir : dirOf x with
  | none => exact hout x hdir
  | some dir => exact hc.clean (k := (dir, x)) (fun i _ => hd i) ⟨hx, hdir⟩

end

end Sthreads.Snfs
