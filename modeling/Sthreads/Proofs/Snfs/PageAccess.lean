/-
The caches of pages never lose or mix a page.

Each block is used through `bcache` only, or through `dcache` by one directory only.  Then
every read returns the page that was written last, whatever the clock says, and after both
caches have been written back the blocks hold these pages.  All of this rests on the blocks
below: where they alias, the caches cannot keep them apart.
-/
import Sthreads.Proofs.Snfs.BlockStore
import Sthreads.Proofs.Snfs.PageCaches

namespace Sthreads.Snfs

/-- A call on the caches of pages. -/
inductive PageCall
  | bcRead (blkno : Nat)
  | bcWrite (blkno : Nat) (buf : Page 512)
  | dcRead (dirid blkno : Nat)
  | dcWrite (dirid blkno : Nat) (page : Page 512)
  | bcFlushAll
  | dcFlushAll

namespace PageCall

/-- The call: the block and the page that was read, if it is a read, and the file system. -/
def exec (fs : Fs) : PageCall → Option (Nat × Page 512) × Fs
  | bcRead blkno => (some (blkno, (fs.bcRead blkno).1), (fs.bcRead blkno).2)
  | bcWrite blkno buf => (none, fs.bcWrite blkno buf)
  | dcRead dirid blkno => (some (blkno, (fs.dcRead dirid blkno).1), (fs.dcRead dirid blkno).2)
  | dcWrite dirid blkno page => (none, fs.dcWrite dirid blkno page)
  | bcFlushAll => (none, fs.bcFlushAll)
  | dcFlushAll => (none, fs.dcFlushAll)

/-- The file system after a call. -/
def after (fs : Fs) (c : PageCall) : Fs := (c.exec fs).2

/-- The page that was written last to each block. -/
def lastWritten (page : Nat → Page 512) : PageCall → Nat → Page 512
  | bcWrite blkno buf => Function.update page blkno buf
  | dcWrite _ blkno buf => Function.update page blkno buf
  | _ => page

/-- The call is for one of the blocks, and through the cache that the block is used through:
`dcache` if a directory owns it, and then by this directory. -/
def Uses (numBlocks : Nat) (dirOf : Nat → Option Nat) : PageCall → Prop
  | bcRead blkno | bcWrite blkno _ => blkno < numBlocks ∧ dirOf blkno = none
  | dcRead dirid blkno | dcWrite dirid blkno _ => blkno < numBlocks ∧ dirOf blkno = some dirid
  | bcFlushAll | dcFlushAll => True

end PageCall

/-- No two valid slots have the same key. -/
def OneSlot {n : Nat} {K V : Type} (c : Fin n → Entry K V) : Prop :=
  ∀ i j, (c i).valid = true → (c j).valid = true → (c i).key = (c j).key → i = j

/-- What holds of a file system in which `page` was written last. -/
structure PagesKept (numBlocks : Nat) (dirOf : Nat → Option Nat) (page : Nat → Page 512)
    (fs : Fs) : Prop where
  reads : ∀ c : PageCall, c.Uses numBlocks dirOf → ∀ b p, (c.exec fs).1 = some (b, p) → p = page b
  bcache : OneSlot fs.bcache
  dcache : OneSlot fs.dcache
  flushed : ∀ b < numBlocks, fs.dcFlushAll.bcFlushAll.blocks.page b = page b
  /-- Nothing outside the allocated bytes has been accessed, nor is it when all is written back. -/
  inside : fs.blocks.wild = false ∧ fs.dcFlushAll.bcFlushAll.blocks.wild = false

/-- From this file system on, no page is lost or mixed with another. -/
def NeverLoses (numBlocks : Nat) (fs : Fs) : Prop :=
  ∀ (dirOf : Nat → Option Nat) (calls : List PageCall),
    (∀ c ∈ calls, c.Uses numBlocks dirOf) →
      PagesKept numBlocks dirOf (calls.foldl PageCall.lastWritten fs.blocks.page)
        (calls.foldl PageCall.after fs)

/-- `fs->blocks` is this, with any content, the caches are empty, and `time(NULL)` is to return
any values. -/
def onBlocks (bks : Blocks 512) (content : Nat → UInt8) (st : Store) (readings : Nat → Int) : Fs :=
  .empty { st with blocks := { bks with blocks := content } } readings

/-! ### Calls -/

section

variable {numBlocks : Nat} {dirOf : Nat → Option Nat} {page : Nat → Page 512} {fs : Fs}

/-- Each call keeps what is seen of the pages. -/
theorem PagesOn.after (h : PagesOn (· < numBlocks) dirOf page fs (fs.dcache, fs)) {c : PageCall}
    (hc : c.Uses numBlocks dirOf) :
    PagesOn (· < numBlocks) dirOf (PageCall.lastWritten page c) (c.after fs)
      ((c.after fs).dcache, c.after fs) := by
  cases c with
  | bcRead b => exact (h.bcRead hc.1 hc.2).2.self
  | bcWrite b buf => exact (h.bcWrite hc.1 hc.2 buf).self
  | dcRead dir b => exact (h.dcRead hc.1 hc.2).2.self
  | dcWrite dir b buf => exact (h.dcWrite hc.1 hc.2 buf).self
  | bcFlushAll => exact h.bcFlushAll.1.self
  | dcFlushAll => exact h.dcFlushAll.1.self

theorem PagesOn.calls (h : PagesOn (· < numBlocks) dirOf page fs (fs.dcache, fs))
    (calls : List PageCall) (hcalls : ∀ c ∈ calls, c.Uses numBlocks dirOf) :
    PagesOn (· < numBlocks) dirOf (calls.foldl PageCall.lastWritten page)
      (calls.foldl PageCall.after fs)
      ((calls.foldl PageCall.after fs).dcache, calls.foldl PageCall.after fs) := by
  induction calls generalizing page fs with
  | nil => exact h
  | cons c calls ih =>
      have hc := hcalls c List.mem_cons_self
      exact ih (h.after hc) fun c' hc' => hcalls c' (List.mem_cons_of_mem _ hc')

/-- What is seen of the pages is what was written last. -/
theorem PagesOn.kept (h : PagesOn (· < numBlocks) dirOf page fs (fs.dcache, fs)) :
    PagesKept numBlocks dirOf page fs := by
  obtain ⟨hdc, hdclean⟩ := h.dcFlushAll
  obtain ⟨hbc, hd, hbclean⟩ := hdc.bcFlushAll
  refine ⟨fun c hc b p hp => ?_, ?_, ?_, fun b hb => ?_, h.wild, hbc.wild⟩
  · cases c with
    | bcRead b' =>
        obtain ⟨rfl, rfl⟩ := Prod.mk.inj (Option.some.inj hp)
        exact (h.bcRead hc.1 hc.2).1
    | dcRead dir b' =>
        obtain ⟨rfl, rfl⟩ := Prod.mk.inj (Option.some.inj hp)
        exact (h.dcRead hc.1 hc.2).1
    | _ => cases hp
  · obtain ⟨m, ⟨dev, -, hc⟩, -⟩ := h
    exact hc.unique
  · obtain ⟨m, -, hc, -⟩ := h
    exact hc.unique
  · exact hbc.clean (fun i => hd ▸ hdclean i) hbclean hb

end

/-! ### The blocks below -/

/-- Empty caches over blocks that do not alias. -/
theorem pagesOn_onBlocks {numBlocks : Nat} {bks : Blocks 512}
    (hnew : blockNew 512 numBlocks = some bks) (hfit : numBlocks * 512 < 2 ^ 32)
    (dirOf : Nat → Option Nat) (content : Nat → UInt8) (st : Store) (readings : Nat → Int) :
    PagesOn (· < numBlocks) dirOf (onBlocks bks content st readings).blocks.page
      (onBlocks bks content st readings)
      ((onBlocks bks content st readings).dcache, onBlocks bks content st readings) := by
  have hnum : bks.numBlocks = numBlocks := by
    rw [blockNew] at hnew
    split at hnew
    · cases hnew
    · cases hnew
      rfl
  have hcon : bks.Constructed := Or.inl ⟨numBlocks, hnew⟩
  refine ⟨_, ⟨_, ⟨Frame.refl _, rfl, hcon.sizes.2, fun b hb => ⟨?_, rfl⟩⟩, ?_⟩, ?_, fun _ _ => rfl⟩
  · exact hcon.has (hnum ▸ hfit) (hnum ▸ hb)
  · exact Cache.Coherent.empty (fun _ => rfl) (fun _ => rfl) fun _ _ => rfl
  · exact Cache.Coherent.empty (fun _ => rfl) (fun _ => rfl) fun _ _ => rfl

/-- Two blocks at one address cannot both keep their page. -/
theorem NeverLoses.address_ne {numBlocks : Nat} {fs : Fs} (h : NeverLoses numBlocks fs) {b b' : Nat}
    (hb : b < numBlocks) (hb' : b' < numBlocks) (hne : b ≠ b') :
    Blocks.address 512 b ≠ Blocks.address 512 b' := by
  intro haddr
  have hkept := h (fun _ => none) [.bcWrite b fun _ => 1, .bcWrite b' fun _ => 0] (by
    simp [PageCall.Uses, hb, hb'])
  have hpage := hkept.flushed b hb
  have hpage' := hkept.flushed b' hb'
  simp only [List.foldl_cons, List.foldl_nil, PageCall.lastWritten] at hpage hpage'
  rw [Function.update_of_ne hne, Function.update_self, Blocks.page_congr haddr, hpage',
    Function.update_self] at hpage
  exact absurd (congrFun hpage 0) (by decide)

theorem NeverLoses.fits {numBlocks : Nat} {fs : Fs} (h : NeverLoses numBlocks fs)
    (hne : numBlocks * 512 % 2 ^ 32 ≠ 0) : numBlocks * 512 < 2 ^ 32 := by
  by_contra hge
  have hlt : 2 ^ 23 < numBlocks := by
    rcases Nat.lt_or_ge (2 ^ 23) numBlocks with hlt | hle
    · exact hlt
    · have heq : numBlocks = 2 ^ 23 := by omega
      rw [heq] at hne
      exact absurd rfl hne
  exact h.address_ne hlt (Nat.lt_of_le_of_lt (Nat.zero_le _) hlt) (by decide) (by decide)

/-- No page is lost or mixed, whatever the blocks hold at first and the clock says, if and only if
the blocks do not alias. -/
theorem never_loses_iff {numBlocks : Nat} {bks : Blocks 512}
    (hnew : blockNew 512 numBlocks = some bks) :
    (∀ content st readings, NeverLoses numBlocks (onBlocks bks content st readings)) ↔
      numBlocks * 512 < 2 ^ 32 := by
  constructor
  · intro h
    refine (h (fun _ => 0) ⟨bks, fun _ => 0, fun _ => 0, fun _ => fsiInodeInit 0⟩ fun _ => 0).fits ?_
    intro hzero
    rw [blockNew, if_pos hzero] at hnew
    cases hnew
  · intro hfit content st readings dirOf calls hcalls
    exact ((pagesOn_onBlocks hnew hfit dirOf content st readings).calls calls hcalls).kept

/-- The blocks of the server. -/
theorem never_loses_iff_server :
    ∃ bks, blockNew 512 16384 = some bks ∧
      ∀ content st readings, NeverLoses 16384 (onBlocks bks content st readings) :=
  ⟨_, rfl, (never_loses_iff rfl).mpr (by decide)⟩

/-- With ten blocks more than `2 ^ 23`, block `2 ^ 23` is block 0, and one of the two pages that
are written to them is lost. -/
theorem page_lost_below :
    ∃ bks, blockNew 512 8388618 = some bks ∧
      ∀ content st readings, ¬ NeverLoses 8388618 (onBlocks bks content st readings) :=
  ⟨_, rfl, fun _ _ _ h => absurd (h.fits (by decide)) (by decide)⟩

end Sthreads.Snfs
