/-
The data of the file system layer (`snfs_server/fs.c`): bitmaps, inodes, directory
pages and C strings.

The source's constants are written as numbers: `BLOCK_SIZE` is 512,
`INODE_NUM_BLKS` 10, `ITAB_NUM_BLKS` 8 and `ITAB_SIZE` 64; an inode takes 64 bytes,
a directory entry 16, of which `FS_MAX_FNAME_SZ`, 14, are its name, and a page has
`DIR_PAGE_ENTRIES`, 32, of them.
-/
import Mathlib.Data.Nat.Bitwise
import Sthreads.Snfs.Block

namespace Sthreads.Snfs

/-! ### Integers -/

/-- The `int` that an `unsigned` is converted to. -/
def asInt (n : Nat) : Int := if n % 2 ^ 32 < 2 ^ 31 then n % 2 ^ 32 else n % 2 ^ 32 - 2 ^ 32

theorem asInt_of_lt {n : Nat} (h : n < 2 ^ 31) : asInt n = n := by
  unfold asInt
  rw [if_pos (by omega)]
  omega

/-- `OFFSET_TO_BLOCKS` -/
def offsetToBlocks (pos : Nat) : Nat := pos / 512 + if pos % 512 > 0 then 1 else 0

/-! ### Bitmaps -/

/-- `BMAP_ISSET` -/
def bmapIsset (bmap : Page 512) (num : Nat) : Bool :=
  (bmap.get (num / 8)).toNat &&& (1 <<< (num % 8)) != 0

/-- `BMAP_SET` -/
def bmapSet (bmap : Page 512) (num : Nat) : Page 512 :=
  bmap.set (num / 8) (UInt8.ofNat ((bmap.get (num / 8)).toNat ||| (1 <<< (num % 8))))

theorem bmapIsset_eq (bmap : Page 512) (num : Nat) :
    bmapIsset bmap num = (bmap.get (num / 8)).toNat.testBit (num % 8) := by
  rw [bmapIsset, Nat.one_shiftLeft, Nat.and_two_pow]
  cases (bmap.get (num / 8)).toNat.testBit (num % 8) <;> simp

theorem bmapIsset_zero (num : Nat) : bmapIsset (fun _ => 0) num = false := by
  have h : Page.get (fun _ => 0 : Page 512) (num / 8) = 0 := by
    unfold Page.get
    split <;> rfl
  rw [bmapIsset_eq, h]
  simp

/-- Setting a bit sets that bit. -/
theorem bmapIsset_bmapSet {bmap : Page 512} {m : Nat} (hm : m < 4096) (num : Nat) :
    bmapIsset (bmapSet bmap m) num = (decide (num = m) || bmapIsset bmap num) := by
  rw [bmapIsset_eq, bmapIsset_eq, bmapSet, Page.get_set]
  by_cases hbyte : num / 8 = m / 8
  · have hlt : (bmap.get (m / 8)).toNat ||| 1 <<< (m % 8) < 2 ^ 8 := by
      refine Nat.or_lt_two_pow (UInt8.toNat_lt _) ?_
      rw [Nat.one_shiftLeft]
      exact Nat.pow_lt_pow_right (by omega) (by omega)
    rw [if_pos ⟨hbyte, by omega⟩, UInt8.toNat_ofNat_of_lt' hlt, Nat.testBit_or, Nat.one_shiftLeft,
      Nat.testBit_two_pow, hbyte, Bool.or_comm]
    congr 1
    rw [decide_eq_decide]
    omega
  · have hne : num ≠ m := fun h => hbyte (h ▸ rfl)
    rw [if_neg fun h => hbyte h.1]
    simp [hne]

/-! ### Inodes -/

/-- `fs_inode_t`; `FS_DIR` is 1, `FS_FILE` is 2, and the inode of no object has type 0. -/
structure Inode where
  itype : Nat
  size : Nat
  blocks : Nat → Nat
  reserved : Nat → Nat

/-- `fsi_inode_init` -/
def fsiInodeInit (itype : Nat) : Inode := ⟨itype, 0, fun _ => 0, fun _ => 0⟩

namespace Inode

/-- The words of an inode in memory. -/
def word (n : Inode) : Nat → Nat
  | 0 => n.itype
  | 1 => n.size
  | w + 2 => if w < 10 then n.blocks w else n.reserved (w - 10)

/-- The inode made of these words. -/
def ofWords (word : Nat → Nat) : Inode :=
  ⟨word 0, word 1, fun i => word (i + 2), fun i => word (i + 12)⟩

end Inode

/-- Block `i` of the inode table in memory. -/
def tabPage (tab : Nat → Inode) (i : Nat) : Page 512 := fun k =>
  let n := i * 512 + k
  UInt8.ofNat ((tab (n / 64)).word (n % 64 / 4) / 256 ^ (n % 4))

/-- The word at an address of a little-endian memory. -/
def wordAt (byte : Nat → UInt8) (a : Nat) : Nat :=
  (byte a).toNat + 256 * (byte (a + 1)).toNat + 256 ^ 2 * (byte (a + 2)).toNat +
    256 ^ 3 * (byte (a + 3)).toNat

/-- The bytes of a word that fits give the word. -/
theorem wordAt_eq {byte : Nat → UInt8} {a x : Nat} (hlt : x < 2 ^ 32)
    (hbyte : ∀ j, j < 4 → byte (a + j) = UInt8.ofNat (x / 256 ^ j)) : wordAt byte a = x := by
  unfold wordAt
  have h0 := hbyte 0 (by omega)
  rw [Nat.add_zero] at h0
  simp only [h0, hbyte 1 (by omega), hbyte 2 (by omega), hbyte 3 (by omega), UInt8.toNat_ofNat']
  omega

/-- The inode table read from its blocks. -/
def tabOfPages (pages : Nat → Page 512) (id : Nat) : Inode :=
  Inode.ofWords fun w => wordAt (fun n => (pages (n / 512)).get (n % 512)) (id * 64 + 4 * w)

/-- A word comes back from memory if it fits. -/
theorem word_tabPage (tab : Nat → Inode) (id : Nat) {w : Nat} (hw : w < 16)
    (hlt : (tab id).word w < 2 ^ 32) :
    wordAt (fun n => (tabPage tab (n / 512)).get (n % 512)) (id * 64 + 4 * w) =
      (tab id).word w := by
  refine wordAt_eq hlt fun j hj => ?_
  rw [Page.get_of_lt _ (by omega)]
  simp only [tabPage]
  have hn : (id * 64 + 4 * w + j) / 512 * 512 + (id * 64 + 4 * w + j) % 512 =
      id * 64 + 4 * w + j := by omega
  have hid : (id * 64 + 4 * w + j) / 64 = id := by omega
  have hword : (id * 64 + 4 * w + j) % 64 / 4 = w := by omega
  have hoff : (id * 64 + 4 * w + j) % 4 = j := by omega
  rw [hn, hid, hword, hoff]

/-! ### Strings -/

/-- A C string, without the zero that ends it. -/
structure CStr where
  chars : List UInt8
  noNul : ∀ c ∈ chars, c ≠ 0

instance (priority := high) decidableNoNul (chars : List UInt8) : Decidable (∀ c ∈ chars, c ≠ 0) :=
  List.decidableBAll (· ≠ 0) chars

/-- `strcmp` says that the string at an offset of a page is this one. -/
def strEq {n : Nat} (page : Page n) : Nat → List UInt8 → Bool
  | off, [] => page.get off == 0
  | off, c :: cs => page.get off == c && strEq page (off + 1) cs

/-- `strcpy` to an offset of a page -/
def strcpy {n : Nat} (page : Page n) : Nat → List UInt8 → Page n
  | off, [] => page.set off 0
  | off, c :: cs => strcpy (page.set off c) (off + 1) cs

/-- The string at an offset of a page, of at most so many characters. -/
def strAt {n : Nat} (page : Page n) : Nat → Nat → List UInt8
  | _, 0 => []
  | off, len + 1 => if page.get off = 0 then [] else page.get off :: strAt page (off + 1) len

/-- The character `/` -/
abbrev slash : UInt8 := 47

/-- `strtok(_, "/")` from the position it has reached: the token, and the position after it. -/
def strtok (s : List UInt8) : Option (List UInt8) × List UInt8 :=
  match s.dropWhile (· == slash) with
  | [] => (none, [])
  | c :: cs => (some ((c :: cs).takeWhile (· != slash)), ((c :: cs).dropWhile (· != slash)).tail)

/-! ### Directory entries -/

/-- `page[i].inodeid` -/
def entryId (page : Page 512) (i : Nat) : Nat :=
  (page.get (16 * i + 14)).toNat + 256 * (page.get (16 * i + 15)).toNat

/-- `strcpy(page[i].name, name); page[i].inodeid = id;` -/
def setEntry (page : Page 512) (i : Nat) (name : List UInt8) (id : Nat) : Page 512 :=
  ((strcpy page (16 * i) name).set (16 * i + 14) (UInt8.ofNat id)).set (16 * i + 15)
    (UInt8.ofNat (id / 256))

/-- The entry `i` of a page is this one. -/
def IsEntry (page : Page 512) (i : Nat) (name : List UInt8) (id : Nat) : Prop :=
  strEq page (16 * i) name = true ∧ entryId page i = id

/-! ### What strings and entries are -/

section

variable {n : Nat} {p q : Page n} {off : Nat} {s : List UInt8}

theorem strEq_cons {c : UInt8} :
    strEq p off (c :: s) = true ↔ p.get off = c ∧ strEq p (off + 1) s = true := by
  simp [strEq]

/-- At one place there is one string. -/
theorem strEq_unique {t : List UInt8} (hs : strEq p off s = true) (ht : strEq p off t = true)
    (hs0 : ∀ c ∈ s, c ≠ 0) (ht0 : ∀ c ∈ t, c ≠ 0) : s = t := by
  induction s generalizing t off with
  | nil =>
      cases t with
      | nil => rfl
      | cons d t =>
          have h : p.get off = 0 := by simpa [strEq] using hs
          exact absurd ((strEq_cons.mp ht).1.symm.trans h) (ht0 d (by simp))
  | cons c s ih =>
      cases t with
      | nil =>
          have h : p.get off = 0 := by simpa [strEq] using ht
          exact absurd ((strEq_cons.mp hs).1.symm.trans h) (hs0 c (by simp))
      | cons d t =>
          obtain ⟨hc, hs'⟩ := strEq_cons.mp hs
          obtain ⟨hd, ht'⟩ := strEq_cons.mp ht
          rw [ih hs' ht' (fun x hx => hs0 x (by simp [hx])) (fun x hx => ht0 x (by simp [hx])),
            ← hc, ← hd]

/-- A string depends on its own bytes. -/
theorem strEq_congr (h : ∀ j, off ≤ j → j ≤ off + s.length → p.get j = q.get j) :
    strEq p off s = strEq q off s := by
  induction s generalizing off with
  | nil =>
      rw [strEq, strEq, h off (Nat.le_refl _) (by simp)]
  | cons c s ih =>
      rw [strEq, strEq, h off (Nat.le_refl _) (by simp),
        ih fun j hj hj' => h j (by omega) (by simp; omega)]

theorem strcpy_get_of_lt {j : Nat} (h : j < off) : (strcpy p off s).get j = p.get j := by
  induction s generalizing p off with
  | nil => exact Page.get_set_of_ne _ (by omega) _
  | cons c s ih => rw [strcpy, ih (by omega), Page.get_set_of_ne _ (by omega)]

theorem strcpy_get_of_gt {j : Nat} (h : off + s.length < j) :
    (strcpy p off s).get j = p.get j := by
  induction s generalizing p off with
  | nil => exact Page.get_set_of_ne _ (by simp at h; omega) _
  | cons c s ih =>
      rw [List.length_cons] at h
      rw [strcpy, ih (by omega), Page.get_set_of_ne _ (by omega)]

/-- What was copied is there. -/
theorem strEq_strcpy (h : off + s.length < n) : strEq (strcpy p off s) off s = true := by
  induction s generalizing p off with
  | nil =>
      rw [strcpy, strEq, Page.get_set, if_pos ⟨rfl, by simpa using h⟩]
      rfl
  | cons c s ih =>
      rw [List.length_cons] at h
      rw [strcpy, strEq_cons, strcpy_get_of_lt (by omega), Page.get_set, if_pos ⟨rfl, by omega⟩]
      exact ⟨rfl, ih (by omega)⟩

/-- Reading a string back. -/
theorem strAt_of_strEq {len : Nat} (h : strEq p off s = true) (hs0 : ∀ c ∈ s, c ≠ 0)
    (hlen : s.length ≤ len) : strAt p off len = s := by
  induction s generalizing off len with
  | nil =>
      have h0 : p.get off = 0 := by simpa [strEq] using h
      cases len with
      | zero => rfl
      | succ len => rw [strAt, if_pos h0]
  | cons c s ih =>
      obtain ⟨hc, hs⟩ := strEq_cons.mp h
      cases len with
      | zero => simp at hlen
      | succ len =>
          rw [strAt, hc, if_neg (hs0 c (by simp)),
            ih hs (fun x hx => hs0 x (by simp [hx])) (by simpa using hlen)]

end

section

variable {page : Page 512} {i : Nat} {name : List UInt8} {id : Nat}

/-- An entry depends on its own bytes. -/
theorem IsEntry.congr {page' : Page 512} (h : IsEntry page i name id) (hlen : name.length ≤ 13)
    (hb : ∀ j, 16 * i ≤ j → j < 16 * i + 16 → page'.get j = page.get j) :
    IsEntry page' i name id := by
  obtain ⟨hname, hid⟩ := h
  constructor
  · rw [strEq_congr fun j hj hj' => hb j hj (by omega)]
    exact hname
  · rw [entryId, hb _ (by omega) (by omega), hb _ (by omega) (by omega)]
    exact hid

/-- The entry that was written is there. -/
theorem isEntry_setEntry (hi : i < 32) (hlen : name.length ≤ 13) (hid : id < 2 ^ 16) :
    IsEntry (setEntry page i name id) i name id := by
  constructor
  · rw [strEq_congr (q := strcpy page (16 * i) name) fun j hj hj' => ?_]
    · exact strEq_strcpy (by omega)
    · rw [setEntry, Page.get_set_of_ne _ (by omega), Page.get_set_of_ne _ (by omega)]
  · rw [entryId, setEntry, Page.get_set_of_ne _ (by omega), Page.get_set,
      if_pos ⟨rfl, by omega⟩, Page.get_set, if_pos ⟨rfl, by omega⟩, UInt8.toNat_ofNat',
      UInt8.toNat_ofNat']
    omega

/-- The other entries stay. -/
theorem setEntry_get_of_ne {j : Nat} (hlen : name.length ≤ 13) (hj : j < 16 * i ∨ 16 * i + 16 ≤ j) :
    (setEntry page i name id).get j = page.get j := by
  rw [setEntry, Page.get_set_of_ne _ (by omega), Page.get_set_of_ne _ (by omega)]
  rcases hj with hj | hj
  · exact strcpy_get_of_lt hj
  · exact strcpy_get_of_gt (by omega)

end

end Sthreads.Snfs
