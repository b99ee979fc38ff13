/-
The messages in memory (`include/snfs_proto.h`).

The bodies are unions.  That of a request has 1036 bytes, the size of its biggest variant
`snfs_msg_req_write_t`, and that of a response 1540, the size of `snfs_msg_res_readdir_t`;
`type` and `sn` take the 8 bytes before the one, and with `status` the 12 before the other.
The fields of a variant are at fixed offsets, numbers are little-endian words, and `int`s
are kept as the words they are made of.
-/
import Sthreads.Client.Message
import Sthreads.Snfs.Types

namespace Sthreads.Snfs

/-! ### Memory -/

namespace Page

variable {n : Nat}

/-- `memcpy` of `len` bytes to an offset -/
def copyTo (p : Page n) (off len : Nat) (src : Nat → UInt8) : Page n :=
  fun k => if off ≤ k.val ∧ k.val < off + len then src (k.val - off) else p k

def word (p : Page n) (off : Nat) : UInt32 := UInt32.ofNat (wordAt p.get off)

def setWord (p : Page n) (off : Nat) (v : UInt32) : Page n :=
  p.copyTo off 4 fun j => UInt8.ofNat (v.toNat / 256 ^ j)

theorem get_copyTo (p : Page n) (off len : Nat) (src : Nat → UInt8) (i : Nat) :
    (p.copyTo off len src).get i =
      if off ≤ i ∧ i < off + len ∧ i < n then src (i - off) else p.get i := by
  by_cases hi : i < n
  · simp only [get_of_lt _ hi, copyTo, hi, and_true]
  · rw [get_of_ge _ (by omega), get_of_ge _ (by omega), if_neg (by omega)]

theorem get_copyTo_of_out (p : Page n) {off len : Nat} (src : Nat → UInt8) {i : Nat}
    (h : i < off ∨ off + len ≤ i) : (p.copyTo off len src).get i = p.get i := by
  rw [get_copyTo, if_neg (by omega)]

theorem get_copyTo_of_in (p : Page n) {off len : Nat} (src : Nat → UInt8) {i : Nat}
    (hlen : off + len ≤ n) (h : off ≤ i) (h' : i < off + len) :
    (p.copyTo off len src).get i = src (i - off) := by
  rw [get_copyTo, if_pos ⟨h, h', by omega⟩]

/-- A word depends on its own bytes. -/
theorem word_congr {m : Nat} {p : Page n} {q : Page m} {off : Nat}
    (h : ∀ i, off ≤ i → i < off + 4 → p.get i = q.get i) : p.word off = q.word off := by
  unfold word wordAt
  rw [h off (by omega) (by omega), h (off + 1) (by omega) (by omega),
    h (off + 2) (by omega) (by omega), h (off + 3) (by omega) (by omega)]

theorem word_setWord (p : Page n) {off : Nat} (hoff : off + 4 ≤ n) (v : UInt32) :
    (p.setWord off v).word off = v := by
  have hv := v.toNat_lt
  have hbyte : ∀ j, j < 4 → (p.setWord off v).get (off + j) = UInt8.ofNat (v.toNat / 256 ^ j) := by
    intro j hj
    rw [setWord, get_copyTo_of_in p _ hoff (by omega) (by omega), Nat.add_sub_cancel_left]
  have h0 := hbyte 0 (by omega)
  rw [Nat.add_zero] at h0
  unfold word wordAt
  simp only [h0, hbyte 1 (by omega), hbyte 2 (by omega), hbyte 3 (by omega), UInt8.toNat_ofNat']
  apply UInt32.toNat_inj.mp
  rw [UInt32.toNat_ofNat']
  generalize v.toNat = x at hv ⊢
  omega

theorem word_copyTo_of_out (p : Page n) {off len : Nat} (src : Nat → UInt8) {i : Nat}
    (h : i + 4 ≤ off ∨ off + len ≤ i) : (p.copyTo off len src).word i = p.word i :=
  word_congr fun _ _ _ => get_copyTo_of_out p src (by omega)

theorem word_setWord_of_out (p : Page n) {off i : Nat} (v : UInt32)
    (h : i + 4 ≤ off ∨ off + 4 ≤ i) : (p.setWord off v).word i = p.word i :=
  word_copyTo_of_out p _ h

theorem get_setWord_of_out (p : Page n) {off i : Nat} (v : UInt32) (h : i < off ∨ off + 4 ≤ i) :
    (p.setWord off v).get i = p.get i :=
  get_copyTo_of_out p _ h

theorem strAt_noNul (p : Page n) : ∀ (len off : Nat), ∀ c ∈ strAt p off len, c ≠ 0 := by
  intro len
  induction len with
  | zero =>
      intro off c hc
      cases hc
  | succ len ih =>
      intro off c hc
      rw [strAt] at hc
      split at hc
      · cases hc
      · rename_i h0
        rcases List.mem_cons.mp hc with rfl | hc
        · exact h0
        · exact ih (off + 1) c hc

/-- The string at an offset; one without an end stops with the page. -/
def cstr (p : Page n) (off : Nat) : CStr := ⟨strAt p off (n - off), strAt_noNul p (n - off) off⟩

end Page

/-! ### Messages -/

/-- `snfs_msg_req_t` -/
abbrev Req := MsgReq (Page 1036)

/-- `snfs_msg_res_t` -/
abbrev Res := MsgRes (Page 1540)

/-- `snfs_dir_entry_t`, 24 bytes: `name`, two bytes of padding, `len` and `type` -/
structure DirEntry where
  name : Page 14
  len : UInt32
  type : UInt32

/-- `list[i]` of `snfs_msg_res_readdir_t` -/
def dirEntryAt (b : Page 1540) (i : Nat) : DirEntry :=
  ⟨fun k => b.get (4 + 24 * i + k), b.word (4 + 24 * i + 16), b.word (4 + 24 * i + 20)⟩

def setDirEntry (b : Page 1540) (i : Nat) (e : DirEntry) : Page 1540 :=
  ((b.copyTo (4 + 24 * i) 14 e.name.get).setWord (4 + 24 * i + 16) e.len).setWord
    (4 + 24 * i + 20) e.type

/-- The results a response carries when its status is `RES_OK`. -/
inductive Results
  | ping (msg : List UInt8)
  | lookup (file fsize : UInt32)
  | read (data : List UInt8) (nread : UInt32)
  | write (fsize : UInt32)
  | create (file : UInt32)
  | mkdir (newdirid : UInt32)
  | readdir (list : List DirEntry)
  | copy

namespace Results

/-- The assignments to `list[i]`, `list[i + 1]`, ... -/
def putEntries (b : Page 1540) : Nat → List DirEntry → Page 1540
  | _, [] => b
  | i, e :: rest => putEntries (setDirEntry b i e) (i + 1) rest

/-- The body of a response that was filled with zeros, with these results in it. -/
def body : Results → Page 1540
  | ping msg => strcpy (fun _ => 0) 0 msg
  | lookup file fsize => (Page.setWord (fun _ => 0) 0 file).setWord 4 fsize
  | read data nread =>
      (Page.copyTo (fun _ => 0) 0 data.length fun i => data.getD i 0).setWord 1024 nread
  | write fsize => Page.setWord (fun _ => 0) 0 fsize
  | create file => Page.setWord (fun _ => 0) 0 file
  | mkdir newdirid => Page.setWord (fun _ => 0) 0 newdirid
  | readdir list => putEntries (Page.setWord (fun _ => 0) 0 (UInt32.ofNat list.length)) 0 list
  | copy => fun _ => 0

end Results

end Sthreads.Snfs
