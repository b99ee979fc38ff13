/-
Requests and responses survive being sent, as far as the sizes allow.

The size that is sent is that of the variant of the body, so what a call puts in its own
variant arrives.  A path that `snfs_lookup` sends does not have to fit in `pname`, a handle is
cut to an `inodeid_t`, and `snfs_readdir` takes `cmax` for an `int`: what fits is `Fits`.
-/
import Mathlib.Data.List.TakeDrop
import Sthreads.Client.Api

namespace Sthreads.Snfs

/-! ### Strings -/

section

variable {n m : Nat} {p : Page n} {q : Page m} {off : Nat} {s : List UInt8}

/-- A string of which the first characters were kept, with a zero behind them. -/
theorem strEq_take {off' : Nat} (h : strEq p off s = true) {k : Nat} (hk : k ≤ s.length)
    (hq : ∀ j, j < k → q.get (off' + j) = p.get (off + j)) (h0 : q.get (off' + k) = 0) :
    strEq q off' (s.take k) = true := by
  induction k generalizing off off' s with
  | zero => simpa [strEq] using h0
  | succ k ih =>
      cases s with
      | nil => simp at hk
      | cons c s =>
          obtain ⟨hc, hs⟩ := strEq_cons.mp h
          rw [List.take_succ_cons, strEq_cons]
          refine ⟨(hq 0 (by omega)).trans hc, ih hs (by simpa using hk) (fun j hj => ?_) ?_⟩
          · rw [show off' + 1 + j = off' + (j + 1) by omega, hq (j + 1) (by omega)]
            congr 1
            omega
          · rwa [show off' + 1 + k = off' + (k + 1) by omega]

/-- The zero at the end of a string -/
theorem get_end_of_strEq (h : strEq p off s = true) : p.get (off + s.length) = 0 := by
  induction s generalizing off with
  | nil => simpa [strEq] using h
  | cons c s ih =>
      rw [List.length_cons, show off + (s.length + 1) = off + 1 + s.length by omega]
      exact ih (strEq_cons.mp h).2

/-- A string that was kept -/
theorem strEq_of_agree {off' : Nat} (h : strEq p off s = true)
    (hq : ∀ j, j ≤ s.length → q.get (off' + j) = p.get (off + j)) : strEq q off' s = true := by
  have htake := strEq_take h (Nat.le_refl _) (fun j hj => hq j (by omega))
    ((hq _ (Nat.le_refl _)).trans (get_end_of_strEq h))
  rwa [List.take_length] at htake

theorem cstr_of_strEq {off : Nat} (h : strEq p off s = true) (hs0 : ∀ c ∈ s, c ≠ 0)
    (hlen : s.length ≤ n - off) : p.cstr off = ⟨s, hs0⟩ := by
  rw [Page.cstr, CStr.mk.injEq]
  exact strAt_of_strEq h hs0 hlen

end

/-- The first characters of a string -/
def CStr.take (s : CStr) (k : Nat) : CStr :=
  ⟨s.chars.take k, fun c hc => s.noNul c (List.mem_of_mem_take hc)⟩

end Sthreads.Snfs

namespace Sthreads.Client

open Snfs

/-! ### Requests -/

/-- The arguments that arrive. -/
def ApiCall.args : ApiCall → Args
  | ping .. => .ping
  | lookup pathname => .lookup (pathname.take 14)
  | read fhandle offset count => .read (Args.inodeid fhandle) offset.toNat count.toNat
  | write fhandle offset count buffer =>
      .write (Args.inodeid fhandle) offset.toNat count.toNat
        fun i => if i < count.toNat then buffer i else 0
  | create dir name => .create (Args.inodeid dir) (name.take 13)
  | mkdir dir name => .mkdir (Args.inodeid dir) (name.take 13)
  | readdir dir cmax => .readdir (Args.inodeid dir) cmax.toNat
  | copy srcpath tgtpath => .copy srcpath tgtpath

/-- What the call copies stays inside the request. -/
def ApiCall.Sendable : ApiCall → Prop
  | ping _ insize _ => insize ≤ 1036
  | lookup pathname => pathname.chars.length < 200
  | write _ _ count _ => count.toNat ≤ 1024
  | create _ name => name.chars.length < 200
  | mkdir _ name => name.chars.length < 200
  | copy srcpath tgtpath => srcpath.chars.length < 200 ∧ tgtpath.chars.length < 200
  | _ => True

theorem length_of_myparse {pathname : CStr} (h : myparse pathname = true) :
    pathname.chars.length < 200 := by
  simp only [myparse, Bool.and_eq_true, decide_eq_true_eq] at h
  exact h.1.1.1.1.2

section

variable {reqsz : Nat} {req : Req}

/-- What was sent arrives. -/
theorem received_get {i : Nat} (h : 8 + i < reqsz) :
    (received reqsz req).body.get i = req.body.get i := by
  by_cases hi : i < 1036
  · rw [Page.get_of_lt _ hi, Page.get_of_lt _ hi]
    exact if_pos h
  · rw [Page.get_of_ge _ (by omega), Page.get_of_ge _ (by omega)]

theorem received_get_of_ge {i : Nat} (h : reqsz ≤ 8 + i) : (received reqsz req).body.get i = 0 := by
  by_cases hi : i < 1036
  · rw [Page.get_of_lt _ hi]
    exact if_neg (by change ¬ 8 + i < reqsz; omega)
  · exact Page.get_of_ge _ (by omega)

theorem received_word {off : Nat} (h : 8 + off + 4 ≤ reqsz) :
    (received reqsz req).body.word off = req.body.word off :=
  Page.word_congr fun _ _ _ => received_get (by omega)

end

theorem zeros_get (n i : Nat) : Page.get (fun _ => 0 : Page n) i = 0 := by
  unfold Page.get
  split <;> rfl

/-- The path that `snfs_lookup` sends -/
theorem received_pname {pathname : CStr} (hlen : pathname.chars.length < 200) (sn : Int) :
    (received 22 ((ApiCall.lookup pathname).request sn)).body.cstr 0 = pathname.take 14 := by
  have hsent : strEq ((ApiCall.lookup pathname).body) 0 pathname.chars = true :=
    strEq_strcpy (by omega)
  have hkept : strEq (received 22 ((ApiCall.lookup pathname).request sn)).body 0
      (pathname.chars.take 14) = true := by
    by_cases h14 : 14 ≤ pathname.chars.length
    · exact strEq_take hsent h14 (fun j hj => received_get (by omega))
        (received_get_of_ge (by omega))
    · rw [List.take_of_length_le (by omega)]
      exact strEq_of_agree hsent fun j hj => received_get (by omega)
  exact cstr_of_strEq hkept _ (by simp)

/-- The name that `snfs_create` and `snfs_mkdir` send -/
theorem received_name {c : ApiCall} {dir : UInt32} {name : CStr} (hlen : name.chars.length < 200)
    (hbody : c.body = strcpy (Page.setWord (fun _ => 0) 0 dir) 4 name.chars) (sn : Int) :
    (received 28 (c.request sn)).body.word 0 = dir ∧
      ((received 28 (c.request sn)).body.set 17 0).cstr 4 = name.take 13 := by
  constructor
  · rw [received_word (by omega)]
    change c.body.word 0 = dir
    rw [hbody, Page.word_congr fun i _ hi => strcpy_get_of_lt (by omega)]
    exact Page.word_setWord _ (by omega) _
  · have hsent : strEq c.body 4 name.chars = true := by
      rw [hbody]
      exact strEq_strcpy (by omega)
    have hget : ∀ j, j < 13 → ((received 28 (c.request sn)).body.set 17 0).get (4 + j) =
        c.body.get (4 + j) := fun j hj =>
      (Page.get_set_of_ne _ (by omega) _).trans (received_get (by omega))
    have hkept : strEq ((received 28 (c.request sn)).body.set 17 0) 4 (name.chars.take 13) =
        true := by
      by_cases h13 : 13 ≤ name.chars.length
      · -- the name ends where the handler puts a zero
        refine strEq_take hsent h13 hget ?_
        rw [Page.get_set, if_pos (by omega)]
      · rw [List.take_of_length_le (by omega)]
        exact strEq_of_agree hsent fun j hj => hget j (by omega)
    exact cstr_of_strEq hkept _ (by simp)

/-- The numbers that `snfs_read` and `snfs_write` put in the body -/
theorem read_words (fhandle offset count : UInt32) :
    (ApiCall.read fhandle offset count).body.word 0 = fhandle ∧
      (ApiCall.read fhandle offset count).body.word 4 = offset ∧
      (ApiCall.read fhandle offset count).body.word 8 = count := by
  refine ⟨?_, ?_, ?_⟩
  · rw [ApiCall.body, Page.word_setWord_of_out _ _ (by omega),
      Page.word_setWord_of_out _ _ (by omega), Page.word_setWord _ (by omega)]
  · rw [ApiCall.body, Page.word_setWord_of_out _ _ (by omega), Page.word_setWord _ (by omega)]
  · rw [ApiCall.body, Page.word_setWord _ (by omega)]

theorem received_read (fhandle offset count : UInt32) (sn : Int) :
    Args.readOf (received 20 ((ApiCall.read fhandle offset count).request sn)).body =
      .read (Args.inodeid fhandle) offset.toNat count.toNat := by
  obtain ⟨hfile, hoffset, hcount⟩ := read_words fhandle offset count
  rw [Args.readOf, received_word (by omega), received_word (by omega), received_word (by omega),
    ApiCall.request, hfile, hoffset, hcount]

theorem received_write {fhandle offset count : UInt32} {buffer : Nat → UInt8}
    (hcount : count.toNat ≤ 1024) (sn : Int) :
    Args.writeOf (received 1044 ((ApiCall.write fhandle offset count buffer).request sn)).body =
      .write (Args.inodeid fhandle) offset.toNat count.toNat
        fun i => if i < count.toNat then buffer i else 0 := by
  have hdata : ∀ i, (received 1044 ((ApiCall.write fhandle offset count buffer).request
      sn)).body.get (12 + i) = if i < count.toNat then buffer i else 0 := by
    intro i
    by_cases hi : i < 1024
    · rw [received_get (by omega), ApiCall.request, ApiCall.body, Page.get_copyTo]
      by_cases hin : i < count.toNat
      · rw [if_pos (by omega), if_pos hin, Nat.add_sub_cancel_left]
      · rw [if_neg (by omega), if_neg hin, Page.get_setWord_of_out _ _ (by omega),
          Page.get_setWord_of_out _ _ (by omega), Page.get_setWord_of_out _ _ (by omega),
          zeros_get]
    · rw [received_get_of_ge (by omega), if_neg (by omega)]
  have hword : ∀ off, off + 4 ≤ 12 →
      (received 1044 ((ApiCall.write fhandle offset count buffer).request sn)).body.word off =
        (ApiCall.read fhandle offset count).body.word off := by
    intro off hoff
    rw [received_word (by omega)]
    exact Page.word_copyTo_of_out _ _ (by omega)
  obtain ⟨hfile, hoffset, hcount⟩ := read_words fhandle offset count
  rw [Args.writeOf, hword 0 (by omega), hword 4 (by omega), hword 8 (by omega), hfile, hoffset,
    hcount, funext hdata]

theorem received_readdir (dir cmax : UInt32) (sn : Int) :
    Args.readdirOf (received 16 ((ApiCall.readdir dir cmax).request sn)).body =
      .readdir (Args.inodeid dir) cmax.toNat := by
  rw [Args.readdirOf, received_word (by omega), received_word (by omega), ApiCall.request,
    ApiCall.body, Page.word_setWord_of_out _ _ (by omega), Page.word_setWord _ (by omega),
    Page.word_setWord _ (by omega)]

theorem received_copy {srcpath tgtpath : CStr} (hsrc : srcpath.chars.length < 200)
    (htgt : tgtpath.chars.length < 200) (sn : Int) :
    Args.copyOf (received 408 ((ApiCall.copy srcpath tgtpath).request sn)).body =
      .copy srcpath tgtpath := by
  have hsrc_sent : strEq (ApiCall.copy srcpath tgtpath).body 0 srcpath.chars = true := by
    rw [ApiCall.body, strEq_congr fun j _ hj => strcpy_get_of_lt (by omega)]
    exact strEq_strcpy (by omega)
  have htgt_sent : strEq (ApiCall.copy srcpath tgtpath).body 200 tgtpath.chars = true :=
    strEq_strcpy (by omega)
  rw [Args.copyOf,
    cstr_of_strEq (strEq_of_agree hsrc_sent fun j hj => received_get (by omega))
      srcpath.noNul (by omega),
    cstr_of_strEq (strEq_of_agree htgt_sent fun j hj => received_get (by omega))
      tgtpath.noNul (by omega)]

/-- The arguments that a request brings to its handler -/
theorem ofReq_received {c : ApiCall} (h : c.Sendable) (sn : Int) :
    Args.ofReq (received c.reqSize (c.request sn)) = some c.args := by
  cases c with
  | ping inmsg insize outsize => rfl
  | lookup pathname =>
      exact congrArg (some <| Args.lookup ·) (received_pname h sn)
  | read fhandle offset count => exact congrArg some (received_read fhandle offset count sn)
  | write fhandle offset count buffer => exact congrArg some (received_write h sn)
  | create dir name =>
      obtain ⟨hdir, hname⟩ := received_name (c := .create dir name) h rfl sn
      change some (Args.createOf (received 28 _).body) = _
      rw [Args.createOf, hdir, hname]
      rfl
  | mkdir dir name =>
      obtain ⟨hdir, hname⟩ := received_name (c := .mkdir dir name) h rfl sn
      change some (Args.mkdirOf (received 28 _).body) = _
      rw [Args.mkdirOf, hdir, hname]
      rfl
  | readdir dir cmax => exact congrArg some (received_readdir dir cmax sn)
  | copy srcpath tgtpath =>
      exact congrArg some (received_copy h.1 h.2 sn)

/-! ### Responses -/

section

variable {a : Args} {r : Option Results} {there : Page 1540} {c : ApiCall}

theorem delivered_get {i : Nat} (h : i < a.size) :
    (delivered (respond a r).2 (respond a r).1 there).body.get i =
      (respond a r).1.body.get i := by
  have hsize : (respond a r).2 = resHeaderSize + a.size := by cases r <;> rfl
  by_cases hi : i < 1540
  · rw [Page.get_of_lt _ hi, Page.get_of_lt _ hi]
    exact if_pos (hsize ▸ Nat.add_lt_add_left h _)
  · rw [Page.get_of_ge _ (by omega), Page.get_of_ge _ (by omega)]

end

/-- The results that a handler can put in its response. -/
def Gives : Args → Results → Prop
  | .ping, .ping msg => msg = [104, 101, 108, 108, 111]
  | .lookup _, .lookup .. => True
  | .read _ _ count, .read data nread =>
      nread.toNat = data.length ∧ data.length ≤ count ∧ count ≤ 1024
  | .write .., .write _ => True
  | .create .., .create _ => True
  | .mkdir .., .mkdir _ => True
  | .readdir .., .readdir list => list.length ≤ 64
  | .copy .., .copy => True
  | _, _ => False

theorem readBlocks_length (ifile offset max : Nat) :
    ∀ (left iblock pos : Nat) (block : Page 512) (buffer : List UInt8),
      pos = buffer.length → pos ≤ max →
      Prog.Always (fun x => x.1 = x.2.length ∧ x.1 ≤ max)
        (readBlocks ifile offset max left iblock pos block buffer) := by
  intro left
  induction left with
  | zero => exact fun _ _ _ _ hpos hmax => ⟨hpos, hmax⟩
  | succ left ih =>
      intro iblock pos block buffer hpos hmax
      rw [readBlocks]
      split
      · refine Prog.always_bind (fun b _ => ?_) (Prog.Always.trivial _)
        refine Prog.always_op fun block => ?_
        exact ih _ _ _ _ (by simp [slice, hpos]) (by omega)
      · exact ⟨hpos, hmax⟩

theorem fsRead_length (junk : Page 512) (file offset : Nat) {count : Nat} (hcount : count ≤ 1024) :
    Prog.Always (fun x => ∀ n, x.2.1 = some n → n = x.2.2.length ∧ n ≤ count)
      (fsRead junk file offset count) := by
  have hfail : Prog.Always (fun x => ∀ n, x.2.1 = some n → n = x.2.2.length ∧ n ≤ count)
      (pure (-1, none, []) : FsM (Int × Option Nat × List UInt8)) := fun n hn => nomatch hn
  rw [fsRead]
  split
  · exact hfail
  refine Prog.always_op fun bmap => ?_
  split
  · exact hfail
  refine Prog.always_op fun ifile => Prog.always_op fun n => ?_
  split
  · exact hfail
  split
  · intro m hm
    cases hm
    exact ⟨rfl, Nat.zero_le _⟩
  refine Prog.always_bind ?_ (readBlocks_length _ _ _ _ _ _ _ _ rfl (Nat.zero_le _))
  rintro ⟨pos, buffer⟩ ⟨hpos, hmax⟩ m hm
  rw [asInt_of_lt (by omega)] at hmax
  cases hm
  exact ⟨hpos, by omega⟩

/-- A handler that fails -/
theorem gives_none {P : Results → Prop} :
    Prog.Always (fun r : Option Results => ∀ x, r = some x → P x) (pure none : FsM _) :=
  fun _ h => nomatch h

/-- A handler that puts its results together from one output -/
theorem gives_map {α : Type} {P : Results → Prop} {o : Option α} {f : α → Results}
    (h : ∀ y, o = some y → P (f y)) :
    Prog.Always (fun r : Option Results => ∀ x, r = some x → P x) (pure (o.map f) : FsM _) := by
  intro x hx
  obtain ⟨y, hy, rfl⟩ := Option.map_eq_some_iff.mp hx
  exact h y hy

theorem dirEntries_length (es : List (List UInt8 × Nat)) :
    Prog.Always (fun l => l.length = es.length) (dirEntries es) := by
  induction es with
  | nil => exact rfl
  | cons e es ih =>
      rw [dirEntries]
      refine Prog.always_bind (fun x _ => ?_) (Prog.Always.trivial _)
      refine Prog.always_bind (fun l hl => ?_) ih
      exact congrArg (· + 1) hl

/-- What a handler returns has the form that its response has. -/
theorem handler_gives (stack : Stack) (a : Args) :
    Prog.Always (fun r => ∀ x, r = some x → Gives a x) (a.handler stack) := by
  cases a with
  | ping => exact fun x hx => Option.some.inj hx ▸ rfl
  | lookup file =>
      change Prog.Always _ (Snfs.snfsLookup stack file)
      rw [Snfs.snfsLookup]
      refine Prog.always_bind ?_ (Prog.Always.trivial _)
      rintro ⟨status, x⟩ -
      dsimp only
      split
      · exact gives_none
      refine Prog.always_bind ?_ (Prog.Always.trivial _)
      rintro ⟨status, y⟩ -
      dsimp only
      split
      · exact gives_none
      · exact gives_map fun _ _ => trivial
  | read file offset count =>
      change Prog.Always _ (Snfs.snfsRead stack file offset count)
      rw [Snfs.snfsRead]
      split
      · exact gives_none
      rename_i hcount
      refine Prog.always_bind ?_ (fsRead_length _ _ _ (Nat.le_of_not_lt hcount))
      rintro ⟨status, nread, data⟩ hdata
      dsimp only
      split
      · exact gives_none
      refine gives_map fun n hn => ?_
      obtain ⟨hlen, hle⟩ := hdata n hn
      refine ⟨?_, hlen ▸ hle, Nat.le_of_not_lt hcount⟩
      rw [UInt32.toNat_ofNat_of_lt' (by change n < 4294967296; omega), hlen]
  | write file offset count data =>
      change Prog.Always _ (Snfs.snfsWrite stack file offset count data)
      rw [Snfs.snfsWrite]
      split
      · exact gives_none
      refine Prog.always_bind ?_ (Prog.Always.trivial _)
      rintro status -
      split
      · exact gives_none
      refine Prog.always_bind ?_ (Prog.Always.trivial _)
      rintro ⟨status, y⟩ -
      dsimp only
      split
      · exact gives_none
      · exact gives_map fun _ _ => trivial
  | create dir name =>
      change Prog.Always _ (Snfs.snfsCreate stack dir name)
      rw [Snfs.snfsCreate]
      refine Prog.always_bind ?_ (Prog.Always.trivial _)
      rintro ⟨status, x⟩ -
      dsimp only
      split
      · exact gives_none
      · exact gives_map fun _ _ => trivial
  | mkdir dir f =>
      change Prog.Always _ (Snfs.snfsMkdir stack dir f)
      rw [Snfs.snfsMkdir]
      refine Prog.always_bind ?_ (Prog.Always.trivial _)
      rintro ⟨status, x⟩ -
      dsimp only
      split
      · exact gives_none
      · exact gives_map fun _ _ => trivial
  | readdir dir maxentries =>
      change Prog.Always _ (snfsReaddir stack dir maxentries)
      rw [snfsReaddir]
      refine Prog.always_bind ?_ (Prog.Always.trivial _)
      rintro ⟨status, x⟩ -
      dsimp only
      split
      · exact gives_none
      split
      · trivial
      · rename_i hlen
        refine Prog.always_bind (fun l hl => ?_) (dirEntries_length _)
        intro x hx
        cases hx
        change l.length ≤ 64
        omega
  | copy srcpath tgtpath => exact gives_none

/-! ### What the client makes of them -/

theorem setDirEntry_get_of_lt {b : Page 1540} {i j : Nat} {e : DirEntry} (h : j < 4 + 24 * i) :
    (setDirEntry b i e).get j = b.get j := by
  rw [setDirEntry, Page.get_setWord_of_out _ _ (by omega), Page.get_setWord_of_out _ _ (by omega),
    Page.get_copyTo_of_out _ _ (by omega)]

theorem dirEntryAt_setDirEntry {b : Page 1540} {i : Nat} (hi : i < 64) (e : DirEntry) :
    dirEntryAt (setDirEntry b i e) i = e := by
  rw [dirEntryAt, setDirEntry, Page.word_setWord _ (by omega),
    Page.word_setWord_of_out _ _ (by omega), Page.word_setWord _ (by omega)]
  congr
  funext k
  have hk := k.isLt
  rw [Page.get_setWord_of_out _ _ (by omega), Page.get_setWord_of_out _ _ (by omega),
    Page.get_copyTo_of_in _ _ (by omega) (by omega) (by omega), Nat.add_sub_cancel_left,
    Page.get_of_lt _ hk]

/-- An entry depends on its own bytes. -/
theorem dirEntryAt_congr {b b' : Page 1540} {i : Nat}
    (h : ∀ j, 4 + 24 * i ≤ j → j < 4 + 24 * i + 24 → b'.get j = b.get j) :
    dirEntryAt b' i = dirEntryAt b i := by
  rw [dirEntryAt, dirEntryAt, Page.word_congr fun j _ _ => h j (by omega) (by omega),
    Page.word_congr fun j _ _ => h j (by omega) (by omega)]
  congr
  funext k
  have hk := k.isLt
  exact h _ (by omega) (by omega)

theorem putEntries_get_of_lt :
    ∀ (list : List DirEntry) (b : Page 1540) (i : Nat) {j : Nat}, j < 4 + 24 * i →
      (Results.putEntries b i list).get j = b.get j
  | [], _, _, _, _ => rfl
  | _ :: list, _, _, _, h => by
      rw [Results.putEntries, putEntries_get_of_lt list _ _ (by omega), setDirEntry_get_of_lt h]

theorem dirEntryAt_putEntries :
    ∀ (list : List DirEntry) (b : Page 1540) (i : Nat), i + list.length ≤ 64 →
      (List.range list.length).map (fun k => dirEntryAt (Results.putEntries b i list) (i + k)) =
        list
  | [], _, _, _ => rfl
  | e :: list, b, i, h => by
      rw [List.length_cons] at h ⊢
      rw [List.range_succ_eq_map, List.map_cons, List.map_map, Results.putEntries]
      congr 1
      · rw [dirEntryAt_congr fun j _ _ => putEntries_get_of_lt list _ _ (by omega)]
        exact dirEntryAt_setDirEntry (by omega) e
      · refine Eq.trans (List.map_congr_left fun k _ => ?_)
          (dirEntryAt_putEntries list (setDirEntry b i e) (i + 1) (by omega))
        rw [Function.comp, Nat.add_right_comm, Nat.add_assoc]

/-- The call asks for everything that the handler returns. -/
def ApiCall.AsksAll : ApiCall → Prop
  | ping _ _ outsize => 5 ≤ outsize
  | _ => True

theorem ping_msg {b : Page 1540}
    (hb : ∀ i, i < 256 → b.get i = (Results.ping [104, 101, 108, 108, 111]).body.get i) :
    b.cstr 0 = ⟨[104, 101, 108, 108, 111], by decide⟩ := by
  have hsent : strEq (Results.ping [104, 101, 108, 108, 111]).body 0
      [104, 101, 108, 108, 111] = true := strEq_strcpy (by decide)
  refine cstr_of_strEq (strEq_of_agree hsent fun j hj => ?_) (by decide) (by decide)
  rw [List.length_cons] at hj
  exact hb _ (by simp at hj; omega)

/-- What the call returns is what the handler put in the response, wherever the bytes of the
variant of the body are. -/
theorem results_of_agree {c : ApiCall} (hask : c.AsksAll) {x : Results} (hx : Gives c.args x)
    {b : Page 1540} (hb : ∀ i, i < c.args.size → b.get i = x.body.get i) : c.results b = x := by
  have hword : ∀ off, off + 4 ≤ c.args.size → b.word off = x.body.word off :=
    fun off hoff => Page.word_congr fun i _ _ => hb i (by omega)
  cases c with
  | ping inmsg insize outsize =>
      cases x with
      | ping msg =>
          obtain rfl : msg = [104, 101, 108, 108, 111] := hx
          rw [ApiCall.results, ping_msg hb]
          exact congrArg Results.ping (List.take_of_length_le hask)
      | _ => cases hx
  | lookup pathname =>
      cases x with
      | lookup file fsize =>
          rw [ApiCall.results, hword 0 (by change 0 + 4 ≤ 8; omega), hword 4 (Nat.le_refl _),
            Results.body, Page.word_setWord _ (by omega), Page.word_setWord_of_out _ _ (by omega),
            Page.word_setWord _ (by omega)]
      | _ => cases hx
  | read fhandle offset count =>
      cases x with
      | read data nread =>
          obtain ⟨hlen, hcount, hmax⟩ : nread.toNat = data.length ∧ data.length ≤ count.toNat ∧
            count.toNat ≤ 1024 := hx
          have hn : b.word 1024 = nread := by
            rw [hword 1024 (Nat.le_refl _), Results.body, Page.word_setWord _ (by omega)]
          rw [ApiCall.results, hn, hlen, Nat.min_eq_right hcount]
          congr 1
          refine List.ext_getElem (by simp) fun i h h' => ?_
          rw [List.getElem_map, List.getElem_range, hb i (by change i < 1028; omega), Results.body,
            Page.get_setWord_of_out _ _ (by omega),
            Page.get_copyTo_of_in _ _ (by omega) (Nat.zero_le _) (by omega), Nat.sub_zero,
            List.getD_eq_getElem _ _ h']
      | _ => cases hx
  | write fhandle offset count buffer =>
      cases x with
      | write fsize =>
          rw [ApiCall.results, hword 0 (Nat.le_refl _), Results.body, Page.word_setWord _ (by omega)]
      | _ => cases hx
  | create dir name =>
      cases x with
      | create file =>
          rw [ApiCall.results, hword 0 (Nat.le_refl _), Results.body, Page.word_setWord _ (by omega)]
      | _ => cases hx
  | mkdir dir name =>
      cases x with
      | mkdir newdirid =>
          rw [ApiCall.results, hword 0 (Nat.le_refl _), Results.body, Page.word_setWord _ (by omega)]
      | _ => cases hx
  | readdir dir cmax =>
      cases x with
      | readdir list =>
          have hlen : list.length ≤ 64 := hx
          have hcount : b.word 0 = UInt32.ofNat list.length := by
            rw [hword 0 (by change 0 + 4 ≤ 1540; omega), Results.body,
              Page.word_congr fun j _ _ => putEntries_get_of_lt list _ _ (by omega),
              Page.word_setWord _ (by omega)]
          rw [ApiCall.results, hcount, UInt32.toNat_ofNat_of_lt' (by change _ < 4294967296; omega)]
          congr 1
          refine Eq.trans (List.map_congr_left fun k hk => ?_)
            (dirEntryAt_putEntries list (Page.setWord (fun _ => 0) 0 (UInt32.ofNat list.length)) 0
              (by omega))
          rw [List.mem_range] at hk
          rw [Nat.zero_add]
          exact dirEntryAt_congr fun j _ _ => hb j (by change j < 1540; omega)
      | _ => cases hx
  | copy srcpath tgtpath =>
      cases x with
      | copy => rfl
      | _ => cases hx

/-! ### What survives -/

/-- The arguments of the `fs_*` functions, as numbers and characters. -/
inductive Handed
  | ping
  | lookup (file : List UInt8)
  | read (file : Int) (offset count : Nat)
  | write (file : Int) (offset count : Nat) (data : List UInt8)
  | create (dir : Int) (name : List UInt8)
  | mkdir (dir : Int) (name : List UInt8)
  | readdir (dir maxentries : Int)
  | copy (srcpath tgtpath : List UInt8)
  deriving DecidableEq

/-- What a handler hands on. -/
def handedOn : Args → Handed
  | .ping => .ping
  | .lookup file => .lookup file.chars
  | .read file offset count => .read file offset count
  | .write file offset count data => .write file offset count ((List.range count).map data)
  | .create dir name => .create dir name.chars
  | .mkdir dir f => .mkdir dir f.chars
  | .readdir dir maxentries => .readdir dir (asInt maxentries)
  | .copy srcpath tgtpath => .copy srcpath.chars tgtpath.chars

namespace ApiCall

/-- What a call means to hand on. -/
def handed : ApiCall → Handed
  | ping .. => .ping
  | lookup pathname => .lookup pathname.chars
  | read fhandle offset count => .read (asInt fhandle.toNat) offset.toNat count.toNat
  | write fhandle offset count buffer =>
      .write (asInt fhandle.toNat) offset.toNat count.toNat
        ((List.range count.toNat).map buffer)
  | create dir name => .create (asInt dir.toNat) name.chars
  | mkdir dir name => .mkdir (asInt dir.toNat) name.chars
  | readdir dir cmax => .readdir (asInt dir.toNat) cmax.toNat
  | copy srcpath tgtpath => .copy srcpath.chars tgtpath.chars

/-- The call writes its request and nothing beyond it, its arguments reach the `fs_*` function, and
the results that the handler puts in its response are those that the call returns. -/
structure Survives (c : ApiCall) (sn : Int) (stack : Stack) (fs : Fs) : Prop where
  inside : c.Sendable
  arguments : (Args.ofReq (received c.reqSize (c.request sn))).map handedOn = some c.handed
  results : ∀ (a : Args) (r : Option Results) (fs' : Fs),
    Args.ofReq (received c.reqSize (c.request sn)) = some a →
    Prog.run Fs.handler (a.handler stack) fs = .ok (r, fs') →
    ∀ there, c.returned (delivered (respond a r).2 (respond a r).1 there) = r

/-- The arguments that fit where the code puts them: a path in `pname`, a handle in an
`inodeid_t`, `cmax` in an `int`, the `insize` characters of `snfs_ping` in the body, and `hello`
where the caller wants it. -/
def Fits : ApiCall → Prop
  | ping _ insize outsize => insize ≤ 1036 ∧ 5 ≤ outsize
  | lookup pathname => pathname.chars.length ≤ 14
  | read fhandle _ _ => fhandle.toNat < 2 ^ 16
  | write fhandle _ _ _ => fhandle.toNat < 2 ^ 16
  | create dir _ => dir.toNat < 2 ^ 16
  | mkdir dir _ => dir.toNat < 2 ^ 16
  | readdir dir cmax => dir.toNat < 2 ^ 16 ∧ cmax.toNat < 2 ^ 31
  | copy .. => True

end ApiCall

theorem inodeid_eq_iff (h : UInt32) :
    ((Args.inodeid h : Nat) : Int) = asInt h.toNat ↔ h.toNat < 2 ^ 16 := by
  have hlt := h.toNat_lt
  unfold Args.inodeid asInt
  split <;> omega

theorem asInt_eq_iff {n : Nat} (hn : n < 2 ^ 32) : asInt n = n ↔ n < 2 ^ 31 := by
  unfold asInt
  split <;> omega

theorem ApiCall.Within.sendable {c : ApiCall} (h : c.Within) (hfits : c.Fits) : c.Sendable := by
  cases c with
  | ping inmsg insize outsize => exact hfits.1
  | lookup pathname => exact length_of_myparse h
  | write fhandle offset count buffer => exact h
  | create dir name => exact Nat.lt_of_le_of_lt h (by omega)
  | mkdir dir name => exact Nat.lt_of_le_of_lt h (by omega)
  | copy srcpath tgtpath => exact ⟨length_of_myparse h.1, length_of_myparse h.2⟩
  | _ => trivial

/-- The handler hands on what the call means, if it fits. -/
theorem handedOn_args_iff {c : ApiCall} (h : c.Within) :
    handedOn c.args = c.handed ↔ (∃ i o n, c = .ping i o n) ∨ c.Fits := by
  cases c with
  | ping inmsg insize outsize => exact ⟨fun _ => .inl ⟨_, _, _, rfl⟩, fun _ => rfl⟩
  | lookup pathname =>
      simp only [handedOn, ApiCall.args, ApiCall.handed, ApiCall.Fits, CStr.take,
        Handed.lookup.injEq, reduceCtorEq, exists_false, false_or]
      exact List.take_eq_self_iff _
  | read fhandle offset count =>
      simp [handedOn, ApiCall.args, ApiCall.handed, ApiCall.Fits, inodeid_eq_iff]
  | write fhandle offset count buffer =>
      have hdata : (List.range count.toNat).map (fun i => if i < count.toNat then buffer i else 0) =
          (List.range count.toNat).map buffer :=
        List.map_congr_left fun i hi => if_pos (List.mem_range.mp hi)
      simp [handedOn, ApiCall.args, ApiCall.handed, ApiCall.Fits, inodeid_eq_iff, hdata]
  | create dir name =>
      have hname : name.chars.take 13 = name.chars := List.take_of_length_le h
      simp [handedOn, ApiCall.args, ApiCall.handed, ApiCall.Fits, inodeid_eq_iff, CStr.take, hname]
  | mkdir dir name =>
      have hname : name.chars.take 13 = name.chars := List.take_of_length_le h
      simp [handedOn, ApiCall.args, ApiCall.handed, ApiCall.Fits, inodeid_eq_iff, CStr.take, hname]
  | readdir dir cmax =>
      simp [handedOn, ApiCall.args, ApiCall.handed, ApiCall.Fits, inodeid_eq_iff,
        asInt_eq_iff cmax.toNat_lt]
  | copy srcpath tgtpath => simp [handedOn, ApiCall.args, ApiCall.handed, ApiCall.Fits]

/-- The results of a call that fits come back. -/
theorem returned_respond {c : ApiCall} (hask : c.AsksAll) {stack : Stack} {fs fs' : Fs}
    {r : Option Results} (hrun : Prog.run Fs.handler (c.args.handler stack) fs = .ok (r, fs'))
    (there : Page 1540) :
    c.returned (delivered (respond c.args r).2 (respond c.args r).1 there) = r := by
  cases r with
  | none => rfl
  | some x =>
      have hgives := (handler_gives stack c.args).run hrun x rfl
      refine (if_neg (fun h => h rfl)).trans (congrArg some ?_)
      exact results_of_agree hask hgives fun i hi => delivered_get hi

/-- A request and its response survive exactly if the arguments fit. -/
theorem survives_iff_fits {c : ApiCall} (h : c.Within) (sn : Int) (stack : Stack) (fs : Fs) :
    c.Survives sn stack fs ↔ c.Fits := by
  constructor
  · rintro ⟨hsend, hargs, hresults⟩
    have hreq := ofReq_received hsend sn
    rw [hreq, Option.map_some, Option.some.injEq, handedOn_args_iff h] at hargs
    rcases hargs with ⟨inmsg, insize, outsize, rfl⟩ | hfits
    · -- all of `hello` comes back
      have hback := hresults .ping _ fs hreq rfl (fun _ => 0)
      have hmsg := ping_msg fun i hi =>
        @delivered_get .ping (some (.ping [104, 101, 108, 108, 111])) (fun _ => 0) i hi
      have hsome := Option.some.inj ((if_neg fun h => h rfl).symm.trans hback)
      rw [ApiCall.results, hmsg, Results.ping.injEq] at hsome
      exact ⟨hsend, List.take_eq_self_iff _ |>.mp hsome⟩
    · exact hfits
  · intro hfits
    have hsend := h.sendable hfits
    have hreq := ofReq_received hsend sn
    refine ⟨hsend, ?_, fun a r fs' ha hrun there => ?_⟩
    · rw [hreq, Option.map_some, (handedOn_args_iff h).mpr (.inr hfits)]
    · obtain rfl := Option.some.inj (hreq.symm.trans ha)
      refine returned_respond ?_ hrun there
      cases c with
      | ping inmsg insize outsize => exact hfits.2
      | _ => trivial

/-- `/abcdefghijklm/x` -/
def longPath : CStr :=
  ⟨[47, 97, 98, 99, 100, 101, 102, 103, 104, 105, 106, 107, 108, 109, 47, 120], by decide⟩

/-- `snfs_lookup` sends the first 14 characters of the path. -/
theorem longPath_is_cut :
    (ApiCall.lookup longPath).Within ∧
      (Args.ofReq (received (ApiCall.lookup longPath).reqSize
        ((ApiCall.lookup longPath).request 0))).map handedOn =
          some (.lookup (longPath.chars.take 14)) ∧
      ¬ ∃ stack fs, (ApiCall.lookup longPath).Survives 0 stack fs := by
  have hcut : (Args.ofReq (received (ApiCall.lookup longPath).reqSize
      ((ApiCall.lookup longPath).request 0))).map handedOn =
        some (.lookup (longPath.chars.take 14)) := by
    decide +kernel
  refine ⟨?_, hcut, ?_⟩
  · change myparse longPath = true
    decide
  · rintro ⟨stack, fs, -, harguments, -⟩
    exact absurd (hcut.symm.trans harguments) (by decide)

/-- A read of an open file survives. -/
theorem survives_iff_fits_read :
    ∃ fs, Fs.fsNew 12 (fun i => 7 * i) = .ok fs ∧
      (ApiCall.read 5 512 1024).Survives 3 ⟨fun _ => 0, 0⟩ fs := by
  have hfacts : (Fs.fsNew 12 (fun i => 7 * i)).isOk = true := by decide +kernel
  cases hfs : Fs.fsNew 12 (fun i => 7 * i) with
  | error e =>
      rw [hfs] at hfacts
      cases hfacts
  | ok fs =>
      have hwithin : (ApiCall.read 5 512 1024).Within := by
        change (1024 : UInt32).toNat ≤ 1024
        decide
      refine ⟨fs, rfl, (survives_iff_fits hwithin 3 ⟨fun _ => 0, 0⟩ fs).mpr ?_⟩
      change (5 : UInt32).toNat < 2 ^ 16
      decide

end Sthreads.Client
