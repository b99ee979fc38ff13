/-
What `my_open` and `my_mkdir` take for the last component of a path, and for the path of
the others.

The tokens are copied one over the other and none of them is ended by a zero, so what is
left is the last token and behind it what longer ones have left.  If an earlier component is
longer than the last, the name is longer than the last component, and the path of the
directory is cut too short by as much.
-/
import Mathlib.Data.List.Induction
import Sthreads.Client.Myfs
import Sthreads.Snfs.Contents
import Sthreads.Snfs.Plain

namespace Sthreads.Client

open Prog Snfs

/-! ### Paths -/

/-- The absolute path of these components. -/
def absPath (cs : List (List UInt8)) : List UInt8 := cs.flatMap (slash :: ·)

/-- A path as the client takes it. -/
structure IsPath (path : CStr) (cs : List (List UInt8)) : Prop where
  nonempty : cs ≠ []
  components : ∀ c ∈ cs, c ≠ [] ∧ c.length ≤ 13 ∧ slash ∉ c ∧ 32 ∉ c
  chars : path.chars = absPath cs
  length : path.chars.length < 200

section

variable {c s : List UInt8} {cs : List (List UInt8)}

theorem absPath_cons : absPath (c :: cs) = slash :: (c ++ absPath cs) := by
  rw [absPath, List.flatMap_cons]
  rfl

theorem absPath_concat : absPath (cs ++ [c]) = absPath cs ++ slash :: c := by
  rw [absPath, List.flatMap_append, List.flatMap_cons, List.flatMap_nil, List.append_nil]
  rfl

theorem splitPath_append (h : slash ∉ c) :
    splitPath (c ++ s) = (c ++ (splitPath s).1, (splitPath s).2) := by
  induction c with
  | nil => rfl
  | cons a c ih =>
      simp only [List.mem_cons, not_or] at h
      rw [List.cons_append, splitPath, ih h.2]
      dsimp only
      rw [if_neg fun ha => h.1 ha.symm]
      rfl

theorem tokens_eq_snd : tokens (absPath cs) = (splitPath (absPath cs)).2 := by
  cases cs with
  | nil => rfl
  | cons c cs =>
      rw [absPath_cons]
      rfl

theorem splitPath_absPath : splitPath (absPath cs) = ([], tokens (absPath cs)) := by
  refine Prod.ext ?_ tokens_eq_snd.symm
  cases cs with
  | nil => rfl
  | cons c cs =>
      rw [absPath_cons]
      rfl

/-- The tokens of a path are its components. -/
theorem tokens_absPath (h : ∀ c ∈ cs, c ≠ [] ∧ slash ∉ c) : tokens (absPath cs) = cs := by
  induction cs with
  | nil => rfl
  | cons c cs ih =>
      obtain ⟨hne, hslash⟩ := h c List.mem_cons_self
      rw [absPath_cons, tokens_slash, tokens, splitPath_append hslash, splitPath_absPath,
        ih fun c' hc' => h c' (List.mem_cons_of_mem _ hc')]
      simp [hne]

/-! ### A path is parsed -/

theorem hasDoubleSlash_cons {a : UInt8} (h : a ≠ slash) :
    hasDoubleSlash (a :: s) = hasDoubleSlash s := by
  cases s with
  | nil => rfl
  | cons b s =>
      rw [hasDoubleSlash]
      simp [h]

theorem hasDoubleSlash_append (h : slash ∉ c) :
    hasDoubleSlash (c ++ s) = hasDoubleSlash s := by
  induction c with
  | nil => rfl
  | cons a c ih =>
      simp only [List.mem_cons, not_or] at h
      rw [List.cons_append, hasDoubleSlash_cons fun ha => h.1 ha.symm, ih h.2]

/-- The slashes of a path are not next to each other. -/
theorem hasDoubleSlash_absPath_append (h : ∀ c ∈ cs, c ≠ [] ∧ slash ∉ c) :
    hasDoubleSlash (absPath cs ++ s) = hasDoubleSlash s := by
  induction cs with
  | nil => rfl
  | cons c cs ih =>
      obtain ⟨hne, hslash⟩ := h c List.mem_cons_self
      have hrest : hasDoubleSlash (c ++ (absPath cs ++ s)) = hasDoubleSlash s := by
        rw [hasDoubleSlash_append hslash]
        exact ih fun c' hc' => h c' (List.mem_cons_of_mem _ hc')
      cases c with
      | nil => exact absurd rfl hne
      | cons a c =>
          simp only [List.mem_cons, not_or] at hslash
          have ha : (a == slash) = false := by simpa using fun ha : a = slash => hslash.1 ha.symm
          rw [List.cons_append] at hrest
          rw [absPath_cons, List.cons_append, List.append_assoc, List.cons_append, hasDoubleSlash,
            hrest, ha]
          simp

theorem hasDoubleSlash_absPath (h : ∀ c ∈ cs, c ≠ [] ∧ slash ∉ c) :
    hasDoubleSlash (absPath cs) = false := by
  rw [← List.append_nil (absPath cs), hasDoubleSlash_absPath_append h]
  rfl

/-- The loop of `myparse` looks at all tokens. -/
theorem shortTokens_eq (left : Nat) (h : (tokens s).length ≤ left) :
    shortTokens left (strtok s) = (tokens s).all (·.length ≤ 13) := by
  induction left generalizing s with
  | zero =>
      cases hst : strtok s with
      | mk token rest =>
          cases token with
          | none =>
              rw [tokens_of_strtok_none (by rw [hst])]
              rfl
          | some w =>
              rw [tokens_of_strtok_some (w := w) (by rw [hst])] at h
              simp at h
  | succ left ih =>
      cases hst : strtok s with
      | mk token rest =>
          cases token with
          | none =>
              rw [tokens_of_strtok_none (by rw [hst])]
              rfl
          | some w =>
              have hw := tokens_of_strtok_some (s := s) (w := w) (by rw [hst])
              rw [hst] at hw
              rw [hw, List.length_cons] at h
              rw [hw, shortTokens, ih (by simpa using h), List.all_cons]

theorem IsPath.myparse {path : CStr} (h : IsPath path cs) : myparse path = true := by
  have hslash : ∀ c ∈ cs, c ≠ [] ∧ slash ∉ c := fun c hc =>
    ⟨(h.components c hc).1, (h.components c hc).2.2.1⟩
  have htokens := tokens_absPath hslash
  have hlen := length_tokens_le path.chars
  have hshort : shortTokens path.chars.length (strtok path.chars) = true := by
    rw [shortTokens_eq _ hlen, h.chars, htokens, List.all_eq_true]
    exact fun c hc => decide_eq_true (h.components c hc).2.1
  have hspace : path.chars.contains 32 = false := by
    rw [h.chars, absPath]
    simp only [List.contains_eq_mem, decide_eq_false_iff_not, List.mem_flatMap, List.mem_cons,
      not_exists, not_and, not_or]
    exact fun c hc => ⟨by decide, (h.components c hc).2.2.2⟩
  have hdouble : hasDoubleSlash path.chars = false := by
    rw [h.chars]
    exact hasDoubleSlash_absPath hslash
  have hhead : path.chars.head? = some slash ∧ 1 ≤ path.chars.length := by
    rw [h.chars]
    cases hcs : cs with
    | nil => exact absurd hcs h.nonempty
    | cons c cs =>
        rw [absPath_cons]
        exact ⟨rfl, by simp⟩
  have hlt := h.length
  simp only [Client.myparse, hshort, hspace, hdouble, hhead.1, hhead.2, hlt]
  rfl

end

/-! ### The name that is left -/

/-- What copying strings one over the other leaves. -/
def overlay (cs : List (List UInt8)) : List UInt8 :=
  cs.foldl (fun left c => c ++ left.drop c.length) []

section

variable {c : List UInt8} {cs : List (List UInt8)}

theorem overlay_concat : overlay (cs ++ [c]) = c ++ (overlay cs).drop c.length := by
  rw [overlay, List.foldl_append]
  rfl

theorem length_overlay_concat :
    (overlay (cs ++ [c])).length = max (overlay cs).length c.length := by
  rw [overlay_concat, List.length_append, List.length_drop]
  omega

/-- What is left is as long as the longest. -/
theorem length_overlay_le {n : Nat} : (overlay cs).length ≤ n ↔ ∀ c ∈ cs, c.length ≤ n := by
  induction cs using List.reverseRecOn with
  | nil => simp [overlay]
  | append_singleton cs c ih =>
      rw [length_overlay_concat, Nat.max_le, ih]
      simp only [List.mem_append, List.mem_singleton]
      exact ⟨fun h c' hc' => hc'.elim (h.1 c') fun hc' => hc' ▸ h.2,
        fun h => ⟨fun c' hc' => h c' (Or.inl hc'), h c (Or.inr rfl)⟩⟩

theorem mem_overlay {a : UInt8} (h : a ∈ overlay cs) : ∃ c ∈ cs, a ∈ c := by
  induction cs using List.reverseRecOn with
  | nil => exact absurd h List.not_mem_nil
  | append_singleton cs c ih =>
      rw [overlay_concat, List.mem_append] at h
      rcases h with h | h
      · exact ⟨c, List.mem_append_right _ List.mem_cons_self, h⟩
      · obtain ⟨c', hc', ha⟩ := ih (List.mem_of_mem_drop h)
        exact ⟨c', List.mem_append_left _ hc', ha⟩

/-- If the last string is the longest, it is what is left. -/
theorem overlay_eq (h : ∀ c' ∈ cs, c'.length ≤ c.length) : overlay (cs ++ [c]) = c := by
  rw [overlay_concat, List.drop_eq_nil_of_le (length_overlay_le.mpr h), List.append_nil]

/-- The loop of `my_open` and `my_mkdir` takes all tokens. -/
theorem lastToken_eq (left : Nat) {s : List UInt8} (h : (tokens s).length ≤ left) (i : Nat)
    (newfilename : Page 14) :
    lastToken left (strtok s) i newfilename = (i + (tokens s).length,
      (tokens s).foldl (fun page c => page.copyTo 0 c.length fun k => c.getD k 0) newfilename) := by
  induction left generalizing s i newfilename with
  | zero =>
      have hnil := List.length_eq_zero_iff.mp (Nat.le_zero.mp h)
      rw [hnil, lastToken]
      rfl
  | succ left ih =>
      cases hst : strtok s with
      | mk token rest =>
          cases token with
          | none =>
              rw [tokens_of_strtok_none (by rw [hst])]
              rfl
          | some w =>
              have hw := tokens_of_strtok_some (s := s) (w := w) (by rw [hst])
              rw [hst] at hw
              rw [hw, List.length_cons] at h
              rw [hw, lastToken, ih (by simpa using h), List.length_cons, List.foldl_cons,
                Nat.add_assoc, Nat.add_comm 1]

theorem getD_append_drop (left : List UInt8) (k : Nat) :
    (c ++ left.drop c.length).getD k 0 = if k < c.length then c.getD k 0 else left.getD k 0 := by
  simp only [List.getD_eq_getElem?_getD]
  by_cases hk : k < c.length
  · rw [if_pos hk, List.getElem?_append_left hk]
  · rw [if_neg hk, List.getElem?_append_right (by omega), List.getElem?_drop]
    congr 2
    omega

/-- `newfilename` after tokens have been copied to it -/
theorem get_copied (hshort : ∀ c ∈ cs, c.length ≤ 13) {page : Page 14} {left : List UInt8}
    (h : ∀ k, page.get k = left.getD k 0) (k : Nat) :
    (cs.foldl (fun page c => page.copyTo 0 c.length fun k => c.getD k 0) page).get k =
      (cs.foldl (fun left c => c ++ left.drop c.length) left).getD k 0 := by
  induction cs generalizing page left with
  | nil => exact h k
  | cons c cs ih =>
      rw [List.foldl_cons, List.foldl_cons]
      refine ih (fun c' hc' => hshort c' (List.mem_cons_of_mem _ hc')) fun k => ?_
      have hc := hshort c List.mem_cons_self
      rw [Page.get_copyTo, getD_append_drop, h k]
      by_cases hk : k < c.length
      · rw [if_pos hk, if_pos (by omega), Nat.sub_zero]
      · rw [if_neg hk, if_neg (by omega)]

/-- A string that is there, and zeros behind it. -/
theorem strAt_of_get {n : Nat} {page : Page n} {s : List UInt8} (hs : ∀ a ∈ s, a ≠ 0)
    {off len : Nat} (hlen : s.length ≤ len) (h : ∀ k, page.get (off + k) = s.getD k 0) :
    strAt page off len = s := by
  refine strAt_of_strEq ?_ hs hlen
  clear hs hlen
  induction s generalizing off with
  | nil => simpa [strEq] using h 0
  | cons a s ih =>
      refine strEq_cons.mpr ⟨by simpa using h 0, ih fun k => ?_⟩
      rw [Nat.add_assoc, Nat.add_comm 1 k]
      simpa using h (k + 1)

end

/-! ### What is taken for the name and for the directory -/

section

variable {path : CStr} {cs : List (List UInt8)}

theorem IsPath.splitName_fst (h : IsPath path cs) :
    lastToken path.chars.length (strtok path.chars) 0 (fun _ => 0) = (cs.length,
      cs.foldl (fun (page : Page 14) c => page.copyTo 0 c.length fun k => c.getD k 0)
        fun _ => 0) := by
  have htokens : tokens path.chars = cs := by
    rw [h.chars]
    exact tokens_absPath fun c hc => ⟨(h.components c hc).1, (h.components c hc).2.2.1⟩
  rw [lastToken_eq _ (length_tokens_le path.chars), htokens, Nat.zero_add]

theorem IsPath.short (h : IsPath path cs) : ∀ c ∈ cs, c.length ≤ 13 :=
  fun c hc => (h.components c hc).2.1

theorem IsPath.noNul (h : IsPath path cs) : ∀ c ∈ cs, ∀ a ∈ c, a ≠ 0 := by
  intro c hc a ha
  refine path.noNul a ?_
  rw [h.chars, absPath, List.mem_flatMap]
  exact ⟨c, hc, List.mem_cons_of_mem _ ha⟩

/-- A path of one component is taken for the name of an object in the root. -/
theorem IsPath.splitName_one {c : List UInt8} (h : IsPath path [c]) :
    (splitName path).1 = 1 ∧ (splitName path).2.1.chars = c := by
  have hname : path.chars = slash :: c := by
    rw [h.chars, absPath_cons, absPath, List.flatMap_nil, List.append_nil]
  have hlen := h.short c List.mem_cons_self
  rw [splitName, h.splitName_fst]
  dsimp only [List.length_singleton, List.foldl_cons, List.foldl_nil]
  rw [if_neg (by omega)]
  refine ⟨rfl, strAt_of_get (h.noNul c List.mem_cons_self) (by omega) fun k => ?_⟩
  rw [hname, List.length_cons, Nat.add_sub_cancel, Nat.zero_add, Page.get_copyTo,
    Page.get_copyTo]
  have hbeyond : ¬ k < c.length → c.getD k 0 = 0 := fun hk => by
    rw [List.getD_eq_getElem?_getD, List.getElem?_eq_none (by omega)]
    rfl
  by_cases hk : k < c.length
  · rw [if_pos (by omega), Nat.sub_zero, Nat.add_comm 1 k]
    rfl
  · rw [if_neg (by omega), if_neg (by omega), hbeyond hk]
    unfold Page.get
    split <;> rfl

/-- Of more components, the last over the others is taken for the name, and for the directory what
is before as many characters. -/
theorem IsPath.splitName_many (h : IsPath path cs) (hmany : 1 < cs.length) :
    (splitName path).1 = cs.length ∧ (splitName path).2.1.chars = overlay cs ∧
      (splitName path).2.2.chars =
        path.chars.take (path.chars.length - ((overlay cs).length + 1)) := by
  have hname : (Page.cstr (cs.foldl (fun (page : Page 14) c =>
      page.copyTo 0 c.length fun k => c.getD k 0) fun _ => 0) 0).chars = overlay cs := by
    refine strAt_of_get (fun a ha => ?_) ?_ fun k => ?_
    · obtain ⟨c, hc, ha⟩ := mem_overlay ha
      exact h.noNul c hc a ha
    · have := length_overlay_le.mpr h.short
      omega
    · have hzero : ∀ k, Page.get (fun _ => 0 : Page 14) k = ([] : List UInt8).getD k 0 := fun k => by
        unfold Page.get
        split <;> rfl
      rw [Nat.zero_add, get_copied h.short hzero]
      rfl
  rw [splitName, h.splitName_fst]
  dsimp only
  rw [if_pos hmany]
  dsimp only
  rw [hname]
  exact ⟨rfl, rfl, rfl⟩

end

/-! ### The calls that are made -/

/-- `snfs_lookup` has found the path. -/
def found (r : Option Results × UInt32) : Bool :=
  match r.1 with
  | some (.lookup ..) => true
  | _ => false

/-- What `snfs_lookup` has written to `*file` -/
def handleOf (r : Option Results × UInt32) : UInt32 :=
  match r.1 with
  | some (.lookup file _) => file
  | _ => r.2

/-- What `snfs_lookup` has written to `*fsize` -/
def fsizeOf (r : Option Results × UInt32) : Option UInt32 :=
  match r.1 with
  | some (.lookup _ fsize) => some fsize
  | _ => none

section

variable {σ α : Type} {h : Prog.Handler ApiCall (fun _ => Option Results × UInt32) Halt σ}
  {s s₁ : σ} {path : CStr} {r : Option Results × UInt32}

/-- A program that looks a path up goes on with what was found. -/
theorem snfsLookup_bind (path : CStr) (g : Bool × UInt32 × Option UInt32 → ApiM α) :
    snfsLookup path >>= g = Prog.perform (ApiCall.lookup path) >>= fun r =>
      g (found r, handleOf r, fsizeOf r) := by
  refine congrArg (Prog.op _) (funext fun r => ?_)
  obtain ⟨res, file⟩ := r
  cases res with
  | none => rfl
  | some res => cases res <;> rfl

/-- A program that makes a last call. -/
theorem ops_last {o : ApiCall} {f : Option Results × UInt32 → ApiM α}
    (hf : ∀ r s, ops h (f r) s = []) : ops h (Prog.perform o >>= f) s = [o] := by
  cases hstep : h o s with
  | error e => exact ops_op_error hstep
  | ok x => rw [ops_op_ok hstep, hf]

theorem snfsCreate_bind (dir : UInt32) (name : CStr) (g : Option UInt32 → ApiM α) :
    snfsCreate dir name >>= g = Prog.perform (ApiCall.create dir name) >>= fun r =>
      g (match r.1 with | some (.create file) => some file | _ => none) := by
  refine congrArg (Prog.op _) (funext fun r => ?_)
  obtain ⟨res, file⟩ := r
  cases res with
  | none => rfl
  | some res => cases res <;> rfl

theorem snfsMkdir_bind (dir : UInt32) (name : CStr) (g : Option UInt32 → ApiM α) :
    snfsMkdir dir name >>= g = Prog.perform (ApiCall.mkdir dir name) >>= fun r =>
      g (match r.1 with | some (.mkdir file) => some file | _ => none) := by
  refine congrArg (Prog.op _) (funext fun r => ?_)
  obtain ⟨res, file⟩ := r
  cases res with
  | none => rfl
  | some res => cases res <;> rfl

/-- The calls of `my_open` when the path is not found and the file is to be created -/
theorem ops_myOpen (hparse : Client.myparse path = true) {lib : Lib} (hlib : lib.openFiles < 10)
    (hmiss : h (.lookup path) s = .ok (r, s₁)) (hnot : found r = false) :
    ops h (myOpen path 1 lib) s = .lookup path :: .lookup (splitName path).2.2 ::
      match h (.lookup (splitName path).2.2) s₁ with
      | .ok (r, _) => [.create (if (splitName path).1 = 1 then 1 else handleOf r)
          (splitName path).2.1]
      | .error _ => [] := by
  rw [myOpen, if_neg (by omega), if_neg (by simp [hparse])]
  dsimp only
  rw [snfsLookup_bind, ops_op_ok hmiss, hnot]
  congr 1
  dsimp only
  rw [if_neg (by decide), snfsLookup_bind]
  cases hdir : h (.lookup (splitName path).2.2) s₁ with
  | error e => rw [ops_op_error hdir]
  | ok x =>
      rw [ops_op_ok hdir, if_pos rfl, snfsCreate_bind, ops_last]
      rintro ⟨res, file⟩ s
      dsimp only
      split <;> rfl

theorem ops_mkdirIn (dir : UInt32) (name : CStr) : ops h (mkdirIn dir name) s = [.mkdir dir name] := by
  rw [mkdirIn, snfsMkdir_bind]
  refine ops_last fun r s => ?_
  split <;> rfl

/-- The calls of `my_mkdir` when the path is not found -/
theorem ops_myMkdir (hparse : Client.myparse path = true)
    (hmiss : h (.lookup path) s = .ok (r, s₁)) (hnot : found r = false) :
    ops h (myMkdir path) s = .lookup path ::
      if (splitName path).1 = 1 then [.mkdir 1 (splitName path).2.1]
      else .lookup (splitName path).2.2 ::
        match h (.lookup (splitName path).2.2) s₁ with
        | .ok (r, _) => if found r then [.mkdir (handleOf r) (splitName path).2.1] else []
        | .error _ => [] := by
  rw [myMkdir, if_neg (by simp [hparse]), snfsLookup_bind, ops_op_ok hmiss, hnot]
  congr 1
  dsimp only
  rw [if_neg (by decide)]
  by_cases hone : (splitName path).1 = 1
  · rw [if_pos hone, if_pos hone, ops_mkdirIn]
  · rw [if_neg hone, if_neg hone, snfsLookup_bind]
    cases hdir : h (.lookup (splitName path).2.2) s₁ with
    | error e => rw [ops_op_error hdir]
    | ok x =>
        obtain ⟨r', s₂⟩ := x
        rw [ops_op_ok hdir]
        dsimp only
        cases found r' with
        | true => rw [if_pos rfl, if_neg (by decide), ops_mkdirIn]
        | false => rfl

/-- After the path was not found, in the state `s₁`, the program asks for its last component to be
created in the directory that the others lead to: the root, if there are none, and else the one
that is then looked up. -/
structure AsksFor (h : Prog.Handler ApiCall (fun _ => Option Results × UInt32) Halt σ)
    (make : UInt32 → CStr → ApiCall) (cs : List (List UInt8)) (p : ApiM α) (s s₁ : σ) : Prop where
  name : ∀ dir file, make dir file ∈ ops h p s → file.chars = cs.getLastD []
  root : cs.length = 1 → ∀ dir file, make dir file ∈ ops h p s → dir = 1
  parent : 1 < cs.length → ∀ path, .lookup path ∈ (ops h p s).tail →
    path.chars = absPath cs.dropLast
  handle : 1 < cs.length → ∀ dir file, make dir file ∈ ops h p s → ∃ path r s₂,
    path.chars = absPath cs.dropLast ∧ h (.lookup path) s₁ = .ok (r, s₂) ∧ dir = handleOf r
  asksRoot : cs.length = 1 → (∀ path, ∃ x, h (.lookup path) s₁ = .ok x) →
    ∃ dir file, make dir file ∈ ops h p s
  asks : 1 < cs.length → ∀ path r s₂, path.chars = absPath cs.dropLast →
    h (.lookup path) s₁ = .ok (r, s₂) → found r = true → ∃ dir file, make dir file ∈ ops h p s

section

variable {make : UInt32 → CStr → ApiCall} {cs init : List (List UInt8)} {c : List UInt8}
  {p : ApiM α} {file parent : CStr}

/-- The calls are told apart, and what they are given. -/
structure Makes (make : UInt32 → CStr → ApiCall) : Prop where
  ne : ∀ dir file path, make dir file ≠ .lookup path
  inj : ∀ dir file dir' file', make dir file = make dir' file' → dir = dir' ∧ file = file'

theorem makes_create : Makes .create where
  ne _ _ _ h := by cases h
  inj _ _ _ _ h := ApiCall.create.inj h

theorem makes_mkdir : Makes .mkdir where
  ne _ _ _ h := by cases h
  inj _ _ _ _ h := ApiCall.mkdir.inj h

/-- The calls made for an object in the root -/
theorem asksFor_one (hmake : Makes make) (hfile : file.chars = c) {calls : List ApiCall}
    (hops : ops h p s = .lookup path :: calls)
    (hcalls : ∀ o ∈ calls, (∃ path, o = .lookup path) ∨ o = make 1 file)
    (hasks : (∀ path, ∃ x, h (.lookup path) s₁ = .ok x) → make 1 file ∈ calls) :
    AsksFor h make [c] p s s₁ := by
  have hmem : ∀ dir file', make dir file' ∈ ops h p s → dir = 1 ∧ file' = file := by
    intro dir file' hm
    rw [hops] at hm
    rcases List.mem_cons.mp hm with hm | hm
    · exact absurd hm (hmake.ne _ _ _)
    · rcases hcalls _ hm with ⟨path', hm⟩ | hm
      · exact absurd hm (hmake.ne _ _ _)
      · exact hmake.inj _ _ _ _ hm
  have hone : ¬ 1 < [c].length := by simp
  refine ⟨fun dir file' hm => ?_, fun _ dir file' hm => (hmem dir file' hm).1,
    fun hlt => absurd hlt hone, fun hlt => absurd hlt hone, fun _ hret => ?_,
    fun hlt => absurd hlt hone⟩
  · rw [(hmem dir file' hm).2, hfile]
    rfl
  · rw [hops]
    exact ⟨1, file, List.mem_cons_of_mem _ (hasks hret)⟩

/-- The calls made for an object in another directory -/
theorem asksFor_many (hmake : Makes make) (hinit : init ≠ []) (hfile : file.chars = c)
    (hparent : parent.chars = absPath init) {calls : List ApiCall}
    (hops : ops h p s = .lookup path :: .lookup parent :: calls)
    (hcalls : ∀ o ∈ calls, ∃ r s₂, h (.lookup parent) s₁ = .ok (r, s₂) ∧
      o = make (handleOf r) file)
    (hasks : ∀ r s₂, h (.lookup parent) s₁ = .ok (r, s₂) → found r = true →
      make (handleOf r) file ∈ calls) :
    AsksFor h make (init ++ [c]) p s s₁ := by
  have hmem : ∀ dir file', make dir file' ∈ ops h p s → file' = file ∧
      ∃ r s₂, h (.lookup parent) s₁ = .ok (r, s₂) ∧ dir = handleOf r := by
    intro dir file' hm
    rw [hops] at hm
    rcases List.mem_cons.mp hm with hm | hm
    · exact absurd hm (hmake.ne _ _ _)
    · rcases List.mem_cons.mp hm with hm | hm
      · exact absurd hm (hmake.ne _ _ _)
      · obtain ⟨r, s₂, hr, hm⟩ := hcalls _ hm
        obtain ⟨hdir, hfile'⟩ := hmake.inj _ _ _ _ hm
        exact ⟨hfile', r, s₂, hr, hdir⟩
  have hlast : (init ++ [c]).getLastD [] = c := by simp
  have hdrop : (init ++ [c]).dropLast = init := List.dropLast_concat
  have hone : ¬ (init ++ [c]).length = 1 := by simp [hinit]
  refine ⟨fun dir file' hm => ?_, fun h1 => absurd h1 hone, fun _ path' hm => ?_,
    fun _ dir file' hm => ?_, fun h1 => absurd h1 hone, fun _ path' r s₂ hpath' hr hfound => ?_⟩
  · rw [(hmem dir file' hm).1, hfile, hlast]
  · rw [hdrop, ← hparent]
    rw [hops, List.tail_cons] at hm
    rcases List.mem_cons.mp hm with hm | hm
    · rw [ApiCall.lookup.inj hm]
    · obtain ⟨r, s₂, -, hm⟩ := hcalls _ hm
      exact absurd hm.symm (hmake.ne _ _ _)
  · obtain ⟨-, r, s₂, hr, hdir⟩ := hmem dir file' hm
    rw [hdrop]
    exact ⟨parent, r, s₂, hparent, hr, hdir⟩
  · have hsame : path' = parent := by
      cases path'
      cases parent
      congr 1
      rw [hdrop] at hpath'
      exact hpath'.trans hparent.symm
    rw [hops]
    exact ⟨_, file, List.mem_cons_of_mem _ (List.mem_cons_of_mem _ (hasks r s₂ (hsame ▸ hr) hfound))⟩

end

end

/-- The directory's path is cut where it should be exactly if no component is longer than the
last, and then the name is the last. -/
theorem splitName_iff {path : CStr} {init : List (List UInt8)} {c : List UInt8}
    (h : IsPath path (init ++ [c])) (hinit : init ≠ []) :
    ((splitName path).2.2.chars = absPath init ↔ ∀ c' ∈ init ++ [c], c'.length ≤ c.length) ∧
      ((∀ c' ∈ init ++ [c], c'.length ≤ c.length) → (splitName path).2.1.chars = c) := by
  have hpos := List.length_pos_iff.mpr hinit
  obtain ⟨-, hname, hdir⟩ := h.splitName_many (by simpa using hpos)
  have hchars := h.chars
  rw [absPath_concat] at hchars
  have hover : (overlay (init ++ [c])).length = max (overlay init).length c.length :=
    length_overlay_concat
  have hle : (∀ c' ∈ init ++ [c], c'.length ≤ c.length) ↔
      (overlay (init ++ [c])).length = c.length := by
    rw [← length_overlay_le]
    omega
  refine ⟨?_, fun hcond => ?_⟩
  · rw [hle, hdir]
    constructor
    · intro hcut
      have hlen := congrArg List.length hcut
      rw [List.length_take, hchars, List.length_append, List.length_cons] at hlen
      have hfull : 0 < (absPath init).length := by
        cases hi : init with
        | nil => exact absurd hi hinit
        | cons a as =>
            rw [absPath_cons]
            exact Nat.succ_pos _
      omega
    · intro hlen
      rw [hlen, hchars, List.length_append, List.length_cons, Nat.add_sub_cancel]
      exact List.take_left
  · rw [hname]
    exact overlay_eq fun c' hc' => hcond c' (List.mem_append_left _ hc')

/-- `my_open` and `my_mkdir` ask for the last component of a path to be created in the directory
that the others lead to, exactly if none of the others is longer. -/
theorem asks_for_last_iff {σ : Type}
    {h : Prog.Handler ApiCall (fun _ => Option Results × UInt32) Halt σ} {s s₁ : σ} {path : CStr}
    {cs : List (List UInt8)} (hpath : IsPath path cs) {r : Option Results × UInt32}
    (hmiss : h (.lookup path) s = .ok (r, s₁)) (hnot : found r = false) {lib : Lib}
    (hlib : lib.openFiles < 10) :
    (AsksFor h .create cs (myOpen path 1 lib) s s₁ ↔
      ∀ c ∈ cs, c.length ≤ (cs.getLastD []).length) ∧
    (AsksFor h .mkdir cs (myMkdir path) s s₁ ↔
      ∀ c ∈ cs, c.length ≤ (cs.getLastD []).length) := by
  have hopen := ops_myOpen hpath.myparse hlib hmiss hnot
  have hmkdir := ops_myMkdir hpath.myparse hmiss hnot
  rcases List.eq_nil_or_concat cs with hnil | ⟨init, c, hcs⟩
  · exact absurd hnil hpath.nonempty
  rw [List.concat_eq_append] at hcs
  subst hcs
  have hlast : (init ++ [c]).getLastD [] = c := by simp
  rw [hlast]
  by_cases hinit : init = []
  · -- one component, in the root
    subst hinit
    obtain ⟨hone, hname⟩ := hpath.splitName_one
    have hcond : ∀ c' ∈ [] ++ [c], c'.length ≤ c.length := fun c' hc' => by
      rw [List.mem_singleton.mp hc']
    rw [if_pos hone] at hmkdir
    refine ⟨iff_of_true ?_ hcond, iff_of_true ?_ hcond⟩
    · refine asksFor_one makes_create hname hopen (fun o ho => ?_) fun hret => ?_
      · rcases List.mem_cons.mp ho with rfl | ho
        · exact Or.inl ⟨_, rfl⟩
        · split at ho
          · rw [if_pos hone] at ho
            exact Or.inr (List.mem_singleton.mp ho)
          · exact absurd ho List.not_mem_nil
      · obtain ⟨x, hx⟩ := hret (splitName path).2.2
        rw [hx, hone]
        exact List.mem_cons_of_mem _ List.mem_cons_self
    · exact asksFor_one makes_mkdir hname hmkdir (fun o ho => Or.inr (List.mem_singleton.mp ho))
        fun _ => List.mem_cons_self
  · have hmany : 1 < (init ++ [c]).length := by
      have := List.length_pos_iff.mpr hinit
      simpa using this
    obtain ⟨hi, -, -⟩ := hpath.splitName_many hmany
    obtain ⟨hcut, hname⟩ := splitName_iff hpath hinit
    have hdrop : (init ++ [c]).dropLast = init := List.dropLast_concat
    have hone : ¬ (splitName path).1 = 1 := by omega
    rw [if_neg hone] at hmkdir
    refine ⟨⟨fun hasks => ?_, fun hcond => ?_⟩, ⟨fun hasks => ?_, fun hcond => ?_⟩⟩
    · have hparent := hasks.parent hmany (splitName path).2.2
        (by rw [hopen]; exact List.mem_cons_self)
      rw [hdrop] at hparent
      exact hcut.mp hparent
    · refine asksFor_many makes_create hinit (hname hcond) (hcut.mpr hcond) hopen (fun o ho => ?_)
        fun r s₂ hr _ => ?_
      · split at ho
        · rename_i r s₂ hr
          rw [if_neg hone] at ho
          exact ⟨r, s₂, hr, List.mem_singleton.mp ho⟩
        · exact absurd ho List.not_mem_nil
      · rw [hr]
        dsimp only
        rw [if_neg hone]
        exact List.mem_cons_self
    · have hparent := hasks.parent hmany (splitName path).2.2
        (by rw [hmkdir]; exact List.mem_cons_self)
      rw [hdrop] at hparent
      exact hcut.mp hparent
    · refine asksFor_many makes_mkdir hinit (hname hcond) (hcut.mpr hcond) hmkdir (fun o ho => ?_)
        fun r s₂ hr hfound => ?_
      · split at ho
        · rename_i r s₂ hr
          split at ho
          · exact ⟨r, s₂, hr, List.mem_singleton.mp ho⟩
          · exact absurd ho List.not_mem_nil
        · exact absurd ho List.not_mem_nil
      · rw [hr]
        dsimp only
        rw [if_pos hfound]
        exact List.mem_cons_self

/-- `/a/bc`, where there is a directory `/a` -/
theorem asks_for_last_iff_longer :
    ∃ fs s₁ r, Fs.session 12 (fun i => 7 * i) (fun _ _ => 0) [.mkdir 1 ⟨[97], by decide⟩] = .ok fs ∧
      Server.rpc (.lookup ⟨[47, 97, 47, 98, 99], by decide⟩) (.start fs) = .ok (r, s₁) ∧
      found r = false ∧
      AsksFor Server.rpc .create [[97], [98, 99]]
        (myOpen ⟨[47, 97, 47, 98, 99], by decide⟩ 1 ⟨[], 0⟩) (.start fs) s₁ ∧
      AsksFor Server.rpc .mkdir [[97], [98, 99]]
        (myMkdir ⟨[47, 97, 47, 98, 99], by decide⟩) (.start fs) s₁ := by
  have hfacts : (Fs.session 12 (fun i => 7 * i) (fun _ _ => 0) [.mkdir 1 ⟨[97], by decide⟩]).map
      (fun fs => (Server.rpc (.lookup ⟨[47, 97, 47, 98, 99], by decide⟩) (.start fs)).map
        fun x => found x.1) = .ok (.ok false) := by
    decide +kernel
  cases hs : Fs.session 12 (fun i => 7 * i) (fun _ _ => 0) [.mkdir 1 ⟨[97], by decide⟩] with
  | error e =>
      rw [hs] at hfacts
      cases hfacts
  | ok fs =>
      rw [hs] at hfacts
      have hval := Except.ok.inj hfacts
      dsimp only at hval
      cases hmiss : Server.rpc (.lookup ⟨[47, 97, 47, 98, 99], by decide⟩) (.start fs) with
      | error e =>
          rw [hmiss] at hval
          cases hval
      | ok x =>
          rw [hmiss] at hval
          have hnot : found x.1 = false := Except.ok.inj hval
          have hpath : IsPath ⟨[47, 97, 47, 98, 99], by decide⟩ [[97], [98, 99]] :=
            ⟨by decide, by decide, rfl, by decide⟩
          have hlib : (⟨[], 0⟩ : Lib).openFiles < 10 := by decide
          obtain ⟨hopen, hmkdir⟩ := asks_for_last_iff hpath hmiss hnot hlib
          exact ⟨fs, x.2, x.1, rfl, hmiss, hnot, hopen.mpr (by decide), hmkdir.mpr (by decide)⟩

set_option synthInstance.maxSize 1000 in
/-- `/abc/d`, where there are directories `/abc` and `/a`: `my_mkdir` succeeds, and what it has made
is `/a/dbc`. -/
theorem shorter_last_component :
    ∃ fs s₁ r, Fs.session 12 (fun i => 7 * i) (fun _ _ => 0)
        [.mkdir 1 ⟨[97, 98, 99], by decide⟩, .mkdir 1 ⟨[97], by decide⟩] = .ok fs ∧
      IsPath ⟨[47, 97, 98, 99, 47, 100], by decide⟩ [[97, 98, 99], [100]] ∧
      Server.rpc (.lookup ⟨[47, 97, 98, 99, 47, 100], by decide⟩) (.start fs) = .ok (r, s₁) ∧
      found r = false ∧
      ¬ AsksFor Server.rpc .create [[97, 98, 99], [100]]
        (myOpen ⟨[47, 97, 98, 99, 47, 100], by decide⟩ 1 ⟨[], 0⟩) (.start fs) s₁ ∧
      ¬ AsksFor Server.rpc .mkdir [[97, 98, 99], [100]]
        (myMkdir ⟨[47, 97, 98, 99, 47, 100], by decide⟩) (.start fs) s₁ ∧
      (run Server.rpc (myMkdir ⟨[47, 97, 98, 99, 47, 100], by decide⟩) (.start fs)).map
        (fun x => (x.1, x.2.fs.dirEntries 2, x.2.fs.dirEntries 3)) =
        .ok (0, [], [([100, 98, 99], 4)]) := by
  have hfacts : (Fs.session 12 (fun i => 7 * i) (fun _ _ => 0)
      [.mkdir 1 ⟨[97, 98, 99], by decide⟩, .mkdir 1 ⟨[97], by decide⟩]).map (fun fs =>
        ((Server.rpc (.lookup ⟨[47, 97, 98, 99, 47, 100], by decide⟩) (.start fs)).map
          (fun x => found x.1),
        (run Server.rpc (myMkdir ⟨[47, 97, 98, 99, 47, 100], by decide⟩) (.start fs)).map
          fun x => (x.1, x.2.fs.dirEntries 2, x.2.fs.dirEntries 3))) =
      .ok (.ok false, .ok (0, [], [([100, 98, 99], 4)])) := by
    decide +kernel
  have hpath : IsPath ⟨[47, 97, 98, 99, 47, 100], by decide⟩ [[97, 98, 99], [100]] :=
    ⟨by decide, by decide, rfl, by decide⟩
  have hsplit : (splitName ⟨[47, 97, 98, 99, 47, 100], by decide⟩).1 = 2 ∧
      (splitName ⟨[47, 97, 98, 99, 47, 100], by decide⟩).2.2.chars = [47, 97] := by
    decide
  generalize hp : (⟨[47, 97, 98, 99, 47, 100], by decide⟩ : CStr) = path at hfacts hpath hsplit ⊢
  cases hs : Fs.session 12 (fun i => 7 * i) (fun _ _ => 0)
      [.mkdir 1 ⟨[97, 98, 99], by decide⟩, .mkdir 1 ⟨[97], by decide⟩] with
  | error e =>
      rw [hs] at hfacts
      cases hfacts
  | ok fs =>
      rw [hs] at hfacts
      obtain ⟨hnot, hmade⟩ := Prod.mk.inj (Except.ok.inj hfacts)
      cases hmiss : Server.rpc (.lookup path) (.start fs) with
      | error e =>
          rw [hmiss] at hnot
          cases hnot
      | ok x =>
          rw [hmiss] at hnot
          have hnot : found x.1 = false := Except.ok.inj hnot
          -- the second path looked up is `/a`
          refine ⟨fs, x.2, x.1, rfl, hpath, hmiss, hnot, fun hasks => ?_, fun hasks => ?_, hmade⟩
          · have hlib : (⟨[], 0⟩ : Lib).openFiles < 10 := by decide
            have hops := ops_myOpen hpath.myparse hlib hmiss hnot
            have hparent := hasks.parent (by decide) (splitName path).2.2
              (by rw [hops]; exact List.mem_cons_self)
            rw [hsplit.2] at hparent
            exact absurd hparent (by decide)
          · have hops := ops_myMkdir hpath.myparse hmiss hnot
            have hparent := hasks.parent (by decide) (splitName path).2.2
              (by rw [hops, if_neg (by omega)]; exact List.mem_cons_self)
            rw [hsplit.2] at hparent
            exact absurd hparent (by decide)

end Sthreads.Client
