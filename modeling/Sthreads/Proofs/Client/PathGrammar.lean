/-
What `myparse` accepts, against the grammar of paths.

A string without a double slash that begins with a slash is the path of its tokens, or that
path with one slash more.  `myparse` means to reject the second kind, but it looks for the
slash behind the last character, where the copy has its zero.  Its check of the length comes
after the copy, too late for a path that does not fit in the array.
-/
import Sthreads.Proofs.Client.PathSplitting
import Sthreads.Proofs.Snfs.Lookup

namespace Sthreads.Client

open Snfs

/-- A path of the grammar: the root, or components with a slash before each of them. -/
def WellFormed (path : CStr) : Prop := path.chars = [slash] ∨ ∃ cs, IsPath path cs

/-- A path of the grammar with components, and one slash more. -/
def TrailingSlash (path : CStr) : Prop :=
  ∃ cs : List (List UInt8), cs ≠ [] ∧
    (∀ c ∈ cs, c ≠ [] ∧ c.length ≤ 13 ∧ slash ∉ c ∧ 32 ∉ c) ∧ path.chars = absPath cs ++ [slash]

/-- `myparse` stays in its array, and accepts the path if and only if it is one of the grammar. -/
def ParsedExactly (path : CStr) : Prop :=
  ∀ junk, ∃ r, myparseLine junk path = some r ∧ (r = true ↔ WellFormed path)

section

variable {c s : List UInt8} {cs : List (List UInt8)}

/-! ### Strings and their tokens -/

theorem hasDoubleSlash_tail {a : UInt8} (h : hasDoubleSlash (a :: s) = false) :
    hasDoubleSlash s = false := by
  cases s with
  | nil => rfl
  | cons b s =>
      rw [hasDoubleSlash, Bool.or_eq_false_iff] at h
      exact h.2

/-- A string without a double slash is its words, with one slash before each but the first and
perhaps one at the end. -/
theorem splitPath_join (h : hasDoubleSlash s = false) :
    s = (splitPath s).1 ++ absPath (splitPath s).2 ∨
      s = (splitPath s).1 ++ absPath (splitPath s).2 ++ [slash] := by
  induction s with
  | nil => exact Or.inl rfl
  | cons a s ih =>
      have hs := ih (hasDoubleSlash_tail h)
      rw [splitPath]
      dsimp only
      by_cases ha : a = slash
      · rw [if_pos ha]
        dsimp only
        by_cases hword : (splitPath s).1 = []
        · -- two slashes do not follow one another, so the string ends here
          rw [if_pos hword, List.nil_append]
          rw [hword, List.nil_append] at hs
          have hhead : s.head? ≠ some slash := by
            intro hc
            cases s with
            | nil => cases hc
            | cons b s =>
                rw [hasDoubleSlash, ha, Option.some.inj hc] at h
                simp at h
          cases hwords : (splitPath s).2 with
          | nil =>
              rw [hwords] at hs
              rcases hs with hs | hs
              · exact Or.inr (by rw [hs, ha]; rfl)
              · exact absurd (by rw [hs]; rfl) hhead
          | cons c cs =>
              rw [hwords, absPath_cons] at hs
              rcases hs with hs | hs <;> exact absurd (by rw [hs]; rfl) hhead
        · rw [if_neg hword, List.nil_append, absPath_cons, ha]
          exact hs.imp (congrArg (slash :: ·)) (congrArg (slash :: ·))
      · rw [if_neg ha]
        exact hs.imp (congrArg (a :: ·)) (congrArg (a :: ·))

/-- A string that begins with a slash and has no double slash. -/
theorem tokens_join (hhead : s.head? = some slash) (h : hasDoubleSlash s = false) :
    s = absPath (tokens s) ∨ s = absPath (tokens s) ++ [slash] := by
  cases s with
  | nil => cases hhead
  | cons a s =>
      obtain rfl := Option.some.inj hhead
      exact splitPath_join h

theorem mem_absPath {a : UInt8} (hc : c ∈ cs) (ha : a ∈ c) : a ∈ absPath cs := by
  rw [absPath, List.mem_flatMap]
  exact ⟨c, hc, List.mem_cons_of_mem _ ha⟩

/-- The last character of a path is no slash. -/
theorem absPath_ne_concat (h : ∀ c ∈ cs, c ≠ [] ∧ slash ∉ c) : absPath cs ≠ s ++ [slash] := by
  intro heq
  rcases List.eq_nil_or_concat cs with rfl | ⟨cs, c, rfl⟩
  · simp [absPath] at heq
  · rw [List.concat_eq_append] at h heq
    obtain ⟨hne, hslash⟩ := h c (List.mem_append_right _ List.mem_cons_self)
    rw [absPath_concat] at heq
    have hlast := congrArg List.getLast? heq
    rw [List.getLast?_append_of_ne_nil _ (List.cons_ne_nil _ _), List.getLast?_concat,
      List.getLast?_cons_of_ne_nil hne] at hlast
    exact hslash (List.mem_of_getLast? hlast)

end

/-! ### The array -/

theorem get_of_strEq {n : Nat} {p : Page n} {off : Nat} {s : List UInt8}
    (h : strEq p off s = true) : p.get (off + s.length) = 0 := by
  induction s generalizing off with
  | nil => simpa [strEq] using h
  | cons c s ih =>
      have hrest := ih (strEq_cons.mp h).2
      rwa [List.length_cons, Nat.add_comm s.length, ← Nat.add_assoc]

section

variable {path : CStr}

/-- With a path that fits, `myparse` works on a copy of it. -/
theorem myparseLine_eq (junk : Page 200) (path : CStr) :
    myparseLine junk path =
      if path.chars.length < 200 then some (myparse path) else none := by
  by_cases hfits : path.chars.length < 200
  · have hcopy : strEq (strcpy junk 0 path.chars) 0 path.chars = true :=
      strEq_strcpy (by omega)
    have hchars : ((strcpy junk 0 path.chars).cstr 0).chars = path.chars :=
      strAt_of_strEq hcopy path.noNul (by omega)
    have hend : (strcpy junk 0 path.chars).get path.chars.length = 0 := by
      simpa using get_of_strEq hcopy
    rw [myparseLine, if_neg (by omega), if_pos hfits]
    dsimp only
    rw [hchars, hend]
    cases hp : path.chars with
    | nil => simp [myparse, hp]
    | cons a rest =>
        rw [hp] at hcopy hfits
        have hget : (strcpy junk 0 (a :: rest)).get 0 = a := (strEq_cons.mp hcopy).1
        rw [hget, myparse, hp]
        have hlen : ¬ (a :: rest).length < 1 := by simp
        simp only [ge_iff_le, decide_eq_false (Nat.not_le.mpr hfits), decide_eq_false hlen,
          Bool.or_self, Bool.false_eq_true, if_false]
        have hzero : ¬ (0 : UInt8) = slash := by decide
        rw [List.length_cons] at hfits
        cases (a :: rest).contains 32 <;> cases hasDoubleSlash (a :: rest) <;>
          by_cases ha : a = slash <;> simp [ha, hfits, hzero]
  · rw [myparseLine, if_pos (by omega), if_neg hfits]

/-! ### What is accepted -/

/-- What `myparse` checks, in terms of the tokens. -/
theorem myparse_iff : myparse path = true ↔ path.chars.length < 200 ∧ 32 ∉ path.chars ∧
    hasDoubleSlash path.chars = false ∧ path.chars.head? = some slash ∧
      ∀ c ∈ tokens path.chars, c.length ≤ 13 := by
  have hlen : path.chars.head? = some slash → 1 ≤ path.chars.length := by
    intro h
    cases hp : path.chars with
    | nil => rw [hp] at h; cases h
    | cons a rest => simp
  rw [myparse, shortTokens_eq _ (length_tokens_le path.chars)]
  simp only [Bool.and_eq_true, decide_eq_true_eq, Bool.not_eq_true', beq_iff_eq,
    List.all_eq_true, List.contains_eq_mem, decide_eq_false_iff_not]
  constructor
  · rintro ⟨⟨⟨⟨⟨-, h1⟩, h2⟩, h3⟩, h4⟩, h5⟩
    exact ⟨h1, h2, h3, h4, h5⟩
  · rintro ⟨h1, h2, h3, h4, h5⟩
    exact ⟨⟨⟨⟨⟨hlen h4, h1⟩, h2⟩, h3⟩, h4⟩, h5⟩

/-- The tokens of a path that is accepted are components, and it is the path of them or has a
slash more. -/
theorem shape_of_myparse (h : myparse path = true) :
    (∀ c ∈ tokens path.chars, c ≠ [] ∧ c.length ≤ 13 ∧ slash ∉ c ∧ 32 ∉ c) ∧
      (path.chars = absPath (tokens path.chars) ∨
        path.chars = absPath (tokens path.chars) ++ [slash]) := by
  obtain ⟨-, hspace, hdouble, hhead, hshort⟩ := myparse_iff.mp h
  have hjoin := tokens_join hhead hdouble
  refine ⟨fun c hc => ?_, hjoin⟩
  obtain ⟨hne, hslash⟩ := tokens_words c hc
  refine ⟨hne, hshort c hc, hslash, fun hcs => hspace ?_⟩
  have hmem := mem_absPath hc hcs
  rcases hjoin with hj | hj
  · rw [hj]
    exact hmem
  · rw [hj]
    exact List.mem_append_left _ hmem

theorem myparse_root (h : path.chars = [slash]) : myparse path = true := by
  rw [myparse, h]
  decide

/-- A path with one slash more is parsed like the path. -/
theorem TrailingSlash.myparse (h : TrailingSlash path) (hlen : path.chars.length < 200) :
    myparse path = true := by
  obtain ⟨cs, hne, hcs, hchars⟩ := h
  have hwords : ∀ c ∈ cs, c ≠ [] ∧ slash ∉ c := fun c hc => ⟨(hcs c hc).1, (hcs c hc).2.2.1⟩
  have hdouble : hasDoubleSlash path.chars = false := by
    rw [hchars, hasDoubleSlash_absPath_append hwords]
    rfl
  have hhead : path.chars.head? = some slash := by
    rw [hchars]
    cases cs with
    | nil => rfl
    | cons c cs => rfl
  have htokens : tokens path.chars = cs := by
    rcases tokens_join hhead hdouble with hj | hj
    · exact absurd (hj.symm.trans hchars) (absPath_ne_concat tokens_words)
    · have hpath : absPath cs = absPath (tokens path.chars) :=
        List.append_cancel_right (hchars.symm.trans hj)
      have hsame : tokens (absPath (tokens path.chars)) = tokens path.chars :=
        tokens_absPath tokens_words
      rw [← hsame, ← hpath, tokens_absPath hwords]
  refine myparse_iff.mpr ⟨hlen, fun hspace => ?_, hdouble, hhead, fun c hc => ?_⟩
  · rw [hchars, absPath, List.mem_append, List.mem_flatMap] at hspace
    rcases hspace with ⟨c, hc, hsc⟩ | hsc
    · rcases List.mem_cons.mp hsc with hsc | hsc
      · exact absurd hsc (by decide)
      · exact (hcs c hc).2.2.2 hsc
    · exact absurd (List.mem_singleton.mp hsc) (by decide)
  · rw [htokens] at hc
    exact (hcs c hc).2.1

theorem TrailingSlash.not_wellFormed (h : TrailingSlash path) : ¬ WellFormed path := by
  obtain ⟨cs, hne, hcs, hchars⟩ := h
  rintro (hroot | ⟨cs', hpath⟩)
  · rw [hchars] at hroot
    cases cs with
    | nil => exact hne rfl
    | cons c cs =>
        rw [absPath_cons] at hroot
        simp at hroot
  · rw [hpath.chars] at hchars
    refine absPath_ne_concat (fun c hc => ?_) hchars
    exact ⟨(hpath.components c hc).1, (hpath.components c hc).2.2.1⟩

/-- `myparse` accepts the paths of the grammar, and those with one slash more. -/
theorem myparse_iff_wellFormed (hlen : path.chars.length < 200) :
    myparse path = true ↔ WellFormed path ∨ TrailingSlash path := by
  constructor
  · intro h
    obtain ⟨hcs, hjoin | hjoin⟩ := shape_of_myparse h
    · refine Or.inl (Or.inr ⟨tokens path.chars, fun hnil => ?_, hcs, hjoin, hlen⟩)
      have hhead := (myparse_iff.mp h).2.2.2.1
      rw [hjoin, hnil] at hhead
      cases hhead
    · by_cases hnil : tokens path.chars = []
      · rw [hnil] at hjoin
        exact Or.inl (Or.inl hjoin)
      · exact Or.inr ⟨tokens path.chars, hnil, hcs, hjoin⟩
  · rintro ((hroot | ⟨cs, hpath⟩) | h)
    · exact myparse_root hroot
    · exact hpath.myparse
    · exact h.myparse hlen

/-- `myparse` is exact on a path if and only if the path fits in its array and is not one of the
grammar with one slash more. -/
theorem parsedExactly_iff (path : CStr) :
    ParsedExactly path ↔ path.chars.length < 200 ∧ ¬ TrailingSlash path := by
  unfold ParsedExactly
  constructor
  · intro h
    obtain ⟨r, hr, hiff⟩ := h fun _ => 0
    rw [myparseLine_eq] at hr
    by_cases hlen : path.chars.length < 200
    · rw [if_pos hlen, Option.some.injEq] at hr
      refine ⟨hlen, fun htrail => htrail.not_wellFormed (hiff.mp ?_)⟩
      rw [← hr]
      exact htrail.myparse hlen
    · rw [if_neg hlen] at hr
      cases hr
  · rintro ⟨hlen, hnot⟩ junk
    refine ⟨myparse path, by rw [myparseLine_eq, if_pos hlen], ?_⟩
    rw [myparse_iff_wellFormed hlen, or_iff_left hnot]

/-- `/a/` is accepted. -/
theorem myparse_accepts_trailing_slash :
    ¬ ParsedExactly ⟨[47, 97, 47], by decide⟩ := by
  intro h
  have htrail : TrailingSlash ⟨[47, 97, 47], by decide⟩ := by
    refine ⟨[[97]], by decide, fun c hc => ?_, by decide⟩
    rw [List.mem_singleton.mp hc]
    decide
  obtain ⟨r, hr, hiff⟩ := h fun _ => 0
  rw [myparseLine_eq, if_pos (by decide), htrail.myparse (by decide), Option.some.injEq] at hr
  exact htrail.not_wellFormed (hiff.mp hr.symm)

end

end Sthreads.Client
