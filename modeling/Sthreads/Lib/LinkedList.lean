/-
Singly linked lists in a heap, with a pointer to the first cell and one to the last.

A list is described by its cells from the first on, each with its address and its value.  That
is a description and no part of the heap: the heap determines it, so no cell occurs in it twice.
The pointer to the last cell is only meaningful while there is one.
-/
import Sthreads.Lib.Heap
import Mathlib.Data.List.Basic
import Mathlib.Data.List.Nodup
import Mathlib.Data.List.Perm.Subperm

namespace Sthreads

variable {α : Type}

/-- A cell of a list. -/
structure Link (α : Type) where
  val : α
  next : Addr
  deriving DecidableEq, Repr

/-- The pointers to the first cell and to the last one. -/
structure Ends where
  first : Addr
  last : Addr
  deriving DecidableEq, Repr

/-- The addresses of the cells of a list -/
def addrs (xs : List (Addr × α)) : List Addr := xs.map Prod.fst

@[simp] theorem addrs_cons (x : Addr × α) (xs : List (Addr × α)) :
    addrs (x :: xs) = x.1 :: addrs xs := rfl

@[simp] theorem addrs_append (xs ys : List (Addr × α)) :
    addrs (xs ++ ys) = addrs xs ++ addrs ys := List.map_append

namespace Heap

variable {h h' : Heap (Link α)} {a b : Addr} {xs ys : List (Addr × α)}

/-- From `a` on the cells are `xs`, and the last of them leads to `b`. -/
def Seg (h : Heap (Link α)) : Addr → List (Addr × α) → Addr → Prop
  | a, [], b => a = b
  | a, (x, v) :: xs, b => a = x ∧ ∃ n, h.obj x = some ⟨v, n⟩ ∧ h.Seg n xs b

/-- The list with these ends has these cells. -/
structure IsList (h : Heap (Link α)) (e : Ends) (xs : List (Addr × α)) : Prop where
  seg : h.Seg e.first xs 0
  last : ∀ x, xs.getLast? = some x → e.last = x.1

/-! ### Segments -/

theorem seg_append : h.Seg a (xs ++ ys) b ↔ ∃ m, h.Seg a xs m ∧ h.Seg m ys b := by
  induction xs generalizing a with
  | nil =>
      constructor
      · exact fun hs => ⟨a, rfl, hs⟩
      · rintro ⟨m, rfl, hs⟩
        exact hs
  | cons x xs ih =>
      constructor
      · rintro ⟨ha, n, hx, hs⟩
        obtain ⟨m, hxs, hys⟩ := ih.mp hs
        exact ⟨m, ⟨ha, n, hx, hxs⟩, hys⟩
      · rintro ⟨m, ⟨ha, n, hx, hxs⟩, hys⟩
        exact ⟨ha, n, hx, ih.mpr ⟨m, hxs, hys⟩⟩

/-- A segment depends on its own cells alone. -/
theorem Seg.congr (hs : h.Seg a xs b) (heq : ∀ x ∈ addrs xs, h'.obj x = h.obj x) :
    h'.Seg a xs b := by
  induction xs generalizing a with
  | nil => exact hs
  | cons x xs ih =>
      obtain ⟨ha, n, hx, hrest⟩ := hs
      have hx' : h'.obj x.1 = some ⟨x.2, n⟩ := (heq x.1 List.mem_cons_self).trans hx
      exact ⟨ha, n, hx', ih hrest fun y hy => heq y (List.mem_cons_of_mem x.1 hy)⟩

theorem Seg.live (hs : h.Seg a xs b) {x : Addr} (hx : x ∈ addrs xs) : ∃ c, h.obj x = some c := by
  induction xs generalizing a with
  | nil => cases hx
  | cons y ys ih =>
      obtain ⟨-, n, hy, hrest⟩ := hs
      rcases List.mem_cons.mp hx with rfl | hx
      · exact ⟨_, hy⟩
      · exact ih hrest hx

/-- The heap determines what comes up to the end of a list. -/
theorem Seg.unique (hx : h.Seg a xs 0) (hy : h.Seg a ys 0) : xs = ys := by
  induction xs generalizing a ys with
  | nil =>
      have h0 : a = 0 := hx
      cases ys with
      | nil => rfl
      | cons y ys =>
          obtain ⟨ha, n, hobj, -⟩ := hy
          exact absurd (ha.symm.trans h0) (ne_zero hobj)
  | cons x xs ih =>
      obtain ⟨ha, n, hobj, hrest⟩ := hx
      cases ys with
      | nil =>
          have h0 : a = 0 := hy
          exact absurd (ha.symm.trans h0) (ne_zero hobj)
      | cons y ys =>
          obtain ⟨ha', n', hobj', hrest'⟩ := hy
          have haddr : x.1 = y.1 := ha.symm.trans ha'
          rw [haddr, hobj', Option.some.injEq, Link.mk.injEq] at hobj
          obtain ⟨hval, rfl⟩ := hobj
          rw [ih hrest hrest', Prod.ext haddr hval.symm]

/-- No cell occurs twice: it would come before the rest of the list after itself. -/
theorem Seg.nodup (hs : h.Seg a xs 0) : (addrs xs).Nodup := by
  induction xs generalizing a with
  | nil => exact List.nodup_nil
  | cons x xs ih =>
      obtain ⟨ha, n, hobj, hrest⟩ := hs
      refine List.nodup_cons.mpr ⟨fun hmem => ?_, ih hrest⟩
      obtain ⟨y, hy, hyx⟩ := List.mem_map.mp hmem
      obtain ⟨pre, post, rfl⟩ := List.append_of_mem hy
      obtain ⟨m, -, hm, n', hobj', hpost⟩ := seg_append.mp hrest
      rw [hyx, hobj, Option.some.injEq, Link.mk.injEq] at hobj'
      obtain ⟨-, rfl⟩ := hobj'
      -- the list from the cell on, and the same list from its second occurrence on
      have hlen := congrArg List.length (hrest.unique hpost)
      rw [List.length_append, List.length_cons] at hlen
      omega

theorem Seg.length_le (hs : h.Seg a xs 0) : xs.length ≤ h.top := by
  have hsub : addrs xs ⊆ List.range h.top := fun x hx => by
    obtain ⟨c, hc⟩ := hs.live hx
    exact List.mem_range.mpr (lt_top hc)
  have hle := (List.Nodup.subperm hs.nodup hsub).length_le
  rwa [List.length_range, addrs, List.length_map] at hle

theorem Seg.first_ne (hs : h.Seg a xs b) (hxs : xs ≠ []) : a ≠ 0 := by
  cases xs with
  | nil => exact absurd rfl hxs
  | cons x xs =>
      obtain ⟨ha, n, hobj, -⟩ := hs
      rw [ha]
      exact ne_zero hobj

/-! ### Lists -/

namespace IsList

variable {e : Ends} {x y : Addr} {v w : α} {n : Addr}

theorem nil (p : Addr) : h.IsList ⟨0, p⟩ [] := ⟨rfl, fun _ hx => by cases hx⟩

/-- Of an empty list nothing is known about the pointer to the last cell. -/
theorem of_first (hf : e.first = 0) : h.IsList e [] := ⟨hf, fun _ hx => by cases hx⟩

theorem first_eq_zero (hl : h.IsList e xs) : e.first = 0 ↔ xs = [] := by
  constructor
  · intro h0
    by_contra hne
    exact hl.seg.first_ne hne h0
  · rintro rfl
    exact hl.seg

theorem nodup (hl : h.IsList e xs) : (addrs xs).Nodup := hl.seg.nodup

theorem congr (hl : h.IsList e xs) (heq : ∀ a ∈ addrs xs, h'.obj a = h.obj a) :
    h'.IsList e xs := ⟨hl.seg.congr heq, hl.last⟩

theorem singleton (hx : h.obj x = some ⟨v, 0⟩) : h.IsList ⟨x, x⟩ [(x, v)] := by
  refine ⟨⟨rfl, 0, hx, rfl⟩, fun y hy => ?_⟩
  rw [List.getLast?_singleton, Option.some.injEq] at hy
  rw [← hy]

/-- The last cell is the one that the pointer to it says, and `NULL` follows it. -/
theorem last_obj (hl : h.IsList e (xs ++ [(y, w)])) : e.last = y ∧ h.obj y = some ⟨w, 0⟩ := by
  obtain ⟨m, -, hm, n, hobj, hn⟩ := seg_append.mp hl.seg
  refine ⟨hl.last (y, w) (List.getLast?_concat ..), ?_⟩
  rw [hobj, show n = 0 from hn]

/-- A new cell is linked to the last one. -/
theorem snoc (hl : h.IsList e (xs ++ [(y, w)])) (hx : h.obj x = some ⟨v, 0⟩)
    (hnew : x ∉ addrs (xs ++ [(y, w)])) :
    (h.put y ⟨w, x⟩).IsList ⟨e.first, x⟩ (xs ++ [(y, w)] ++ [(x, v)]) := by
  obtain ⟨m, hpre, hm, n, hobj, -⟩ := seg_append.mp hl.seg
  have hy0 : y ≠ 0 := ne_zero hobj
  have hxy : x ≠ y := fun he => hnew (by simp [he])
  have hnd := hl.nodup
  rw [addrs_append, List.nodup_append] at hnd
  refine ⟨seg_append.mpr ⟨x, seg_append.mpr ⟨m, ?_, hm, x, put_self hy0, rfl⟩, ?_⟩, fun z hz => ?_⟩
  · refine hpre.congr fun z hz => put_of_ne ?_
    exact hnd.2.2 z hz y (List.mem_singleton_self y)
  · exact ⟨rfl, 0, (put_of_ne hxy).trans hx, rfl⟩
  · rw [List.getLast?_concat, Option.some.injEq] at hz
    rw [← hz]

/-- The first cell leaves the list. -/
theorem tail (hl : h.IsList e ((x, v) :: xs)) :
    e.first = x ∧ ∃ n, h.obj x = some ⟨v, n⟩ ∧ h.IsList ⟨n, e.last⟩ xs := by
  obtain ⟨ha, n, hobj, hrest⟩ := hl.seg
  refine ⟨ha, n, hobj, hrest, fun z hz => hl.last z ?_⟩
  cases xs with
  | nil => cases hz
  | cons u us => exact hz

/-- A cell that is not the first leaves the list: the one before it leads to the one after it, and
is the last one if there is none. -/
theorem unlink (hl : h.IsList e (xs ++ (y, w) :: (x, v) :: ys)) :
    ∃ n, h.obj y = some ⟨w, x⟩ ∧ h.obj x = some ⟨v, n⟩ ∧ (n = 0 ↔ ys = []) ∧
      (e.last = x ↔ ys = []) ∧
      (h.put y ⟨w, n⟩).IsList ⟨e.first, if ys = [] then y else e.last⟩ (xs ++ (y, w) :: ys) := by
  obtain ⟨m, hpre, hm, k, hy, hk, n, hx, hpost⟩ := seg_append.mp hl.seg
  have hkx : k = x := hk
  subst hkx
  have hnd := hl.nodup
  simp only [addrs_append, addrs_cons, List.nodup_append, List.nodup_cons, List.mem_cons,
    not_or] at hnd
  obtain ⟨-, ⟨⟨hyx, hyys⟩, hxys, -⟩, hdis⟩ := hnd
  have hlast : ys ≠ [] → e.last ∈ addrs ys ∧ ∀ z, (xs ++ (y, w) :: ys).getLast? = some z →
      e.last = z.1 := by
    intro hne
    obtain ⟨us, z, rfl⟩ := (List.eq_nil_or_concat' ys).resolve_left hne
    have hz : e.last = z.1 := hl.last z (by
      rw [show xs ++ (y, w) :: (k, v) :: (us ++ [z]) = xs ++ (y, w) :: (k, v) :: us ++ [z] by simp]
      exact List.getLast?_concat ..)
    refine ⟨by simp [hz], fun z' hz' => ?_⟩
    rw [show xs ++ (y, w) :: (us ++ [z]) = xs ++ (y, w) :: us ++ [z] by simp,
      List.getLast?_concat, Option.some.injEq] at hz'
    rw [← hz']
    exact hz
  refine ⟨n, hy, hx, ?_, ?_, ?_, fun z hz => ?_⟩
  · constructor
    · intro hn
      by_contra hne
      exact hpost.first_ne hne hn
    · rintro rfl
      exact hpost
  · constructor
    · intro he
      by_contra hne
      exact hxys (he ▸ (hlast hne).1)
    · rintro rfl
      exact hl.last (k, v) (by simp)
  · refine seg_append.mpr ⟨m, hpre.congr fun z hz => put_of_ne ?_, hm, n, put_self (ne_zero hy), ?_⟩
    · exact fun he => (hdis z hz y (Or.inl rfl)) he
    · exact hpost.congr fun z hz => put_of_ne fun he => hyys (he ▸ hz)
  · dsimp only
    split
    case isTrue hnil =>
      subst hnil
      have hz' : (y, w) = z := by simpa using hz
      rw [← hz']
    case isFalse hne => exact (hlast hne).2 z hz

end IsList

end Heap

end Sthreads
