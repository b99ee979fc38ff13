/-
Rooted trees with named edges.

`child v l w` says that `w` is a child of `v` under the name `l`.  Where every vertex but the
root has one parent and one name under it, and parents come first in some well-founded order,
each vertex has exactly one path of names from the root.
-/
import Mathlib.Data.List.Induction
import Mathlib.Order.WellFounded

namespace Sthreads

variable {V L : Type} {child : V → L → V → Prop}

/-- The names lead from one vertex to the other. -/
inductive NamePath (child : V → L → V → Prop) : V → List L → V → Prop
  | here (v : V) : NamePath child v [] v
  | down {v w u : V} {l : L} {ls : List L} (hc : child v l w) (hp : NamePath child w ls u) :
      NamePath child v (l :: ls) u

/-- The vertices `mem`, each with its parent and its name there, but for the root. -/
structure RootedTree (child : V → L → V → Prop) (root : V) (mem : V → Prop)
    (before : V → V → Prop) : Prop where
  wf : WellFounded before
  root_mem : mem root
  parent : ∀ w, mem w → w ≠ root → ∃ v l, mem v ∧ child v l w ∧ before v w
  unique : ∀ v l v' l' w, child v l w → child v' l' w → v = v' ∧ l = l'
  orphan : ∀ v l, ¬ child v l root
  det : ∀ v l w w', child v l w → child v l w' → w = w'

namespace NamePath

theorem snoc {v w u : V} {l : L} {ls : List L} (h : NamePath child v ls w) (hc : child w l u) :
    NamePath child v (ls ++ [l]) u := by
  induction h with
  | here v => exact .down hc (.here u)
  | down hc' _ ih => exact .down hc' (ih hc)

/-- The last step of a path. -/
theorem of_snoc {v u : V} {l : L} {ls : List L} (h : NamePath child v (ls ++ [l]) u) :
    ∃ w, NamePath child v ls w ∧ child w l u := by
  induction ls generalizing v with
  | nil =>
      cases h with
      | down hc hp =>
          cases hp
          exact ⟨v, .here v, hc⟩
  | cons k ls ih =>
      cases h with
      | down hc hp =>
          obtain ⟨w, hw, hcw⟩ := ih hp
          exact ⟨w, .down hc hw, hcw⟩

end NamePath

namespace RootedTree

variable {root : V} {mem : V → Prop} {before : V → V → Prop}

/-- Names lead to one vertex at most. -/
theorem functional (h : RootedTree child root mem before) {v w w' : V} {ls : List L}
    (hp : NamePath child v ls w) (hp' : NamePath child v ls w') : w = w' := by
  induction hp with
  | here v =>
      cases hp'
      rfl
  | down hc _ ih =>
      cases hp' with
      | down hc' hp'' =>
          have hnext := h.det _ _ _ _ hc hc'
          exact ih (hnext ▸ hp'')

/-- Two paths from the root to the same vertex are the same: both end with the edge from its
parent. -/
theorem path_unique (h : RootedTree child root mem before) {v : V} {ls ls' : List L}
    (hp : NamePath child root ls v) (hp' : NamePath child root ls' v) : ls = ls' := by
  induction ls using List.reverseRecOn generalizing ls' v with
  | nil =>
      cases hp
      rcases List.eq_nil_or_concat ls' with rfl | ⟨ls', l, rfl⟩
      · rfl
      · rw [List.concat_eq_append] at hp'
        obtain ⟨w, -, hc⟩ := hp'.of_snoc
        exact absurd hc (h.orphan w l)
  | append_singleton ls l ih =>
      obtain ⟨w, hw, hc⟩ := hp.of_snoc
      rcases List.eq_nil_or_concat ls' with rfl | ⟨ls', l', rfl⟩
      · cases hp'
        exact absurd hc (h.orphan w l)
      · rw [List.concat_eq_append] at hp' ⊢
        obtain ⟨w', hw', hc'⟩ := hp'.of_snoc
        obtain ⟨rfl, rfl⟩ := h.unique _ _ _ _ _ hc hc'
        rw [ih hw hw']

/-- Every vertex has a path from the root: its parent's, and its name there. -/
theorem path_exists (h : RootedTree child root mem before) {v : V} (hv : mem v) :
    ∃ ls, NamePath child root ls v := by
  induction v using h.wf.induction with
  | _ v ih =>
      by_cases hroot : v = root
      · exact ⟨[], hroot ▸ .here v⟩
      · obtain ⟨w, l, hw, hc, hbefore⟩ := h.parent v hv hroot
        obtain ⟨ls, hls⟩ := ih w hbefore hw
        exact ⟨ls ++ [l], hls.snoc hc⟩

/-- A path from the root stays among the vertices, if edges lead to vertices only. -/
theorem mem_of_path (h : RootedTree child root mem before)
    (hc : ∀ v l w, child v l w → mem w) {v : V} {ls : List L} (hp : NamePath child root ls v) :
    mem v := by
  rcases List.eq_nil_or_concat ls with rfl | ⟨ls', l, rfl⟩
  · cases hp
    exact h.root_mem
  · rw [List.concat_eq_append] at hp
    obtain ⟨w, -, hlast⟩ := hp.of_snoc
    exact hc w l v hlast

theorem existsUnique_path (h : RootedTree child root mem before) {v : V} (hv : mem v) :
    ∃! ls, NamePath child root ls v := by
  obtain ⟨ls, hls⟩ := h.path_exists hv
  exact ⟨ls, hls, fun ls' hls' => h.path_unique hls' hls⟩

end RootedTree

end Sthreads
