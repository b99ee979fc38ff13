/-
The queues of the scheduler are independent lists.

A removed cell is kept for the next insertion, while the queue it was removed from may still
point to it as its last cell, and `create_queue` forgets the cell that is kept.  The invariant
says of all queues at once which cells each of them has: no two share a cell, and the cell that
is kept is in none.  Nothing is said of the last cell of an empty queue, so it does not matter
what that pointer holds.
-/
import Sthreads.User.Queue

namespace Sthreads.User

open Heap

/-- The queue at each address has these cells, and they hold its threads. -/
structure Linked (m : QueueMem) (qs : Fifos) (els : Addr → List (Addr × Tid)) : Prop where
  absent : ∀ q, qs q = none → m.queues.obj q = none ∧ els q = []
  present : ∀ q l, qs q = some l → ∃ e, m.queues.obj q = some e ∧ m.elements.IsList e (els q) ∧
    (els q).map Prod.snd = l
  /-- No cell is in two queues. -/
  apart : ∀ q q', q ≠ q' → ∀ a ∈ addrs (els q), a ∉ addrs (els q')
  /-- The cell that is kept is one, and it is in no queue. -/
  kept : m.emptyElementPtr ≠ 0 →
    (∃ c, m.elements.obj m.emptyElementPtr = some c) ∧ ∀ q, m.emptyElementPtr ∉ addrs (els q)

variable {m m' : QueueMem} {qs qs' : Fifos} {els : Addr → List (Addr × Tid)} {queue : Addr}

namespace Linked

theorem start : Linked .start Fifos.start fun _ => [] where
  absent _ _ := ⟨rfl, rfl⟩
  present _ _ h := by cases h
  apart _ _ _ _ h := absurd h List.not_mem_nil
  kept h := absurd rfl h

theorem cell (h : Linked m qs els) {q a : Addr} (ha : a ∈ addrs (els q)) :
    ∃ c, m.elements.obj a = some c := by
  cases hq : qs q with
  | none =>
      rw [(h.absent q hq).2] at ha
      cases ha
  | some l =>
      obtain ⟨e, -, hlist, -⟩ := h.present q l hq
      exact hlist.seg.live ha

/-- What is left to show when one queue has changed. -/
theorem update (h : Linked m qs els) {xs : List (Addr × Tid)} {o : Option (List Tid)}
    (hqueues : ∀ q, q ≠ queue → m'.queues.obj q = m.queues.obj q)
    (hcells : ∀ q, q ≠ queue → ∀ a ∈ addrs (els q), m'.elements.obj a = m.elements.obj a)
    (hnone : o = none → m'.queues.obj queue = none ∧ xs = [])
    (hsome : ∀ l, o = some l → ∃ e, m'.queues.obj queue = some e ∧ m'.elements.IsList e xs ∧
      xs.map Prod.snd = l)
    (hapart : ∀ q, q ≠ queue → ∀ a ∈ addrs (els q), a ∉ addrs xs)
    (hkept : m'.emptyElementPtr ≠ 0 → (∃ c, m'.elements.obj m'.emptyElementPtr = some c) ∧
      m'.emptyElementPtr ∉ addrs xs ∧ ∀ q, q ≠ queue → m'.emptyElementPtr ∉ addrs (els q)) :
    Linked m' (Function.update qs queue o) (Function.update els queue xs) := by
  refine ⟨fun q hq => ?_, fun q l hq => ?_, fun q q' hne a ha => ?_, fun h0 => ?_⟩
  · by_cases hqq : q = queue
    · subst hqq
      rw [Function.update_self] at hq ⊢
      exact hnone hq
    · rw [Function.update_of_ne hqq] at hq ⊢
      rw [hqueues q hqq]
      exact h.absent q hq
  · by_cases hqq : q = queue
    · subst hqq
      rw [Function.update_self] at hq ⊢
      exact hsome l hq
    · rw [Function.update_of_ne hqq] at hq ⊢
      obtain ⟨e, he, hlist, hl⟩ := h.present q l hq
      exact ⟨e, (hqueues q hqq).trans he, hlist.congr (hcells q hqq), hl⟩
  · by_cases hqq : q = queue
    · subst hqq
      rw [Function.update_self] at ha
      rw [Function.update_of_ne hne.symm]
      exact fun ha' => hapart q' hne.symm a ha' ha
    · rw [Function.update_of_ne hqq] at ha
      by_cases hqq' : q' = queue
      · rw [hqq', Function.update_self]
        exact hapart q hqq a ha
      · rw [Function.update_of_ne hqq']
        exact h.apart q q' hne a ha
  · obtain ⟨hlive, hxs, hother⟩ := hkept h0
    refine ⟨hlive, fun q => ?_⟩
    by_cases hqq : q = queue
    · rwa [hqq, Function.update_self]
    · rw [Function.update_of_ne hqq]
      exact hother q hqq

/-! ### Creation -/

theorem createQueue (h : Linked m qs els) {k : Chunk Ends} (hk : k.addr ≠ 0)
    (hn : qs k.addr = none) :
    ∃ m', m.createQueue k = .ok (k.addr, m') ∧
      Linked m' (Function.update qs k.addr (some [])) (Function.update els k.addr []) := by
  obtain ⟨hobj, hels⟩ := h.absent k.addr hn
  have hput : (m.queues.put k.addr k.there).obj k.addr = some k.there := put_self hk
  unfold QueueMem.createQueue
  dsimp only [malloc]
  rw [fresh_eq hk hobj, modify_eq hput, ok_bind, modify_eq (put_self hk), ok_bind]
  refine ⟨_, rfl, h.update ?_ (fun _ _ _ _ => rfl) (fun ho => by cases ho) (fun l hl => ?_)
    (fun _ _ _ _ => List.not_mem_nil) fun h0 => absurd rfl h0⟩
  · intro q hq
    exact (put_of_ne hq).trans ((put_of_ne hq).trans (put_of_ne hq))
  · cases hl
    exact ⟨_, put_self hk, IsList.of_first rfl, rfl⟩

/-! ### Insertion -/

/-- The cell that is taken is in no queue, and nothing else has changed. -/
theorem takeElement (h : Linked m qs els) (k : Chunk QueueElement) :
    ∃ a m₁ c, m.takeElement k = (a, m₁) ∧ m₁.elements.obj a = some c ∧
      (∀ x, x ≠ a → m₁.elements.obj x = m.elements.obj x) ∧ (∀ q, a ∉ addrs (els q)) ∧
      m₁.queues = m.queues ∧ m₁.emptyElementPtr = 0 := by
  unfold QueueMem.takeElement
  by_cases h0 : m.emptyElementPtr = 0
  · rw [if_pos h0]
    refine ⟨_, _, _, rfl, put_self (fresh_ne_zero _ _), fun x hx => put_of_ne hx, fun q hq => ?_,
      rfl, h0⟩
    obtain ⟨c, hc⟩ := h.cell hq
    rw [obj_fresh] at hc
    cases hc
  · rw [if_neg h0]
    obtain ⟨⟨c, hc⟩, hq⟩ := h.kept h0
    exact ⟨_, _, c, rfl, hc, fun _ _ => rfl, hq, rfl, rfl⟩

theorem queueInsert (h : Linked m qs els) {l : List Tid} (hq : qs queue = some l) (thread : Tid)
    (k : Chunk QueueElement) :
    ∃ m' a, m.queueInsert queue thread k = .ok m' ∧
      Linked m' (Function.update qs queue (some (l ++ [thread])))
        (Function.update els queue (els queue ++ [(a, thread)])) := by
  obtain ⟨e, he, hlist, hl⟩ := h.present queue l hq
  obtain ⟨a, m₁, c, htake, hc, hsame, hnew, hqueues, hnone⟩ := h.takeElement k
  have ha0 : a ≠ 0 := ne_zero hc
  have hq0 : queue ≠ 0 := ne_zero he
  have he₁ : m₁.queues.obj queue = some e := hqueues ▸ he
  -- the cell is filled in
  have hfilled : ((m₁.elements.put a ⟨thread, c.next⟩).put a ⟨thread, 0⟩).obj a =
      some ⟨thread, 0⟩ := put_self ha0
  have hrest : ∀ x, x ≠ a → ((m₁.elements.put a ⟨thread, c.next⟩).put a ⟨thread, 0⟩).obj x =
      m.elements.obj x :=
    fun x hx => (put_of_ne hx).trans ((put_of_ne hx).trans (hsame x hx))
  have hne : ∀ q, ∀ x ∈ addrs (els q), x ≠ a := fun q x hx hxa => hnew q (hxa ▸ hx)
  unfold QueueMem.queueInsert
  rw [htake]
  dsimp only
  rw [modify_eq hc, ok_bind, modify_eq (put_self ha0), ok_bind, load_eq he₁, ok_bind]
  have hdisj : ∀ q, q ≠ queue → ∀ x ∈ addrs (els q), x ∉ addrs (els queue ++ [(a, thread)]) := by
    intro q hqq x hx
    rw [addrs_append, List.mem_append]
    rintro (hx' | hx')
    · exact h.apart q queue hqq x hx hx'
    · exact hne q x hx (List.mem_singleton.mp hx')
  by_cases hf : e.first = 0
  · -- the pointer to the last cell is overwritten
    have hnil : els queue = [] := hlist.first_eq_zero.mp hf
    rw [if_pos hf, modify_eq he₁, ok_bind, modify_eq (put_self hq0), ok_bind]
    refine ⟨_, a, rfl, h.update ?_ ?_ (fun ho => by cases ho) (fun l' hl' => ?_) hdisj
      fun h0 => absurd hnone h0⟩
    · intro q hqq
      exact (put_of_ne hqq).trans ((put_of_ne hqq).trans (by rw [hqueues]))
    · exact fun q _ x hx => hrest x (hne q x hx)
    · cases hl'
      refine ⟨_, put_self hq0, ?_, by rw [List.map_append, hl]; rfl⟩
      rw [hnil]
      exact IsList.singleton hfilled
  · have hcons : els queue ≠ [] := fun hnil => hf (hlist.first_eq_zero.mpr hnil)
    obtain ⟨xs, ⟨y, w⟩, hxs⟩ := (List.eq_nil_or_concat' (els queue)).resolve_left hcons
    have hlist₁ := hlist.congr fun x hx => hrest x (hne queue x hx)
    rw [hxs] at hlist₁
    obtain ⟨hlast, hy⟩ := hlist₁.last_obj
    rw [if_neg hf, hlast, modify_eq hy, ok_bind, modify_eq he₁, ok_bind]
    have hymem : y ∈ addrs (els queue) := by rw [hxs]; simp
    refine ⟨_, a, rfl, h.update ?_ ?_ (fun ho => by cases ho) (fun l' hl' => ?_) hdisj
      fun h0 => absurd hnone h0⟩
    · intro q hqq
      exact (put_of_ne hqq).trans (by rw [hqueues])
    · intro q hqq x hx
      have hxy : x ≠ y := fun hxy => h.apart q queue hqq x hx (hxy ▸ hymem)
      exact (put_of_ne hxy).trans (hrest x (hne q x hx))
    · cases hl'
      refine ⟨_, put_self hq0, ?_, by rw [List.map_append, hl]; rfl⟩
      rw [hxs]
      exact hlist₁.snoc hfilled (hxs ▸ hnew queue)

/-! ### Removal -/

theorem queueRemove (h : Linked m qs els) {t : Tid} {l : List Tid} (hq : qs queue = some (t :: l)) :
    ∃ m', m.queueRemove queue = .ok (t, m') ∧
      Linked m' (Function.update qs queue (some l)) (Function.update els queue (els queue).tail) := by
  obtain ⟨e, he, hlist, hl⟩ := h.present queue (t :: l) hq
  obtain ⟨⟨x, t'⟩, xs, hxs⟩ := List.exists_cons_of_ne_nil (l := els queue) fun hnil => by
    rw [hnil] at hl
    cases hl
  rw [hxs] at hl hlist ⊢
  obtain ⟨rfl, rfl⟩ := List.cons.inj hl
  obtain ⟨rfl, n, hx, htail⟩ := hlist.tail
  have hnd := List.nodup_cons.mp hlist.nodup
  have hmem : e.first ∈ addrs (els queue) := by
    rw [hxs]
    exact List.mem_cons_self
  have hx0 : e.first ≠ 0 := ne_zero hx
  have hother : ∀ q, q ≠ queue → ∀ a ∈ addrs (els q), a ≠ e.first :=
    fun q hqq a ha hae => h.apart q queue hqq a ha (hae ▸ hmem)
  have hapart : ∀ q, q ≠ queue → ∀ a ∈ addrs (els q), a ∉ addrs xs := by
    intro q hqq a ha ha'
    refine h.apart q queue hqq a ha ?_
    rw [hxs]
    exact List.mem_cons_of_mem _ ha'
  unfold QueueMem.queueRemove
  rw [load_eq he, ok_bind]
  dsimp only
  rw [load_eq hx, ok_bind, modify_eq he, ok_bind, modify_eq hx, ok_bind, modify_eq (put_self hx0),
    ok_bind]
  dsimp only
  by_cases h0 : m.emptyElementPtr = 0
  · -- the cell is kept, and the queue may still point to it as its last one
    rw [if_neg (not_not_intro h0)]
    refine ⟨_, rfl, h.update (fun q hqq => put_of_ne hqq) (fun q hqq a ha => ?_)
      (fun ho => by cases ho) (fun l' hl' => ?_) hapart fun _ => ?_⟩
    · exact (put_of_ne (hother q hqq a ha)).trans (put_of_ne (hother q hqq a ha))
    · cases hl'
      refine ⟨_, put_self (ne_zero he), htail.congr fun a ha => ?_, rfl⟩
      have hax : a ≠ e.first := fun hax => hnd.1 (hax ▸ ha)
      exact (put_of_ne hax).trans (put_of_ne hax)
    · exact ⟨⟨_, put_self hx0⟩, hnd.1, fun q hqq ha => hother q hqq _ ha rfl⟩
  · rw [if_pos h0, free_eq (put_self hx0), ok_bind]
    refine ⟨_, rfl, h.update (fun q hqq => put_of_ne hqq) (fun q hqq a ha => ?_)
      (fun ho => by cases ho) (fun l' hl' => ?_) hapart fun _ => ?_⟩
    · have hax := hother q hqq a ha
      exact (erase_of_ne hax).trans ((put_of_ne hax).trans (put_of_ne hax))
    · cases hl'
      refine ⟨_, put_self (ne_zero he), htail.congr fun a ha => ?_, rfl⟩
      have hax : a ≠ e.first := fun hax => hnd.1 (hax ▸ ha)
      exact (erase_of_ne hax).trans ((put_of_ne hax).trans (put_of_ne hax))
    · obtain ⟨⟨c, hc⟩, hno⟩ := h.kept h0
      have hne : m.emptyElementPtr ≠ e.first := fun hee => hno queue (hee ▸ hmem)
      refine ⟨⟨c, ?_⟩, fun ha => hno queue ?_, fun q _ => hno q⟩
      · exact (erase_of_ne hne).trans ((put_of_ne hne).trans ((put_of_ne hne).trans hc))
      · rw [hxs]
        exact List.mem_cons_of_mem _ ha

/-! ### Deletion -/

theorem deleteLoop_null (left : Nat) (m : QueueMem) : QueueMem.deleteLoop left 0 m = .ok m := by
  cases left with
  | zero => exact if_pos rfl
  | succ left => exact if_pos rfl

/-- The loop frees the cells of the list, each once, and nothing else. -/
theorem deleteLoop_eq : ∀ (left : Nat) (pointer : Addr) (m : QueueMem) (xs : List (Addr × Tid)),
    m.elements.Seg pointer xs 0 → xs.length ≤ left →
    ∃ elements, QueueMem.deleteLoop left pointer m =
        .ok { m with elements := elements, freed := m.freed ++ xs.map Prod.snd } ∧
      ∀ a, elements.obj a = if a ∈ addrs xs then none else m.elements.obj a := by
  intro left
  induction left with
  | zero =>
      intro pointer m xs hseg hlen
      have hnil : xs = [] := List.length_eq_zero_iff.mp (Nat.le_zero.mp hlen)
      subst hnil
      have h0 : pointer = 0 := hseg
      refine ⟨m.elements, ?_, fun a => (if_neg List.not_mem_nil).symm⟩
      rw [h0, deleteLoop_null, List.map_nil, List.append_nil]
  | succ left ih =>
      intro pointer m xs hseg hlen
      cases xs with
      | nil =>
          have h0 : pointer = 0 := hseg
          refine ⟨m.elements, ?_, fun a => (if_neg List.not_mem_nil).symm⟩
          rw [h0, deleteLoop_null, List.map_nil, List.append_nil]
      | cons x xs =>
          have hnew : x.1 ∉ addrs xs := (List.nodup_cons.mp hseg.nodup).1
          obtain ⟨rfl, n, hx, hrest⟩ := hseg
          have hrest' : (m.elements.erase x.1).Seg n xs 0 :=
            hrest.congr fun a ha => erase_of_ne fun hax => hnew (hax ▸ ha)
          obtain ⟨elements, hloop, hobj⟩ := ih n
            { m with elements := m.elements.erase x.1, freed := m.freed ++ [x.2] } xs hrest'
            (Nat.le_of_succ_le_succ hlen)
          refine ⟨elements, ?_, fun a => ?_⟩
          · rw [QueueMem.deleteLoop, if_neg (ne_zero hx), load_eq hx, ok_bind]
            dsimp only
            rw [free_eq hx, ok_bind, hloop, List.append_assoc]
            rfl
          · rw [hobj a, addrs_cons]
            by_cases hax : a = x.1
            · subst hax
              rw [if_neg hnew, if_pos List.mem_cons_self]
              exact erase_self
            · simp only [List.mem_cons, hax, false_or, erase_of_ne hax]

theorem deleteQueue (h : Linked m qs els) {l : List Tid} (hq : qs queue = some l) :
    ∃ m', m.deleteQueue queue = .ok m' ∧ m'.freed = m.freed ++ l ∧
      Linked m' (Function.update qs queue none) (Function.update els queue []) := by
  obtain ⟨e, he, hlist, hl⟩ := h.present queue l hq
  obtain ⟨elements, hloop, hobj⟩ := deleteLoop_eq m.elements.top e.first m (els queue) hlist.seg
    hlist.seg.length_le
  unfold QueueMem.deleteQueue
  rw [load_eq he, ok_bind, hloop, ok_bind]
  dsimp only
  rw [free_eq he, ok_bind]
  refine ⟨_, rfl, congrArg (m.freed ++ ·) hl, h.update (fun q hqq => erase_of_ne hqq)
    (fun q hqq a ha => ?_) (fun _ => ⟨erase_self, rfl⟩) (fun l' hl' => by cases hl')
    (fun _ _ _ _ => List.not_mem_nil) fun h0 => ?_⟩
  · exact (hobj a).trans (if_neg (h.apart q queue hqq a ha))
  · obtain ⟨⟨c, hc⟩, hno⟩ := h.kept h0
    refine ⟨⟨c, ?_⟩, List.not_mem_nil, fun q _ => hno q⟩
    exact ((hobj _).trans (if_neg (hno queue))).trans hc

/-! ### Calls -/

theorem queueIsEmpty (h : Linked m qs els) {l : List Tid} (hq : qs queue = some l) :
    m.queueIsEmpty queue = .ok (if l.isEmpty then 1 else 0) := by
  obtain ⟨e, he, hlist, rfl⟩ := h.present queue l hq
  rw [QueueMem.queueIsEmpty, load_eq he, ok_bind]
  simp only [hlist.first_eq_zero, List.isEmpty_iff, List.map_eq_nil_iff]
  rfl

theorem queueFirst (h : Linked m qs els) {t : Tid} {l : List Tid} (hq : qs queue = some (t :: l)) :
    m.queueFirst queue = .ok t := by
  obtain ⟨e, he, hlist, hl⟩ := h.present queue (t :: l) hq
  obtain ⟨⟨x, t'⟩, xs, hxs⟩ := List.exists_cons_of_ne_nil (l := els queue) fun hnil => by
    rw [hnil] at hl
    cases hl
  rw [hxs] at hl hlist
  obtain ⟨rfl, -⟩ := List.cons.inj hl
  obtain ⟨rfl, n, hx, -⟩ := hlist.tail
  rw [QueueMem.queueFirst, load_eq he, ok_bind, load_eq hx, ok_bind]
  rfl

/-- A call that there is on the lists succeeds in memory, with the same result. -/
theorem call (h : Linked m qs els) {c : QueueCall} {r : QueueResult}
    (hc : qs.call c = some (r, qs')) :
    ∃ m' els', m.call c = .ok (r, m') ∧ Linked m' qs' els' := by
  cases c with
  | create k =>
      rw [Fifos.call] at hc
      split at hc
      case isFalse => cases hc
      case isTrue hk =>
        cases hc
        obtain ⟨m', hm, hl⟩ := h.createQueue hk.1 hk.2
        exact ⟨m', _, by rw [QueueMem.call, hm]; rfl, hl⟩
  | insert queue thread k =>
      obtain ⟨l, hq, heq⟩ := Option.map_eq_some_iff.mp hc
      cases heq
      obtain ⟨m', a, hm, hl⟩ := h.queueInsert hq thread k
      exact ⟨m', _, by rw [QueueMem.call, hm]; rfl, hl⟩
  | remove queue =>
      rw [Fifos.call] at hc
      split at hc
      case h_2 => cases hc
      case h_1 t l hq =>
        cases hc
        obtain ⟨m', hm, hl⟩ := h.queueRemove hq
        exact ⟨m', _, by rw [QueueMem.call, hm]; rfl, hl⟩
  | isEmpty queue =>
      obtain ⟨l, hq, heq⟩ := Option.map_eq_some_iff.mp hc
      cases heq
      exact ⟨m, els, by rw [QueueMem.call, h.queueIsEmpty hq]; rfl, h⟩
  | first queue =>
      obtain ⟨l, hq, heq⟩ := Option.bind_eq_some_iff.mp hc
      obtain ⟨t, ht, heq⟩ := Option.map_eq_some_iff.mp heq
      cases heq
      obtain ⟨l', rfl⟩ := List.head?_eq_some_iff.mp ht
      exact ⟨m, els, by rw [QueueMem.call, h.queueFirst hq]; rfl, h⟩
  | delete queue =>
      obtain ⟨l, hq, heq⟩ := Option.map_eq_some_iff.mp hc
      cases heq
      obtain ⟨m', hm, -, hl⟩ := h.deleteQueue hq
      exact ⟨m', _, by rw [QueueMem.call, hm]; rfl, hl⟩

theorem calls {cs : List QueueCall} {rs : List QueueResult} (h : Linked m qs els)
    (hc : Fifos.calls cs qs = some (rs, qs')) :
    ∃ m' els', QueueMem.calls cs m = .ok (rs, m') ∧ Linked m' qs' els' := by
  induction cs generalizing m qs els rs with
  | nil =>
      cases hc
      exact ⟨m, els, rfl, h⟩
  | cons c cs ih =>
      obtain ⟨⟨r, qs₁⟩, hcall, hrest⟩ := Option.bind_eq_some_iff.mp hc
      obtain ⟨⟨rs', qs₂⟩, hcalls, heq⟩ := Option.bind_eq_some_iff.mp hrest
      cases heq
      obtain ⟨m₁, els₁, hm, h₁⟩ := h.call hcall
      obtain ⟨m', els', hms, h'⟩ := ih h₁ hcalls
      refine ⟨m', els', ?_, h'⟩
      rw [QueueMem.calls, hm, ok_bind]
      dsimp only
      rw [hms, ok_bind]
      rfl

/-- The last cell of an emptied queue may be anything. -/
theorem withLast (h : Linked m qs els) (hq : qs queue = some []) (p : Addr) :
    Linked (m.withLast queue p) qs els := by
  obtain ⟨e, he, hlist, hl⟩ := h.present queue [] hq
  have hnil : els queue = [] := List.map_eq_nil_iff.mp hl
  have hupdate : Linked (m.withLast queue p) (Function.update qs queue (some []))
      (Function.update els queue []) := by
    rw [QueueMem.withLast, he]
    refine h.update (fun q hqq => put_of_ne hqq) (fun _ _ _ _ => rfl) (fun ho => by cases ho)
      (fun l hl => ?_) (fun _ _ _ _ => List.not_mem_nil) fun h0 => ?_
    · cases hl
      exact ⟨_, put_self (ne_zero he), IsList.of_first (hlist.first_eq_zero.mpr hnil), rfl⟩
    · exact ⟨(h.kept h0).1, List.not_mem_nil, fun q _ => (h.kept h0).2 q⟩
  rwa [← hq, Function.update_eq_self, ← hnil, Function.update_eq_self] at hupdate

end Linked

/--
The queues are independent lists.

Every sequence of calls that makes sense on lists succeeds in memory, where a cell that is not
there cannot be used, and returns what it returns on the lists; afterwards each queue has cells of
its own.  Of an emptied queue the pointer to its last cell can be set to anything, `NULL` too, and
whatever follows succeeds and returns the same.
-/
theorem queues_are_fifo {cs : List QueueCall} {rs : List QueueResult} {qs : Fifos}
    (h : Fifos.calls cs .start = some (rs, qs)) :
    ∃ m els, QueueMem.calls cs .start = .ok (rs, m) ∧ Linked m qs els ∧
      ∀ queue p, qs queue = some [] → ∀ cs' rs' qs', Fifos.calls cs' qs = some (rs', qs') →
        ∃ m' els', QueueMem.calls cs' (m.withLast queue p) = .ok (rs', m') ∧
          Linked m' qs' els' := by
  obtain ⟨m, els, hm, hl⟩ := Linked.start.calls h
  exact ⟨m, els, hm, hl, fun queue p hq cs' rs' qs' h' => (hl.withLast hq p).calls h'⟩

/-- A cell goes from a queue that it has emptied to another queue, and threads come out of both in
the order in which they were put in. -/
theorem queues_are_fifo_recycled :
    ∃ rs m, rs = [.queue 1, .queue 2, .unit, .thread 7, .unit, .unit, .unit, .thread 8, .thread 9,
        .thread 5] ∧
      QueueMem.calls [.create ⟨1, ⟨0, 0⟩⟩, .create ⟨2, ⟨0, 0⟩⟩, .insert 1 7 ⟨3, ⟨0, 0⟩⟩, .remove 1,
        .insert 2 8 ⟨3, ⟨0, 0⟩⟩, .insert 1 9 ⟨4, ⟨0, 0⟩⟩, .insert 1 5 ⟨4, ⟨0, 0⟩⟩, .remove 2,
        .remove 1, .remove 1] .start = .ok (rs, m) := by
  have hrun : ∃ qs, Fifos.calls [.create ⟨1, ⟨0, 0⟩⟩, .create ⟨2, ⟨0, 0⟩⟩,
      .insert 1 7 ⟨3, ⟨0, 0⟩⟩, .remove 1, .insert 2 8 ⟨3, ⟨0, 0⟩⟩, .insert 1 9 ⟨4, ⟨0, 0⟩⟩,
      .insert 1 5 ⟨4, ⟨0, 0⟩⟩, .remove 2, .remove 1, .remove 1] .start =
        some ([.queue 1, .queue 2, .unit, .thread 7, .unit, .unit, .unit, .thread 8, .thread 9,
          .thread 5], qs) := ⟨_, rfl⟩
  obtain ⟨qs, hqs⟩ := hrun
  obtain ⟨m, -, hm, -⟩ := queues_are_fifo hqs
  exact ⟨_, m, rfl, hm⟩

end Sthreads.User
