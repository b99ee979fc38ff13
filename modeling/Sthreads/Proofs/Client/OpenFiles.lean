/-
The open files of the client library are a well-formed list.

`queue_node_remove` leaves the first cell to `queue_dequeue`, which decides by its two pointers
whether it is the only one, and goes after the others itself with the cell before in hand.
Whichever cell leaves, the cells left are a list again.  `my_open` and `my_close` follow it with a
counter, and what they do to the memory is what the library does with its list of descriptors.
-/
import Sthreads.Client.OpenFiles
import Sthreads.Lib.Run
import Sthreads.Proofs.Client.Pieces

namespace Sthreads.Client

open Heap Prog Snfs

namespace FileMem

/-- `Open_files_list` has these cells. -/
def Cells (m : FileMem) (xs : List (Addr × Addr)) : Prop :=
  ∃ e, m.queues.obj m.openFilesList = some e ∧ m.elements.IsList e xs

/-- The number of the file of a descriptor -/
def fileIdAt (m : FileMem) (fd : Addr) : Option Nat := (m.descs.obj fd).map FileDesc.fileId

/-- `m'` is what is left of `m` when the cell `x` has been freed, and no other. -/
structure Unlinked (m m' : FileMem) (x : Addr) : Prop where
  gone : m'.elements.obj x = none
  others : ∀ a, a ≠ x → (m'.elements.obj a).isSome = (m.elements.obj a).isSome
  descs : m'.descs = m.descs
  openFilesList : m'.openFilesList = m.openFilesList
  openFiles : m'.openFiles = m.openFiles

variable {m m' : FileMem} {xs ys : List (Addr × Addr)} {e : Ends} {x y v w fd : Addr} {id : Nat}

/-! ### `queue_enqueue` -/

theorem queueEnqueue_eq (h : m.Cells xs) (hfd : fd ≠ 0) (k : Chunk QueueElement) :
    ∃ m' a, m.queueEnqueue m.openFilesList fd k = .ok m' ∧ m'.Cells (xs ++ [(a, fd)]) ∧
      m'.descs = m.descs ∧ m'.openFilesList = m.openFilesList ∧ m'.openFiles = m.openFiles := by
  obtain ⟨e, he, hlist⟩ := h
  have hq0 : m.openFilesList ≠ 0 := ne_zero he
  have ha0 : m.elements.fresh k.addr ≠ 0 := fresh_ne_zero _ _
  unfold queueEnqueue
  rw [if_neg fun hc => hc.elim hq0 hfd]
  dsimp only [malloc]
  generalize ha : m.elements.fresh k.addr = a at ha0
  have hnone : m.elements.obj a = none := ha ▸ obj_fresh _ _
  have hne : ∀ z ∈ addrs xs, z ≠ a := by
    intro z hz hza
    obtain ⟨c, hc⟩ := hlist.seg.live hz
    rw [hza, hnone] at hc
    cases hc
  have hput : (m.elements.put a k.there).obj a = some k.there := put_self ha0
  rw [modify_eq hput, ok_bind, modify_eq (put_self ha0), ok_bind, load_eq he, ok_bind]
  generalize hels : ((m.elements.put a k.there).put a { k.there with val := fd }).put a
    ⟨fd, 0⟩ = els
  have hfilled : els.obj a = some ⟨fd, 0⟩ := hels ▸ put_self ha0
  have hrest : ∀ z, z ≠ a → els.obj z = m.elements.obj z := fun z hz => by
    rw [← hels, put_of_ne hz, put_of_ne hz, put_of_ne hz]
  by_cases hf : e.first = 0
  · have hnil : xs = [] := hlist.first_eq_zero.mp hf
    subst hnil
    rw [if_pos hf, modify_eq he, ok_bind, modify_eq (put_self hq0), ok_bind]
    exact ⟨_, a, rfl, ⟨_, put_self hq0, IsList.singleton hfilled⟩, rfl, rfl, rfl⟩
  · have hcons : xs ≠ [] := fun hnil => hf (hlist.first_eq_zero.mpr hnil)
    obtain ⟨us, ⟨y, w⟩, rfl⟩ := (List.eq_nil_or_concat' xs).resolve_left hcons
    have hlist₁ : els.IsList e (us ++ [(y, w)]) := hlist.congr fun z hz => hrest z (hne z hz)
    obtain ⟨hlast, hy⟩ := hlist₁.last_obj
    rw [if_neg hf, hlast, modify_eq hy, ok_bind, modify_eq he, ok_bind]
    refine ⟨_, a, rfl, ⟨_, put_self hq0, hlist₁.snoc hfilled fun hmem => hne a hmem rfl⟩, rfl, rfl,
      rfl⟩

/-! ### `queue_node_remove` -/

/-- The first cell leaves; if it is the only one, both pointers are cleared. -/
theorem queueDequeue_eq (h : m.Cells ((x, v) :: xs)) :
    ∃ m', m.queueDequeue m.openFilesList = .ok (v, m') ∧ m'.Cells xs ∧ m.Unlinked m' x := by
  obtain ⟨e, he, hlist⟩ := h
  obtain ⟨rfl, n, hx, htail⟩ := hlist.tail
  have hq0 : m.openFilesList ≠ 0 := ne_zero he
  have hnew : e.first ∉ addrs xs := (List.nodup_cons.mp hlist.nodup).1
  have hends : ∃ qs e', m.dequeueEnds m.openFilesList e.first e = .ok qs ∧
      qs.obj m.openFilesList = some e' ∧ m.elements.IsList e' xs := by
    unfold dequeueEnds
    by_cases honly : e.first = e.last
    · have hnil : xs = [] := by
        by_contra hne
        obtain ⟨us, z, rfl⟩ := (List.eq_nil_or_concat' xs).resolve_left hne
        have hz : e.last = z.1 := htail.last z (List.getLast?_concat ..)
        exact hnew (by simp [honly, hz])
      subst hnil
      rw [if_pos honly, modify_eq he, ok_bind, modify_eq (put_self hq0)]
      exact ⟨_, _, rfl, put_self hq0, IsList.nil 0⟩
    · rw [if_neg honly, load_eq hx, ok_bind, modify_eq he]
      exact ⟨_, _, rfl, put_self hq0, htail⟩
  obtain ⟨qs, e', hqs, he', hlist'⟩ := hends
  unfold queueDequeue
  rw [if_neg hq0, load_eq he, ok_bind, if_neg (ne_zero hx)]
  dsimp only
  rw [hqs, ok_bind, load_eq hx, ok_bind, free_eq hx, ok_bind]
  refine ⟨_, rfl, ⟨e', he', hlist'.congr fun z hz => ?_⟩, erase_self, fun a ha => ?_, rfl, rfl, rfl⟩
  · exact erase_of_ne fun hze => hnew (hze ▸ hz)
  · exact congrArg Option.isSome (erase_of_ne ha)

/-- A later cell leaves; if it is the last one, the cell before it becomes the last. -/
theorem unlinkNode_eq (h : m.Cells (xs ++ (y, w) :: (x, v) :: ys)) :
    ∃ m', m.unlinkNode m.openFilesList y x = .ok (v, m') ∧ m'.Cells (xs ++ (y, w) :: ys) ∧
      m.Unlinked m' x := by
  obtain ⟨e, he, hlist⟩ := h
  obtain ⟨n, hy, hx, -, hlast, hlist'⟩ := hlist.unlink
  have hnd := hlist.nodup
  simp only [addrs_append, addrs_cons, List.nodup_append, List.nodup_cons, List.mem_cons,
    not_or] at hnd
  obtain ⟨-, ⟨⟨hyx, -⟩, hxys, -⟩, hdis⟩ := hnd
  have hnew : x ∉ addrs (xs ++ (y, w) :: ys) := by
    rw [addrs_append, addrs_cons, List.mem_append, List.mem_cons]
    rintro (hmem | rfl | hmem)
    · exact hdis x hmem x (Or.inr (Or.inl rfl)) rfl
    · exact hyx rfl
    · exact hxys hmem
  have hx' : (m.elements.put y ⟨w, n⟩).obj x = some ⟨v, n⟩ := (put_of_ne (Ne.symm hyx)).trans hx
  have hcells : ∀ z, z ≠ x → ((m.elements.put y ⟨w, n⟩).erase x).obj z =
      (m.elements.put y ⟨w, n⟩).obj z := fun z hz => erase_of_ne hz
  have hends : ∃ qs, m.unlinkEnds m.openFilesList y x e = .ok qs ∧
      qs.obj m.openFilesList = some ⟨e.first, if ys = [] then y else e.last⟩ := by
    unfold unlinkEnds
    by_cases hys : ys = []
    · rw [if_pos (hlast.mpr hys), if_pos hys, modify_eq he]
      exact ⟨_, rfl, put_self (ne_zero he)⟩
    · rw [if_neg fun hc => hys (hlast.mp hc), if_neg hys]
      exact ⟨_, rfl, he⟩
  obtain ⟨qs, hqs, hobj⟩ := hends
  unfold unlinkNode
  rw [load_eq he, ok_bind]
  rw [hqs, ok_bind, load_eq hx, ok_bind, modify_eq hy, ok_bind, load_eq hx', ok_bind,
    free_eq hx', ok_bind]
  refine ⟨_, rfl, ⟨_, hobj, hlist'.congr fun z hz => hcells z fun hzx => hnew (hzx ▸ hz)⟩,
    erase_self, fun a ha => ?_, rfl, rfl, rfl⟩
  exact (congrArg Option.isSome (hcells a ha)).trans (put_isSome hy _ a)

/-- The loop comes to the end of a list without this number. -/
theorem nodeRemoveLoop_none {left : Nat} {aux2 : Addr} (aux1 : Addr)
    (hseg : m.elements.Seg aux2 xs 0) (hlen : xs.length ≤ left)
    (hno : ∀ z ∈ xs, ∃ d, m.descs.obj z.2 = some d ∧ d.fileId ≠ id) :
    nodeRemoveLoop m.openFilesList id left aux1 aux2 m = .ok (0, m) := by
  induction left generalizing xs aux1 aux2 with
  | zero =>
      obtain rfl := List.length_eq_zero_iff.mp (Nat.le_zero.mp hlen)
      exact if_pos hseg
  | succ left ih =>
      cases xs with
      | nil => exact if_pos hseg
      | cons z xs =>
          obtain ⟨rfl, n, hz, hrest⟩ := hseg
          obtain ⟨d, hd, hne⟩ := hno z List.mem_cons_self
          rw [nodeRemoveLoop, if_neg (ne_zero hz), load_eq hz, ok_bind]
          dsimp only
          rw [load_eq hd, ok_bind, if_neg hne]
          exact ih z.1 hrest (Nat.le_of_succ_le_succ hlen)
            fun z' hz' => hno z' (List.mem_cons_of_mem z hz')

/-- The loop comes to the first cell with this number, the one before it in hand. -/
theorem nodeRemoveLoop_some {left : Nat} {n : Addr} {mid : List (Addr × Addr)} {d : FileDesc}
    (h : m.Cells (xs ++ (y, w) :: (mid ++ (x, v) :: ys))) (hy : m.elements.obj y = some ⟨w, n⟩)
    (hlen : mid.length < left)
    (hno : ∀ z ∈ mid, ∃ d, m.descs.obj z.2 = some d ∧ d.fileId ≠ id)
    (hd : m.descs.obj v = some d) (hid : d.fileId = id) :
    ∃ m', nodeRemoveLoop m.openFilesList id left y n m = .ok (v, m') ∧
      m'.Cells (xs ++ (y, w) :: (mid ++ ys)) ∧ m.Unlinked m' x := by
  induction mid generalizing left xs y w n with
  | nil =>
      obtain ⟨left, rfl⟩ := Nat.exists_eq_succ_of_ne_zero (Nat.ne_of_gt hlen)
      obtain ⟨m', hm', hcells, hun⟩ := unlinkNode_eq h
      obtain ⟨e, -, hlist⟩ := h
      obtain ⟨n', hy', hx, -⟩ := hlist.unlink
      rw [hy, Option.some.injEq, Link.mk.injEq] at hy'
      obtain ⟨-, rfl⟩ := hy'
      refine ⟨m', ?_, hcells, hun⟩
      rw [nodeRemoveLoop, if_neg (ne_zero hx), load_eq hx, ok_bind]
      dsimp only
      rw [load_eq hd, ok_bind, if_pos hid]
      exact hm'
  | cons z mid ih =>
      obtain ⟨left, rfl⟩ := Nat.exists_eq_succ_of_ne_zero (Nat.ne_of_gt (Nat.zero_lt_of_lt hlen))
      have hz : ∃ k, n = z.1 ∧ m.elements.obj z.1 = some ⟨z.2, k⟩ := by
        obtain ⟨e, -, hlist⟩ := h
        obtain ⟨a, -, -, n', hy', hn', k, hk, -⟩ := seg_append.mp hlist.seg
        rw [hy, Option.some.injEq, Link.mk.injEq] at hy'
        obtain ⟨-, rfl⟩ := hy'
        exact ⟨k, hn', hk⟩
      obtain ⟨k, rfl, hk⟩ := hz
      obtain ⟨d', hd', hne⟩ := hno z List.mem_cons_self
      have hassoc : ∀ zs, xs ++ (y, w) :: (z :: mid ++ zs) = (xs ++ [(y, w)]) ++ z :: (mid ++ zs) := by
        intro zs
        simp
      rw [hassoc] at h
      obtain ⟨m', hm', hcells, hun⟩ := ih h hk (Nat.lt_of_succ_lt_succ hlen)
        fun z' hz' => hno z' (List.mem_cons_of_mem z hz')
      refine ⟨m', ?_, ?_, hun⟩
      · rw [nodeRemoveLoop, if_neg (ne_zero hk), load_eq hk, ok_bind]
        dsimp only
        rw [load_eq hd', ok_bind, if_neg hne]
        exact hm'
      · rw [hassoc]
        exact hcells

/-- Every cell has a descriptor. -/
def Described (m : FileMem) (xs : List (Addr × Addr)) : Prop :=
  ∀ x ∈ xs, ∃ d, m.descs.obj x.2 = some d

theorem fileIdAt_eq {d : FileDesc} (hd : m.descs.obj fd = some d) :
    m.fileIdAt fd = some d.fileId := by
  rw [fileIdAt, hd]
  rfl

theorem queueNodeRemove_none (h : m.Cells xs) (hdesc : m.Described xs)
    (hno : ∀ x ∈ xs, m.fileIdAt x.2 ≠ some id) :
    m.queueNodeRemove m.openFilesList id = .ok (0, m) := by
  have hne : ∀ x ∈ xs, ∃ d, m.descs.obj x.2 = some d ∧ d.fileId ≠ id := by
    intro x hx
    obtain ⟨d, hd⟩ := hdesc x hx
    refine ⟨d, hd, fun hid => hno x hx ?_⟩
    rw [fileIdAt_eq hd, hid]
  obtain ⟨e, he, hlist⟩ := h
  unfold queueNodeRemove
  rw [load_eq he, ok_bind, if_neg (ne_zero he)]
  cases xs with
  | nil => exact if_pos hlist.seg
  | cons x xs =>
      obtain ⟨hf, n, hx, htail⟩ := hlist.tail
      obtain ⟨d, hd, hid⟩ := hne x List.mem_cons_self
      dsimp only
      rw [hf, if_neg (ne_zero hx), load_eq hx, ok_bind]
      dsimp only
      rw [load_eq hd, ok_bind, if_neg hid]
      exact nodeRemoveLoop_none x.1 htail.seg htail.seg.length_le
        fun z hz => hne z (List.mem_cons_of_mem x hz)

theorem queueNodeRemove_some (h : m.Cells (xs ++ (x, v) :: ys))
    (hdesc : m.Described (xs ++ (x, v) :: ys)) (hid : m.fileIdAt v = some id)
    (hno : ∀ z ∈ xs, m.fileIdAt z.2 ≠ some id) :
    ∃ m', m.queueNodeRemove m.openFilesList id = .ok (v, m') ∧ m'.Cells (xs ++ ys) ∧
      m.Unlinked m' x := by
  obtain ⟨d, hd, hdid⟩ := Option.map_eq_some_iff.mp hid
  have hne : ∀ z ∈ xs, ∃ d, m.descs.obj z.2 = some d ∧ d.fileId ≠ id := by
    intro z hz
    obtain ⟨d, hd⟩ := hdesc z (List.mem_append_left _ hz)
    refine ⟨d, hd, fun hc => hno z hz ?_⟩
    rw [fileIdAt_eq hd, hc]
  have ⟨e, he, hlist⟩ := h
  unfold queueNodeRemove
  rw [load_eq he, ok_bind, if_neg (ne_zero he)]
  cases xs with
  | nil =>
      obtain ⟨hf, n, hx, -⟩ := hlist.tail
      dsimp only
      rw [hf, if_neg (ne_zero hx), load_eq hx, ok_bind]
      dsimp only
      rw [load_eq hd, ok_bind, if_pos hdid]
      exact queueDequeue_eq h
  | cons z zs =>
      obtain ⟨hf, n, hz, htail⟩ := hlist.tail
      obtain ⟨d', hd', hid'⟩ := hne z List.mem_cons_self
      have hlen : (zs ++ (x, v) :: ys).length ≤ m.elements.top := htail.seg.length_le
      rw [List.length_append, List.length_cons] at hlen
      dsimp only
      rw [hf, if_neg (ne_zero hz), load_eq hz, ok_bind]
      dsimp only
      rw [load_eq hd', ok_bind, if_neg hid']
      have h' : m.Cells ([] ++ z :: (zs ++ (x, v) :: ys)) := h
      exact nodeRemoveLoop_some h' hz (by omega)
        (fun z' hz' => hne z' (List.mem_cons_of_mem z hz')) hd hdid

/-! ### `my_open` and `my_close` -/

/-- The memory holds this library: the cells of the list have its descriptors, each one of its
own. -/
structure Stores (m : FileMem) (lib : Lib) (xs : List (Addr × Addr)) : Prop where
  cells : m.Cells xs
  descs : xs.map (fun x => m.descs.obj x.2) = lib.openFilesList.map some
  own : (xs.map Prod.snd).Nodup
  count : m.openFiles = lib.openFiles
  length : lib.openFiles = lib.openFilesList.length
  limit : lib.openFiles ≤ 10

namespace Stores

variable {lib : Lib}

theorem length_eq (hs : m.Stores lib xs) : m.openFiles = xs.length := by
  have hlen := congrArg List.length hs.descs
  rw [List.length_map, List.length_map] at hlen
  rw [hs.count, hs.length, hlen]

theorem described (hs : m.Stores lib xs) : m.Described xs := by
  intro x hx
  have hmem : m.descs.obj x.2 ∈ lib.openFilesList.map some := by
    rw [← hs.descs]
    exact List.mem_map_of_mem hx
  obtain ⟨d, -, hd⟩ := List.mem_map.mp hmem
  exact ⟨d, hd.symm⟩

theorem init (k : Chunk Ends) : ∃ m, initLib k = .ok m ∧ m.Stores ⟨[], 0⟩ [] := by
  have hq0 : (Heap.empty : Heap Ends).fresh k.addr ≠ 0 := fresh_ne_zero _ _
  unfold initLib queueCreate
  dsimp only [malloc]
  rw [modify_eq (put_self hq0), ok_bind, modify_eq (put_self hq0)]
  refine ⟨_, rfl, ⟨_, put_self hq0, IsList.nil 0⟩, rfl, List.nodup_nil, rfl, rfl, Nat.zero_le _⟩

theorem opened (hs : m.Stores lib xs) (hlt : lib.openFiles < 10) (kd : Chunk FileDesc)
    (ke : Chunk QueueElement) (file : UInt32) (fsize : Nat) :
    ∃ m' xs', m.opened kd ke file fsize = .ok (asInt file.toNat, m') ∧
      m'.Stores (lib.enqueue ⟨file.toNat, fsize, 0, 0⟩) xs' := by
  unfold FileMem.opened
  dsimp only [malloc]
  generalize hfd : m.descs.fresh kd.addr = fd
  have hfd0 : fd ≠ 0 := hfd ▸ fresh_ne_zero _ _
  have hnone : m.descs.obj fd = none := hfd ▸ obj_fresh _ _
  have hne : ∀ x ∈ xs, x.2 ≠ fd := by
    intro x hx hxf
    obtain ⟨d, hd⟩ := hs.described x hx
    rw [hxf, hnone] at hd
    cases hd
  have hput : (m.descs.put fd kd.there).obj fd = some kd.there := put_self hfd0
  rw [modify_eq hput, ok_bind, modify_eq (put_self hfd0), ok_bind, modify_eq (put_self hfd0),
    ok_bind, modify_eq (put_self hfd0), ok_bind]
  generalize hds : Heap.put _ fd (⟨file.toNat, fsize, 0, 0⟩ : FileDesc) = ds
  have hnew : ds.obj fd = some ⟨file.toNat, fsize, 0, 0⟩ := hds ▸ put_self hfd0
  have hold : ∀ x ∈ xs, ds.obj x.2 = m.descs.obj x.2 := fun x hx => by
    have hx' := hne x hx
    rw [← hds, put_of_ne hx', put_of_ne hx', put_of_ne hx', put_of_ne hx', put_of_ne hx']
  obtain ⟨m', a, hm', hcells, hdescs, hlist, hcount⟩ :=
    queueEnqueue_eq (m := { m with descs := ds }) hs.cells hfd0 ke
  rw [hm', ok_bind]
  refine ⟨_, xs ++ [(a, fd)], rfl, ?_, ?_, ?_, ?_, ?_, hlt⟩
  · obtain ⟨e, he, hl⟩ := hcells
    exact ⟨e, he, hl⟩
  · change _ = (lib.openFilesList ++ [_]).map some
    rw [List.map_append, List.map_append, ← hs.descs]
    refine congrArg₂ (· ++ ·) (List.map_congr_left fun x hx => ?_) ?_
    · exact (congrArg (Heap.obj · x.2) hdescs).trans (hold x hx)
    · exact congrArg (fun o => [o]) ((congrArg (Heap.obj · fd) hdescs).trans hnew)
  · rw [List.map_append, List.nodup_append]
    refine ⟨hs.own, List.nodup_singleton fd, fun v hv w hw => ?_⟩
    obtain ⟨x, hx, rfl⟩ := List.mem_map.mp hv
    rw [List.mem_singleton.mp hw]
    exact hne x hx
  · change m'.openFiles + 1 = ((lib.openFiles + 1 : Nat) : Int)
    rw [hcount, show ({ m with descs := ds } : FileMem).openFiles = m.openFiles from rfl, hs.count]
    rfl
  · change lib.openFiles + 1 = (lib.openFilesList ++ [_]).length
    rw [List.length_append, hs.length]
    rfl

/-- A cell has left the list, and its descriptor is freed. -/
theorem closed {lib' : Lib} {a v : Addr} (hs : m.Stores lib (xs ++ (a, v) :: ys))
    (hcells : m'.Cells (xs ++ ys)) (hun : m.Unlinked m' a)
    (hdescs : (xs ++ ys).map (fun x => m.descs.obj x.2) = lib'.openFilesList.map some)
    (hcount : lib'.openFiles = lib.openFiles - 1) :
    ∃ descs, m'.descs.free v = .ok descs ∧ v ≠ 0 ∧
      ({ m' with descs := descs, openFiles := m'.openFiles - 1 } : FileMem).Stores lib'
        (xs ++ ys) := by
  obtain ⟨d, hd⟩ := hs.described (a, v) (List.mem_append_right _ List.mem_cons_self)
  have hd' : m'.descs.obj v = some d := (congrArg (Heap.obj · v) hun.descs).trans hd
  have hown := hs.own
  rw [List.map_append, List.map_cons, List.nodup_append] at hown
  obtain ⟨hxs, hys, hdis⟩ := hown
  obtain ⟨hv, hys⟩ := List.nodup_cons.mp hys
  have hne : ∀ z ∈ xs ++ ys, z.2 ≠ v := by
    intro z hz hzv
    rcases List.mem_append.mp hz with hz | hz
    · exact hdis z.2 (List.mem_map_of_mem hz) v List.mem_cons_self hzv
    · have hmem : z.2 ∈ ys.map Prod.snd := List.mem_map_of_mem hz
      exact hv (hzv ▸ hmem)
  have hlen := congrArg List.length hdescs
  have hall := hs.length_eq
  have hle := hs.limit
  rw [hs.count] at hall
  rw [List.length_map, List.length_map, List.length_append] at hlen
  rw [List.length_append, List.length_cons] at hall
  refine ⟨_, free_eq hd', ne_zero hd', hcells, ?_, ?_, ?_, ?_, ?_⟩
  · rw [← hdescs]
    exact List.map_congr_left fun z hz =>
      (erase_of_ne (hne z hz)).trans (congrArg (Heap.obj · z.2) hun.descs)
  · rw [List.map_append, List.nodup_append]
    exact ⟨hxs, hys, fun u hu w hw => hdis u hu w (List.mem_cons_of_mem v hw)⟩
  · change m'.openFiles - 1 = _
    rw [hun.openFiles, hs.count, hcount]
    omega
  · omega
  · omega

/-- The first cell whose descriptor has the number leaves, with the descriptor. -/
theorem myClose (hs : m.Stores lib xs) (id : Nat) :
    ∃ m' xs', m.myClose id = .ok ((Client.myClose id lib).1, m') ∧
      m'.Stores (Client.myClose id lib).2 xs' := by
  let has : Option FileDesc → Bool := fun o => o.any (·.fileId == id)
  have hp : ∀ x ∈ xs, (has (m.descs.obj x.2) = true ↔ m.fileIdAt x.2 = some id) := by
    intro x hx
    obtain ⟨d, hd⟩ := hs.described x hx
    rw [fileIdAt_eq hd, hd]
    simp [has]
  have hany : (xs.any fun x => has (m.descs.obj x.2)) =
      lib.openFilesList.any (·.fileId == id) := by
    have h := congrArg (List.any · has) hs.descs
    simp only [List.any_map] at h
    exact h
  unfold FileMem.myClose
  rw [Client.myClose, Lib.remove, ← hany]
  by_cases hfound : (xs.any fun x => has (m.descs.obj x.2)) = true
  · obtain ⟨x, hx, hxid⟩ := List.any_eq_true.mp hfound
    obtain ⟨⟨a, v⟩, us, vs, hno, hid, rfl, herase⟩ :=
      List.exists_of_eraseP (p := fun x : Addr × Addr => has (m.descs.obj x.2)) hx hxid
    obtain ⟨m', hm', hcells, hun⟩ := queueNodeRemove_some hs.cells hs.described
      ((hp (a, v) (by simp)).mp hid) fun z hz hc =>
        hno z hz ((hp z (List.mem_append_left _ hz)).mpr hc)
    have hdescs := congrArg (List.eraseP has) hs.descs
    rw [List.eraseP_map, List.eraseP_map] at hdescs
    have hleft : (us ++ vs).map (fun x => m.descs.obj x.2) =
        (⟨lib.openFilesList.eraseP (·.fileId == id), lib.openFiles - 1⟩ : Lib).openFilesList.map
          some := herase ▸ hdescs
    obtain ⟨descs, hfree, hv0, hs'⟩ := hs.closed hcells hun hleft rfl
    rw [hm', ok_bind, if_pos hfound]
    dsimp only
    rw [if_neg hv0, hfree, ok_bind]
    exact ⟨_, _, rfl, hs'⟩
  · rw [if_neg hfound, queueNodeRemove_none hs.cells hs.described fun x hx hc => hfound
      (List.any_eq_true.mpr ⟨x, hx, (hp x hx).mpr hc⟩), ok_bind]
    exact ⟨m, xs, rfl, hs⟩

end Stores

end FileMem

/-! ### Calls -/

section

variable {σ : Type} {h : Handler ApiCall (fun _ => Option Results × UInt32) Halt σ} {lib : Lib}

/-- What `my_open` does with what it has asked of the server, over the list of descriptors -/
def Lib.answered (lib : Lib) : Option (UInt32 × Nat) → Int × Lib
  | none => (-1, lib)
  | some (file, fsize) => (asInt file.toNat, lib.enqueue ⟨file.toNat, fsize, 0, 0⟩)

theorem myOpen_eq (name : CStr) (flags : Int) (hslots : ¬ lib.openFiles ≥ 10)
    (hparse : ¬ (!myparse name) = true) :
    myOpen name flags lib = openOnServer name flags >>= fun r => pure (lib.answered r) := by
  unfold myOpen openOnServer
  rw [if_neg hslots, if_neg hparse]
  generalize splitName name = parts
  obtain ⟨i, newfilename, newdirname⟩ := parts
  dsimp only
  rw [Prog.bind_assoc]
  refine congrArg (snfsLookup name >>= ·) (funext fun r => ?_)
  obtain ⟨found, file, fsize⟩ := r
  cases found with
  | true => rfl
  | false =>
      dsimp only
      rw [if_neg Bool.false_ne_true, if_neg Bool.false_ne_true, Prog.bind_assoc]
      refine congrArg (snfsLookup newdirname >>= ·) (funext fun r => ?_)
      obtain ⟨found, dir, fsize⟩ := r
      dsimp only
      by_cases hflags : flags = 1
      · rw [if_pos hflags, if_pos hflags, Prog.bind_assoc]
        refine congrArg (snfsCreate _ newfilename >>= ·) (funext fun r => ?_)
        cases r with
        | none => rfl
        | some file => rfl
      · rw [if_neg hflags, if_neg hflags]
        rfl

namespace FileMem

variable {m : FileMem} {xs : List (Addr × Addr)}

/-- A call over the list of descriptors and the call in memory: neither returns, or they return the
same and the memory holds the library. -/
inductive Agree : Except Halt (((Int × List UInt8) × Lib) × σ) →
    Except Halt (Except Fault (Int × FileMem) × σ) → Prop
  | ended (e : Halt) : Agree (.error e) (.error e)
  | returned (r : Int) (bytes : List UInt8) (s : σ) {m : FileMem} {lib : Lib}
      {xs : List (Addr × Addr)} (hs : m.Stores lib xs) :
      Agree (.ok (((r, bytes), lib), s)) (.ok (.ok (r, m), s))

theorem Stores.agree_open (hs : m.Stores lib xs) (name : CStr) (flags : Int) (kd : Chunk FileDesc)
    (ke : Chunk QueueElement) (s : σ) :
    Agree (run h ((UserCall.openFile name flags).prog lib) s)
      (run h (m.myOpen name flags kd ke) s) := by
  have hcount := hs.count
  change Agree (run h (Client.myOpen name flags lib >>= fun r => pure ((r.1, []), r.2)) s) _
  by_cases hslots : lib.openFiles ≥ 10
  · have hslots' : m.openFiles ≥ 10 := by omega
    rw [Client.myOpen, if_pos hslots, FileMem.myOpen, if_pos hslots']
    exact .returned (-1) [] s hs
  have hslots' : ¬ m.openFiles ≥ 10 := by omega
  by_cases hparse : (!myparse name) = true
  · rw [Client.myOpen, if_neg hslots, if_pos hparse, FileMem.myOpen, if_neg hslots', if_pos hparse]
    exact .returned (-1) [] s hs
  rw [myOpen_eq name flags hslots hparse, FileMem.myOpen, if_neg hslots', if_neg hparse,
    Prog.bind_assoc, run_bind, run_bind]
  cases run h (openOnServer name flags) s with
  | error e => exact .ended e
  | ok x =>
      obtain ⟨answer, s₁⟩ := x
      cases answer with
      | none => exact .returned (-1) [] s₁ hs
      | some found =>
          obtain ⟨file, fsize⟩ := found
          obtain ⟨m', xs', hm', hs'⟩ := hs.opened (Nat.lt_of_not_le hslots) kd ke file fsize
          dsimp only
          rw [hm']
          exact .returned (asInt file.toNat) [] s₁ hs'

/-- A call in memory does what it does over the list of descriptors. -/
theorem Stores.call (hs : m.Stores lib xs) (c : FileCall) (s : σ) :
    Agree (run h (c.user.prog lib) s) (m.call h s c) := by
  cases c with
  | openFile name flags kd ke => exact hs.agree_open name flags kd ke s
  | close id =>
      obtain ⟨m', xs', hm', hs'⟩ := hs.myClose id
      change Agree _ (.ok (m.myClose id, s))
      rw [hm']
      exact .returned _ [] s hs'

theorem Stores.step {s s' : σ} {m' : FileMem} {c : FileCall} (hs : m.Stores lib xs)
    (hstep : FileMem.step h (m, s) c = some (m', s')) : ∃ lib' xs', m'.Stores lib' xs' := by
  have hagree := hs.call (h := h) c s
  unfold FileMem.step at hstep
  dsimp only at hstep
  generalize m.call h s c = y at hagree hstep
  generalize run h (c.user.prog lib) s = z at hagree
  cases hagree with
  | ended e => cases hstep
  | returned r bytes s₁ hs' =>
      cases hstep
      exact ⟨_, _, hs'⟩

/-- The list of open files is well formed. -/
structure WellFormed (m : FileMem) (xs : List (Addr × Addr)) : Prop where
  /-- The cells are one after the other, and `NULL` follows the last. -/
  ends : ∃ e, m.queues.obj m.openFilesList = some e ∧ m.elements.Seg e.first xs 0 ∧
    (e.first = 0 ↔ xs = []) ∧
    ∀ us y, xs = us ++ [y] → e.last = y.1 ∧ m.elements.obj y.1 = some ⟨y.2, 0⟩
  acyclic : (addrs xs).Nodup
  count : m.openFiles = xs.length
  limit : m.openFiles ≤ 10
  /-- `queue_enqueue` appends. -/
  enqueue : ∀ fd k, fd ≠ 0 → ∃ m' a, m.queueEnqueue m.openFilesList fd k = .ok m' ∧
    m'.Cells (xs ++ [(a, fd)])
  /-- `queue_node_remove` unlinks the first cell with the number, and frees it. -/
  remove : ∀ us x vs id, xs = us ++ x :: vs → m.fileIdAt x.2 = some id →
    (∀ u ∈ us, m.fileIdAt u.2 ≠ some id) →
    ∃ m', m.queueNodeRemove m.openFilesList id = .ok (x.2, m') ∧ m'.Cells (us ++ vs) ∧
      m.Unlinked m' x.1
  /-- Without such a cell it leaves everything as it is. -/
  removeNone : ∀ id, (∀ x ∈ xs, m.fileIdAt x.2 ≠ some id) →
    m.queueNodeRemove m.openFilesList id = .ok (0, m)

theorem Stores.wellFormed (hs : m.Stores lib xs) : m.WellFormed xs where
  ends := by
    obtain ⟨e, he, hlist⟩ := hs.cells
    refine ⟨e, he, hlist.seg, hlist.first_eq_zero, fun us y hxs => ?_⟩
    rw [hxs] at hlist
    exact hlist.last_obj
  acyclic := by
    obtain ⟨e, -, hlist⟩ := hs.cells
    exact hlist.nodup
  count := hs.length_eq
  limit := by
    have hle := hs.limit
    have hcount := hs.count
    omega
  enqueue fd k hfd := by
    obtain ⟨m', a, hm', hcells, -⟩ := queueEnqueue_eq hs.cells hfd k
    exact ⟨m', a, hm', hcells⟩
  remove us x vs id hxs hid hno := by
    subst hxs
    exact queueNodeRemove_some hs.cells hs.described hid hno
  removeNone id hno := queueNodeRemove_none hs.cells hs.described hno

/--
The list of open files is well formed after any calls of `my_open` and `my_close`.

Nothing is assumed of the servers, and `malloc` may return any address that is not in use.  No
call uses an address at which there is nothing, and each returns what it returns over the list of
descriptors.
-/
theorem open_files_well_formed {k : Chunk Ends} {m₀ : FileMem} {s₀ : σ}
    {tr : List ((FileMem × σ) × FileCall)} {x : FileMem × σ} (hinit : FileMem.initLib k = .ok m₀)
    (hrun : Run (FileMem.step h) (m₀, s₀) tr x) :
    ∃ xs lib, x.1.WellFormed xs ∧
      lib.openFilesList.map some = xs.map (fun c => x.1.descs.obj c.2) ∧
      ∀ c, Agree (run h (c.user.prog lib) x.2) (x.1.call h x.2 c) := by
  obtain ⟨m, hm, hs⟩ := Stores.init k
  obtain rfl := Except.ok.inj (hinit.symm.trans hm)
  obtain ⟨lib, xs, hs⟩ := hrun.invariant (fun y => ∃ lib xs, y.1.Stores lib xs) ⟨_, _, hs⟩
    fun _ _ _ hy hstep => by
      obtain ⟨lib, xs, hy⟩ := hy
      exact hy.step hstep
  exact ⟨xs, lib, hs.wellFormed, hs.descs.symm, fun c => hs.call c x.2⟩

end FileMem

end

/-- Two files are opened, the first of them twice, and both numbers are closed once: a middle cell
leaves the list and then the first one. -/
theorem FileMem.open_files_well_formed_closes :
    ∃ fs m₀ tr x, Fs.session 12 (fun i => 7 * i) (fun _ _ => 0)
        [.create 1 ⟨[97], by decide⟩, .create 1 ⟨[98], by decide⟩] = .ok fs ∧
      FileMem.initLib ⟨1, ⟨0, 0⟩⟩ = .ok m₀ ∧
      Run (FileMem.step Server.rpc) (m₀, .start fs) tr x ∧ x.1.openFiles = 1 ∧
      ∃ xs lib, x.1.WellFormed xs ∧
        lib.openFilesList.map some = xs.map (fun c => x.1.descs.obj c.2) ∧
        ∀ c, FileMem.Agree (run Server.rpc (c.user.prog lib) x.2) (x.1.call Server.rpc x.2 c) := by
  have hfacts : (Fs.session 12 (fun i => 7 * i) (fun _ _ => 0)
      [.create 1 ⟨[97], by decide⟩, .create 1 ⟨[98], by decide⟩]).map (fun fs =>
        (FileMem.initLib ⟨1, ⟨0, 0⟩⟩).map fun m₀ =>
          (runTrace (FileMem.step Server.rpc) (m₀, .start fs)
            [.openFile ⟨[47, 97], by decide⟩ 0 ⟨1, ⟨0, 0, 0, 0⟩⟩ ⟨1, ⟨0, 0⟩⟩,
              .openFile ⟨[47, 98], by decide⟩ 0 ⟨2, ⟨0, 0, 0, 0⟩⟩ ⟨2, ⟨0, 0⟩⟩,
              .openFile ⟨[47, 97], by decide⟩ 0 ⟨3, ⟨0, 0, 0, 0⟩⟩ ⟨3, ⟨0, 0⟩⟩,
              .close 3, .close 2]).map fun r => r.2.1.openFiles) = .ok (.ok (some 1)) := by
    decide +kernel
  cases hs : Fs.session 12 (fun i => 7 * i) (fun _ _ => 0)
      [.create 1 ⟨[97], by decide⟩, .create 1 ⟨[98], by decide⟩] with
  | error e =>
      rw [hs] at hfacts
      cases hfacts
  | ok fs =>
      rw [hs] at hfacts
      have hfacts := Except.ok.inj hfacts
      cases hm : FileMem.initLib ⟨1, ⟨0, 0⟩⟩ with
      | error e =>
          rw [hm] at hfacts
          cases hfacts
      | ok m₀ =>
          rw [hm] at hfacts
          obtain ⟨⟨tr, x⟩, htr, hcount⟩ := Option.map_eq_some_iff.mp (Except.ok.inj hfacts)
          have hrun : Run (FileMem.step Server.rpc) (m₀, .start fs) tr x :=
            run_of_runTrace _ .nil htr
          exact ⟨fs, m₀, tr, x, rfl, rfl, hrun, hcount, FileMem.open_files_well_formed hm hrun⟩

end Sthreads.Client
