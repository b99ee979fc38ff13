/-
Write-back caches with least-recently-used replacement.

A cache is a fixed number of slots over a backing store.  Invalid slots are filled
first; otherwise the least recently used clean slot is replaced, and a dirty one only
if there is no clean one.  A dirty slot is written back when it is replaced, when it
has been dirty for an interval of time, or when the whole cache is flushed.

`Coherent` is what makes the cache invisible: a valid slot holds what is right for its
key, and so does the backing store for a key that is in no dirty slot.  What is right
is a predicate, not a value, so that a slot may be edited in place; the predicates for
slots and for the backing store are two, because such an edit reaches the backing store
later.  Distinct keys of the domain have distinct addresses in the backing store, which
can be used, at other addresses, by others.
-/
import Mathlib.Algebra.GroupWithZero.Nat
import Mathlib.Logic.Function.Basic
import Mathlib.Data.List.FinRange

namespace Sthreads

/-- A slot of a cache. -/
structure Entry (K V : Type) where
  valid : Bool
  dirty : Bool
  key : K
  dirtyTime : Int
  lru : Nat
  data : V

/-- The store behind a cache, the counter that stamps uses, and the clock. -/
structure Backing (S K V : Type) where
  /-- Reads into a buffer, whose old contents are given. -/
  read : K → V → S → V × S
  write : K → V → S → S
  tick : S → Nat × S
  time : S → Int × S

namespace Cache

variable {S K V : Type} {n : Nat}

/-! ### The operations -/

/-- The less recently used of the best slot so far and a new one. -/
def best (c : Fin n → Entry K V) : Option (Fin n) → Fin n → Option (Fin n)
  | none, i => some i
  | some j, i => if (c i).lru < (c j).lru then some i else some j

/-- The scan for a slot to replace, with the best clean and the best dirty slot so far. -/
def victimScan (c : Fin n → Entry K V) :
    List (Fin n) → Option (Fin n) → Option (Fin n) → Option (Fin n)
  | [], bc, bd => bc.or bd
  | i :: rest, bc, bd =>
      if !(c i).valid then some i
      else if (c i).dirty then victimScan c rest bc (best c bd i)
      else victimScan c rest (best c bc i) bd

/-- The slot to replace. -/
def victim [NeZero n] (c : Fin n → Entry K V) : Fin n :=
  (victimScan c (List.finRange n) none none).getD 0

/-- The slot that holds a key. -/
def find [DecidableEq K] (c : Fin n → Entry K V) (k : K) : Option (Fin n) :=
  (List.finRange n).find? fun i => (c i).valid && (c i).key == k

variable (b : Backing S K V)

/-- Write a slot back if it is dirty. -/
def flush (i : Fin n) (p : (Fin n → Entry K V) × S) : (Fin n → Entry K V) × S :=
  if (p.1 i).valid && (p.1 i).dirty then
    (Function.update p.1 i { p.1 i with dirty := false }, b.write (p.1 i).key (p.1 i).data p.2)
  else p

/-- Write back the slots that have been dirty for `interval`. -/
def flushExpired (interval : Int) (p : (Fin n → Entry K V) × S) : (Fin n → Entry K V) × S :=
  let now := (b.time p.2).1
  (List.finRange n).foldl (fun p i =>
      if (p.1 i).valid && (p.1 i).dirty && decide (now - (p.1 i).dirtyTime ≥ interval) then
        flush b i p
      else p)
    (p.1, (b.time p.2).2)

/-- Write back every dirty slot. -/
def flushAll (p : (Fin n → Entry K V) × S) : (Fin n → Entry K V) × S :=
  (List.finRange n).foldl (fun p i => flush b i p) p

variable [DecidableEq K] [NeZero n]

/-- Get a key into a slot, and the slot. -/
def fetch (interval : Int) (k : K) (p : (Fin n → Entry K V) × S) :
    Fin n × ((Fin n → Entry K V) × S) :=
  let p := flushExpired b interval p
  match find p.1 k with
  | some i =>
      let (t, s) := b.tick p.2
      (i, Function.update p.1 i { p.1 i with lru := t }, s)
  | none =>
      let v := victim p.1
      let p := flush b v p
      let (d, s) := b.read k (p.1 v).data p.2
      let (t, s) := b.tick s
      (v, Function.update p.1 v
        { p.1 v with valid := true, dirty := false, key := k, lru := t, data := d }, s)

/-- Write a key, in its slot or in the slot that is replaced. -/
def store (interval : Int) (k : K) (d : V) (p : (Fin n → Entry K V) × S) :
    (Fin n → Entry K V) × S :=
  let p := flushExpired b interval p
  match find p.1 k with
  | some i =>
      let e := { p.1 i with data := d }
      let (e, s) :=
        if e.dirty then (e, p.2)
        else ({ e with dirty := true, dirtyTime := (b.time p.2).1 }, (b.time p.2).2)
      let (t, s) := b.tick s
      (Function.update p.1 i { e with lru := t }, s)
  | none =>
      let v := victim p.1
      let p := flush b v p
      let (now, s) := b.time p.2
      let (t, s) := b.tick s
      (Function.update p.1 v
        { valid := true, dirty := true, key := k, dirtyTime := now, lru := t, data := d }, s)

/-! ### What the operations do -/

section

variable {b} {interval : Int} {k : K} {d : V} {p : (Fin n → Entry K V) × S} {j : Fin n}

omit [NeZero n] in
theorem find_some {c : Fin n → Entry K V} (h : find c k = some j) :
    (c j).valid = true ∧ (c j).key = k := by
  have := List.find?_some h
  simpa using this

omit [NeZero n] in
theorem find_none {c : Fin n → Entry K V} (h : find c k = none) (i : Fin n) :
    (c i).valid = true → (c i).key ≠ k := by
  have := List.find?_eq_none.mp h i (List.mem_finRange i)
  simpa using this

theorem fetch_hit (h : find (flushExpired b interval p).1 k = some j) :
    fetch b interval k p =
      (j, Function.update (flushExpired b interval p).1 j
        { (flushExpired b interval p).1 j with lru := (b.tick (flushExpired b interval p).2).1 },
        (b.tick (flushExpired b interval p).2).2) := by
  unfold fetch
  dsimp only
  rw [h]

theorem fetch_miss (h : find (flushExpired b interval p).1 k = none) :
    fetch b interval k p =
      let v := victim (flushExpired b interval p).1
      let q := flush b v (flushExpired b interval p)
      let r := b.read k (q.1 v).data q.2
      (v, Function.update q.1 v { q.1 v with
        valid := true, dirty := false, key := k, lru := (b.tick r.2).1, data := r.1 },
        (b.tick r.2).2) := by
  unfold fetch
  dsimp only
  rw [h]

theorem store_hit_dirty (h : find (flushExpired b interval p).1 k = some j)
    (hd : ((flushExpired b interval p).1 j).dirty = true) :
    store b interval k d p =
      (Function.update (flushExpired b interval p).1 j { (flushExpired b interval p).1 j with
        lru := (b.tick (flushExpired b interval p).2).1, data := d },
        (b.tick (flushExpired b interval p).2).2) := by
  unfold store
  dsimp only
  rw [h]
  dsimp only
  rw [if_pos hd]

theorem store_hit_clean (h : find (flushExpired b interval p).1 k = some j)
    (hd : ((flushExpired b interval p).1 j).dirty = false) :
    store b interval k d p =
      let r := b.time (flushExpired b interval p).2
      (Function.update (flushExpired b interval p).1 j { (flushExpired b interval p).1 j with
        dirty := true, dirtyTime := r.1, lru := (b.tick r.2).1, data := d }, (b.tick r.2).2) := by
  unfold store
  dsimp only
  rw [h]
  dsimp only
  rw [if_neg (hd ▸ Bool.false_ne_true)]

theorem store_miss (h : find (flushExpired b interval p).1 k = none) :
    store b interval k d p =
      let v := victim (flushExpired b interval p).1
      let q := flush b v (flushExpired b interval p)
      let r := b.time q.2
      (Function.update q.1 v ⟨true, true, k, r.1, (b.tick r.2).1, d⟩, (b.tick r.2).2) := by
  unfold store
  dsimp only
  rw [h]

omit [DecidableEq K] [NeZero n] in
/-- A slot that was written back is clean. -/
theorem flush_clean (i : Fin n) (p : (Fin n → Entry K V) × S)
    (hv : ((flush b i p).1 i).valid = true) : ((flush b i p).1 i).dirty = false := by
  unfold flush at hv ⊢
  split
  · simp
  · rename_i h
    rw [if_neg h] at hv
    simpa [hv] using h

omit [DecidableEq K] [NeZero n] in
/-- Nothing is written back where nothing is dirty. -/
theorem flushAll_of_clean {p : (Fin n → Entry K V) × S} (h : ∀ i, (p.1 i).dirty = false) :
    flushAll b p = p := by
  have hflush : ∀ i, flush b i p = p := fun i => by
    unfold flush
    rw [h i, Bool.and_false, if_neg Bool.false_ne_true]
  suffices hl : ∀ l : List (Fin n), l.foldl (fun p i => flush b i p) p = p from hl _
  intro l
  induction l with
  | nil => rfl
  | cons i rest ih => rw [List.foldl_cons, hflush i, ih]

omit [DecidableEq K] [NeZero n] in
theorem flush_other {i : Fin n} (hj : j ≠ i) (p : (Fin n → Entry K V) × S) :
    (flush b i p).1 j = p.1 j := by
  unfold flush
  split
  · exact Function.update_of_ne hj _ _
  · rfl

omit [DecidableEq K] [NeZero n] in
/-- After everything was written back, every slot is clean. -/
theorem flushAll_clean (p : (Fin n → Entry K V) × S) (i : Fin n)
    (hv : ((flushAll b p).1 i).valid = true) : ((flushAll b p).1 i).dirty = false := by
  suffices h : ∀ (l : List (Fin n)) (q : (Fin n → Entry K V) × S),
      i ∈ l ∨ ((q.1 i).valid = true → (q.1 i).dirty = false) →
      ((l.foldl (fun p j => flush b j p) q).1 i).valid = true →
      ((l.foldl (fun p j => flush b j p) q).1 i).dirty = false from
    h _ p (Or.inl (List.mem_finRange i)) hv
  intro l
  induction l with
  | nil =>
      intro q hq
      exact hq.resolve_left List.not_mem_nil
  | cons j rest ih =>
      intro q hq
      refine ih (flush b j q) ?_
      by_cases hij : i = j
      · subst hij
        exact Or.inr (flush_clean i q)
      · rw [flush_other hij]
        exact hq.imp_left fun h => (List.mem_cons.mp h).resolve_left hij

end

/-! ### What is behind a cache -/

omit [DecidableEq K] [NeZero n]

/-- Everything that a cache does with what is behind it keeps this. -/
structure Keeps (b : Backing S K V) (P : S → Prop) : Prop where
  read : ∀ k v s, P s → P (b.read k v s).2
  write : ∀ k v s, P s → P (b.write k v s)
  tick : ∀ s, P s → P (b.tick s).2
  time : ∀ s, P s → P (b.time s).2

section

variable {b : Backing S K V} {P : S → Prop} {p : (Fin n → Entry K V) × S} (hb : Keeps b P)

include hb

theorem flush_keeps (i : Fin n) (h : P p.2) : P (flush b i p).2 := by
  unfold flush
  split
  · exact hb.write _ _ _ h
  · exact h

theorem flushAll_keeps (h : P p.2) : P (flushAll b p).2 := by
  unfold flushAll
  refine List.foldlRecOn (motive := fun q : (Fin n → Entry K V) × S => P q.2) _ _ h
    fun q hq i _ => ?_
  exact flush_keeps hb i hq

theorem flushExpired_keeps (interval : Int) (h : P p.2) : P (flushExpired b interval p).2 := by
  unfold flushExpired
  refine List.foldlRecOn (motive := fun q : (Fin n → Entry K V) × S => P q.2) _ _
    (hb.time _ h) fun q hq i _ => ?_
  split
  · exact flush_keeps hb i hq
  · exact hq

variable [DecidableEq K] [NeZero n]

theorem fetch_keeps (interval : Int) (k : K) (h : P p.2) : P (fetch b interval k p).2.2 := by
  have hq := flushExpired_keeps hb interval h
  cases hfind : find (flushExpired b interval p).1 k with
  | some i =>
      rw [fetch_hit hfind]
      exact hb.tick _ hq
  | none =>
      rw [fetch_miss hfind]
      exact hb.tick _ (hb.read _ _ _ (flush_keeps hb _ hq))

theorem store_keeps (interval : Int) (k : K) (d : V) (h : P p.2) :
    P (store b interval k d p).2 := by
  have hq := flushExpired_keeps hb interval h
  cases hfind : find (flushExpired b interval p).1 k with
  | some i =>
      cases hdirty : ((flushExpired b interval p).1 i).dirty with
      | true =>
          rw [store_hit_dirty hfind hdirty]
          exact hb.tick _ hq
      | false =>
          rw [store_hit_clean hfind hdirty]
          exact hb.tick _ (hb.time _ hq)
  | none =>
      rw [store_miss hfind]
      exact hb.tick _ (hb.time _ (flush_keeps hb _ hq))

end

/-! ### Coherence -/

variable {B : Type} [DecidableEq B]

/-- The backing store behaves as the map `m` from addresses to values, on the keys of `D`. -/
structure BackingSpec (b : Backing S K V) (addr : K → B) (D : K → Prop)
    (Rel : S → (B → V) → Prop) : Prop where
  read : ∀ s m k old, Rel s m → D k → (b.read k old s).1 = m (addr k) ∧ Rel (b.read k old s).2 m
  write : ∀ s m k v, Rel s m → D k → Rel (b.write k v s) (Function.update m (addr k) v)
  tick : ∀ s m, Rel s m → Rel (b.tick s).2 m
  time : ∀ s m, Rel s m → Rel (b.time s).2 m

/-- The slots and the backing store `m` agree on what is right for each key. -/
structure Coherent (addr : K → B) (D : K → Prop) (held back : K → V → Prop)
    (c : Fin n → Entry K V) (m : B → V) : Prop where
  dom : ∀ i, (c i).valid = true → D (c i).key
  unique : ∀ i j, (c i).valid = true → (c j).valid = true → (c i).key = (c j).key → i = j
  held : ∀ i, (c i).valid = true → held (c i).key (c i).data
  back : ∀ k, D k → (∀ i, (c i).valid = true → (c i).dirty = true → (c i).key ≠ k) →
    back k (m (addr k))
  idle : ∀ i, (c i).valid = false → (c i).dirty = false

/-- The slots hold the same keys and values. -/
def SameSlots (c c' : Fin n → Entry K V) : Prop :=
  ∀ i, (c' i).valid = (c i).valid ∧ (c' i).key = (c i).key ∧ (c' i).data = (c i).data

/-- A cache over a backing store that behaves as some map, which differs from `m₀` only at the
addresses of keys. -/
def Represents (addr : K → B) (D : K → Prop) (Rel : S → (B → V) → Prop)
    (held back : K → V → Prop) (m₀ : B → V) (p : (Fin n → Entry K V) × S) : Prop :=
  ∃ m, Rel p.2 m ∧ Coherent addr D held back p.1 m ∧
    ∀ x, (∀ k, D k → addr k ≠ x) → m x = m₀ x

section

variable {b : Backing S K V} {addr : K → B} {D : K → Prop} {Rel : S → (B → V) → Prop}
  {held back : K → V → Prop} {m₀ : B → V} {p : (Fin n → Entry K V) × S}
  (hb : BackingSpec b addr D Rel) (hinj : ∀ k k', D k → D k' → addr k = addr k' → k = k')

theorem SameSlots.refl (c : Fin n → Entry K V) : SameSlots c c := fun _ => ⟨rfl, rfl, rfl⟩

theorem SameSlots.trans {c c' c'' : Fin n → Entry K V} (h : SameSlots c c')
    (h' : SameSlots c' c'') : SameSlots c c'' := fun i =>
  ⟨(h' i).1.trans (h i).1, (h' i).2.1.trans (h i).2.1, (h' i).2.2.trans (h i).2.2⟩

theorem sameSlots_update {c : Fin n → Entry K V} {i : Fin n} {e : Entry K V}
    (h : e.valid = (c i).valid ∧ e.key = (c i).key ∧ e.data = (c i).data) :
    SameSlots c (Function.update c i e) := by
  intro j
  by_cases hj : j = i
  · subst hj
    rw [Function.update_self]
    exact h
  · rw [Function.update_of_ne hj]
    exact ⟨rfl, rfl, rfl⟩

theorem sameSlots_flush (i : Fin n) (p : (Fin n → Entry K V) × S) :
    SameSlots p.1 (flush b i p).1 := by
  unfold flush
  split
  · exact sameSlots_update ⟨rfl, rfl, rfl⟩
  · exact SameSlots.refl _

omit [DecidableEq B] in
/-- Coherence depends on the keys, the values and which slots are dirty. -/
theorem Coherent.congr {c c' : Fin n → Entry K V} {m : B → V}
    (h : Coherent addr D held back c m) (hs : SameSlots c c')
    (hd : ∀ i, (c i).dirty = true → (c' i).dirty = true)
    (hidle : ∀ i, (c i).valid = false → (c' i).dirty = (c i).dirty) :
    Coherent addr D held back c' m := by
  refine ⟨?_, ?_, ?_, ?_, ?_⟩
  · intro i hi
    rw [(hs i).2.1]
    exact h.dom i ((hs i).1 ▸ hi)
  · intro i j hi hj hk
    rw [(hs i).2.1, (hs j).2.1] at hk
    exact h.unique i j ((hs i).1 ▸ hi) ((hs j).1 ▸ hj) hk
  · intro i hi
    rw [(hs i).2.1, (hs i).2.2]
    exact h.held i ((hs i).1 ▸ hi)
  · intro k hk hclean
    refine h.back k hk fun i hi hdi hik => ?_
    exact hclean i ((hs i).1 ▸ hi) (hd i hdi) ((hs i).2.1.trans hik)
  · intro i hi
    have hvi := (hs i).1.symm.trans hi
    rw [hidle i hvi]
    exact h.idle i hvi

omit [DecidableEq B] in
/-- An empty cache is coherent with a backing store that is right. -/
theorem Coherent.empty {c : Fin n → Entry K V} {m : B → V} (h : ∀ i, (c i).valid = false)
    (hd : ∀ i, (c i).dirty = false) (hback : ∀ k, D k → back k (m (addr k))) : Coherent addr D held back c m := by
  have hno : ∀ i, (c i).valid ≠ true := fun i => by simp [h i]
  exact ⟨fun i hi => absurd hi (hno i), fun i _ hi => absurd hi (hno i),
    fun i hi => absurd hi (hno i), fun k hk _ => hback k hk, fun i _ => hd i⟩

omit [DecidableEq B] in
/-- If no slot is dirty, the backing store is right. -/
theorem Coherent.clean {c : Fin n → Entry K V} {m : B → V} (h : Coherent addr D held back c m)
    (hc : ∀ i, (c i).valid = true → (c i).dirty = false) {k : K} (hk : D k) :
    back k (m (addr k)) :=
  h.back k hk fun i hi hd => absurd ((hc i hi).symm.trans hd) Bool.false_ne_true

omit [DecidableEq B] in
/-- If no valid slot is dirty, none is. -/
theorem Coherent.all_clean {c : Fin n → Entry K V} {m : B → V} (h : Coherent addr D held back c m)
    (hc : ∀ i, (c i).valid = true → (c i).dirty = false) (i : Fin n) : (c i).dirty = false := by
  cases hv : (c i).valid with
  | true => exact hc i hv
  | false => exact h.idle i hv

omit [DecidableEq B] in
/-- What a key is looked up to is right, in the slots or behind them. -/
theorem Coherent.lookup [DecidableEq K] {c : Fin n → Entry K V} {m : B → V}
    (h : Coherent addr D held back c m) {k : K} (hk : D k) :
    (∀ i, find c k = some i → held k (c i).data) ∧ (find c k = none → back k (m (addr k))) := by
  constructor
  · intro i hi
    obtain ⟨hv, hkey⟩ := find_some hi
    exact hkey ▸ h.held i hv
  · intro hnone
    exact h.back k hk fun i hv _ => find_none hnone i hv

omit [DecidableEq B] in
/-- Less may be right, and of more keys, if the backing store is right for the new ones. -/
theorem Coherent.mono {D' : K → Prop} {held' back' : K → V → Prop} {c : Fin n → Entry K V}
    {m : B → V} (h : Coherent addr D held back c m) (hD : ∀ k, D k → D' k)
    (hheld : ∀ k v, D k → held k v → held' k v) (hback : ∀ k v, D k → back k v → back' k v)
    (hnew : ∀ k, D' k → ¬ D k → back' k (m (addr k))) : Coherent addr D' held' back' c m := by
  refine ⟨fun i hi => hD _ (h.dom i hi), h.unique, fun i hi => hheld _ _ (h.dom i hi) (h.held i hi),
    fun k hk hclean => ?_, h.idle⟩
  by_cases hDk : D k
  · exact hback k _ hDk (h.back k hDk hclean)
  · exact hnew k hk hDk

omit [DecidableEq B] in
theorem Coherent.touch {c : Fin n → Entry K V} {m : B → V} (h : Coherent addr D held back c m)
    (i : Fin n) (t : Nat) :
    Coherent addr D held back (Function.update c i { c i with lru := t }) m := by
  have hd : ∀ j, (Function.update c i { c i with lru := t } j).dirty = (c j).dirty := by
    intro j
    by_cases hij : j = i
    · subst hij
      rw [Function.update_self]
    · rw [Function.update_of_ne hij]
  exact h.congr (sameSlots_update ⟨rfl, rfl, rfl⟩) (fun j hj => (hd j).trans hj) fun j _ => hd j

omit [DecidableEq B] in
/-- A slot may be marked dirty. -/
theorem Coherent.mark {c : Fin n → Entry K V} {m : B → V} (h : Coherent addr D held back c m)
    {i : Fin n} (hi : (c i).valid = true) (t : Int) :
    Coherent addr D held back
      (Function.update c i { c i with dirty := true, dirtyTime := t }) m := by
  refine h.congr (sameSlots_update ⟨rfl, rfl, rfl⟩) (fun j hj => ?_) fun j hj => ?_
  · by_cases hji : j = i
    · subst hji
      rw [Function.update_self]
    · rw [Function.update_of_ne hji]
      exact hj
  · rw [Function.update_of_ne]
    rintro rfl
    exact Bool.false_ne_true (hj.symm.trans hi)

omit [DecidableEq B] in
/-- The backing store counts at the addresses of keys only. -/
theorem Coherent.congr_back {c : Fin n → Entry K V} {m m' : B → V}
    (h : Coherent addr D held back c m) (hm : ∀ k, D k → m' (addr k) = m (addr k)) :
    Coherent addr D held back c m' :=
  ⟨h.dom, h.unique, h.held, fun k hk hclean => (hm k hk).symm ▸ h.back k hk hclean, h.idle⟩

omit [DecidableEq B] in
/-- The value in a slot may be edited in place. -/
theorem Coherent.edit (held' : K → V → Prop) {c : Fin n → Entry K V} {m : B → V}
    (h : Coherent addr D held back c m) {i : Fin n} {d : V} (hi : (c i).valid = true)
    (hd : held' (c i).key d) (hother : ∀ k x, k ≠ (c i).key → held k x → held' k x) :
    Coherent addr D held' back (Function.update c i { c i with data := d }) m := by
  have hval : ∀ j, (Function.update c i { c i with data := d } j).valid = (c j).valid ∧
      (Function.update c i { c i with data := d } j).dirty = (c j).dirty ∧
      (Function.update c i { c i with data := d } j).key = (c j).key := by
    intro j
    by_cases hj : j = i
    · subst hj
      rw [Function.update_self]
      exact ⟨rfl, rfl, rfl⟩
    · rw [Function.update_of_ne hj]
      exact ⟨rfl, rfl, rfl⟩
  refine ⟨?_, ?_, ?_, ?_, ?_⟩
  · intro j hj
    rw [(hval j).2.2]
    exact h.dom j ((hval j).1 ▸ hj)
  · intro j j' hj hj' hk
    rw [(hval j).2.2, (hval j').2.2] at hk
    exact h.unique j j' ((hval j).1 ▸ hj) ((hval j').1 ▸ hj') hk
  · intro j hj
    by_cases hji : j = i
    · subst hji
      rw [Function.update_self]
      exact hd
    · rw [Function.update_of_ne hji] at hj ⊢
      exact hother _ _ (fun hk => hji (h.unique j i hj hi hk)) (h.held j hj)
  · intro k hk hclean
    refine h.back k hk fun j hj hdj => ?_
    have hcj := hclean j
    rw [(hval j).1, (hval j).2.1, (hval j).2.2] at hcj
    exact hcj hj hdj
  · intro j hj
    rw [(hval j).2.1]
    exact h.idle j ((hval j).1 ▸ hj)

omit [DecidableEq B] in
/-- A clean slot may be given up. -/
theorem Coherent.drop {c : Fin n → Entry K V} {m : B → V} (h : Coherent addr D held back c m)
    {i : Fin n} (hi : (c i).valid = true → (c i).dirty = false) :
    Coherent addr D held back (Function.update c i { c i with valid := false }) m := by
  have hother : ∀ j, (Function.update c i { c i with valid := false } j).valid = true →
      Function.update c i { c i with valid := false } j = c j := by
    intro j hj
    by_cases hji : j = i
    · subst hji
      rw [Function.update_self] at hj
      exact absurd hj Bool.false_ne_true
    · exact Function.update_of_ne hji _ _
  refine ⟨?_, ?_, ?_, ?_, ?_⟩
  · intro j hj
    have hcj := hother j hj
    rw [hcj] at hj ⊢
    exact h.dom j hj
  · intro j j' hj hj' hk
    have hcj := hother j hj
    have hcj' := hother j' hj'
    rw [hcj] at hj hk
    rw [hcj'] at hj' hk
    exact h.unique j j' hj hj' hk
  · intro j hj
    have hcj := hother j hj
    rw [hcj] at hj ⊢
    exact h.held j hj
  · intro k hk hclean
    refine h.back k hk fun j hj hdj => ?_
    have hji : j ≠ i := by
      rintro rfl
      exact Bool.false_ne_true ((hi hj).symm.trans hdj)
    have hcj := hclean j
    rw [Function.update_of_ne hji] at hcj
    exact hcj hj hdj
  · intro j hj
    by_cases hji : j = i
    · subst hji
      rw [Function.update_self]
      cases hv : (c j).valid with
      | true => exact hi hv
      | false => exact h.idle j hv
    · rw [Function.update_of_ne hji] at hj ⊢
      exact h.idle j hj

omit [DecidableEq B] in
/-- A key may be put in a slot that has it, or in a clean one if no slot has it.  What is right
for the key may change with that, not what is right for others. -/
theorem Coherent.put {held' back' : K → V → Prop} {c : Fin n → Entry K V} {m : B → V}
    (h : Coherent addr D held back c m) {k : K} {v : Fin n} {e : Entry K V} (hk : D k)
    (hother : ∀ i, i ≠ v → (c i).valid = true → (c i).key ≠ k)
    (hclean : (c v).valid = true → (c v).key ≠ k → (c v).dirty = false)
    (hvalid : e.valid = true) (hkey : e.key = k) (hdata : held' k e.data)
    (hheld : ∀ k' x, D k' → k' ≠ k → held k' x → held' k' x)
    (hback : ∀ k' x, D k' → k' ≠ k → back k' x → back' k' x)
    (hdirty : e.dirty = false → back' k (m (addr k))) :
    Coherent addr D held' back' (Function.update c v e) m := by
  have hself : Function.update c v e v = e := Function.update_self ..
  have hoff : ∀ j, j ≠ v → Function.update c v e j = c j := fun j hj =>
    Function.update_of_ne hj ..
  refine ⟨?_, ?_, ?_, ?_, ?_⟩
  · intro i hi
    by_cases hiv : i = v
    · subst hiv
      rw [hself, hkey]
      exact hk
    · rw [hoff i hiv] at hi ⊢
      exact h.dom i hi
  · intro i j hi hj hij
    by_cases hiv : i = v <;> by_cases hjv : j = v
    · rw [hiv, hjv]
    · subst hiv
      rw [hself, hoff j hjv, hkey] at hij
      rw [hoff j hjv] at hj
      exact absurd hij.symm (hother j hjv hj)
    · subst hjv
      rw [hself, hoff i hiv, hkey] at hij
      rw [hoff i hiv] at hi
      exact absurd hij (hother i hiv hi)
    · rw [hoff i hiv] at hi hij
      rw [hoff j hjv] at hj hij
      exact h.unique i j hi hj hij
  · intro i hi
    by_cases hiv : i = v
    · subst hiv
      rw [hself, hkey]
      exact hdata
    · rw [hoff i hiv] at hi ⊢
      exact hheld _ _ (h.dom i hi) (hother i hiv hi) (h.held i hi)
  · intro k' hk' hnone
    by_cases hkk : k' = k
    · subst hkk
      have hnv := hnone v
      rw [hself] at hnv
      exact hdirty (Bool.eq_false_iff.mpr fun hd => hnv hvalid hd hkey)
    · refine hback k' _ hk' hkk (h.back k' hk' fun i hi hdi hik => ?_)
      by_cases hiv : i = v
      · subst hiv
        rw [hclean hi (hik ▸ hkk)] at hdi
        exact Bool.false_ne_true hdi
      · have hni := hnone i
        rw [hoff i hiv] at hni
        exact hni hi hdi hik
  · intro i hi
    by_cases hiv : i = v
    · subst hiv
      rw [hself, hvalid] at hi
      exact absurd hi.symm Bool.false_ne_true
    · rw [hoff i hiv] at hi ⊢
      exact h.idle i hi

include hinj in
/-- The value in a slot may be written to the backing store. -/
theorem Coherent.sync (back' : K → V → Prop) {c : Fin n → Entry K V} {m : B → V}
    (h : Coherent addr D held back c m) {i : Fin n} (hi : (c i).valid = true)
    (hd : back' (c i).key (c i).data)
    (hother : ∀ k x, D k → k ≠ (c i).key → back k x → back' k x) :
    Coherent addr D held back' c (Function.update m (addr (c i).key) (c i).data) := by
  refine ⟨h.dom, h.unique, h.held, fun k hk hclean => ?_, h.idle⟩
  by_cases hki : k = (c i).key
  · rw [hki, Function.update_self]
    exact hd
  · rw [Function.update_of_ne fun ha => hki (hinj _ _ hk (h.dom i hi) ha)]
    exact hother k _ hk hki (h.back k hk hclean)

include hb hinj

/-- Writing a slot back keeps the cache coherent. -/
theorem represents_flush (hfb : ∀ k v, held k v → back k v) (i : Fin n)
    (h : Represents addr D Rel held back m₀ p) :
    Represents addr D Rel held back m₀ (flush b i p) := by
  have hsame := sameSlots_flush (b := b) i p
  unfold flush at hsame ⊢
  split
  · rename_i hvd
    rw [if_pos hvd] at hsame
    simp only [Bool.and_eq_true] at hvd
    obtain ⟨m, hrel, hc, hout⟩ := h
    have hD := hc.dom i hvd.1
    refine ⟨_, hb.write _ m _ _ hrel hD, ⟨?_, ?_, ?_, ?_, ?_⟩, ?_⟩
    · intro j hj
      rw [(hsame j).2.1]
      exact hc.dom j ((hsame j).1 ▸ hj)
    · intro j j' hj hj' hk
      rw [(hsame j).2.1, (hsame j').2.1] at hk
      exact hc.unique j j' ((hsame j).1 ▸ hj) ((hsame j').1 ▸ hj') hk
    · intro j hj
      rw [(hsame j).2.1, (hsame j).2.2]
      exact hc.held j ((hsame j).1 ▸ hj)
    · intro k hk hclean
      by_cases hki : addr k = addr (p.1 i).key
      · have hkey := hinj _ _ hk hD hki
        subst hkey
        rw [Function.update_self]
        exact hfb _ _ (hc.held i hvd.1)
      · rw [Function.update_of_ne hki]
        refine hc.back k hk fun j hj hdj hjk => ?_
        have hji : j ≠ i := by
          rintro rfl
          exact hki (congrArg addr hjk.symm)
        have hsj : Function.update p.1 i { p.1 i with dirty := false } j = p.1 j :=
          Function.update_of_ne hji _ _
        have := hclean j
        simp only [hsj] at this
        exact this hj hdj hjk
    · intro j hj
      by_cases hji : j = i
      · subst hji
        simp
      · have hsj : Function.update p.1 i { p.1 i with dirty := false } j = p.1 j :=
          Function.update_of_ne hji _ _
        simp only [hsj] at hj ⊢
        exact hc.idle j hj
    · intro x hx
      rw [Function.update_of_ne (fun hc' => hx _ hD hc'.symm)]
      exact hout x hx
  · exact h

omit hinj in
theorem represents_time (h : Represents addr D Rel held back m₀ p) :
    Represents addr D Rel held back m₀ (p.1, (b.time p.2).2) := by
  obtain ⟨m, hrel, hc, hout⟩ := h
  exact ⟨m, hb.time _ _ hrel, hc, hout⟩

omit hinj in
theorem represents_tick (h : Represents addr D Rel held back m₀ p) :
    Represents addr D Rel held back m₀ (p.1, (b.tick p.2).2) := by
  obtain ⟨m, hrel, hc, hout⟩ := h
  exact ⟨m, hb.tick _ _ hrel, hc, hout⟩

/-- Writing back what is overdue keeps the cache coherent, and every slot its key and value. -/
theorem represents_flushExpired (hfb : ∀ k v, held k v → back k v) (interval : Int)
    (h : Represents addr D Rel held back m₀ p) :
    Represents addr D Rel held back m₀ (flushExpired b interval p) ∧
      SameSlots p.1 (flushExpired b interval p).1 := by
  unfold flushExpired
  refine List.foldlRecOn (motive := fun q => Represents addr D Rel held back m₀ q ∧
    SameSlots p.1 q.1) _ _ ⟨represents_time hb h, SameSlots.refl _⟩ ?_
  rintro q ⟨hq, hsame⟩ i -
  split
  · exact ⟨represents_flush hb hinj hfb i hq, hsame.trans (sameSlots_flush i q)⟩
  · exact ⟨hq, hsame⟩

/-- Writing back everything keeps the cache coherent, and every slot its key and value. -/
theorem represents_flushAll (hfb : ∀ k v, held k v → back k v)
    (h : Represents addr D Rel held back m₀ p) :
    Represents addr D Rel held back m₀ (flushAll b p) ∧ SameSlots p.1 (flushAll b p).1 := by
  unfold flushAll
  refine List.foldlRecOn (motive := fun q => Represents addr D Rel held back m₀ q ∧
    SameSlots p.1 q.1) _ _ ⟨h, SameSlots.refl _⟩ ?_
  rintro q ⟨hq, hsame⟩ i -
  exact ⟨represents_flush hb hinj hfb i hq, hsame.trans (sameSlots_flush i q)⟩

variable [DecidableEq K] [NeZero n]

/-- Getting a key keeps the cache coherent.  The slot it returns has the key, is the one that had
it before if there was one, and is the only one that changes. -/
theorem represents_fetch (hfb : ∀ k v, held k v → back k v) (interval : Int) {k : K} (hk : D k)
    (hbk : ∀ v, back k v → held k v) (h : Represents addr D Rel held back m₀ p) :
    Represents addr D Rel held back m₀ (fetch b interval k p).2 ∧
      ((fetch b interval k p).2.1 (fetch b interval k p).1).valid = true ∧
      ((fetch b interval k p).2.1 (fetch b interval k p).1).key = k ∧
      (∀ i, (p.1 i).valid = true → (p.1 i).key = k → i = (fetch b interval k p).1) ∧
      ∀ i, i ≠ (fetch b interval k p).1 →
        ((fetch b interval k p).2.1 i).valid = (p.1 i).valid ∧
        ((fetch b interval k p).2.1 i).key = (p.1 i).key ∧
        ((fetch b interval k p).2.1 i).data = (p.1 i).data := by
  obtain ⟨h₁, hsame₁⟩ := represents_flushExpired hb hinj hfb interval h
  cases hf : find (flushExpired b interval p).1 k with
  | some j =>
      obtain ⟨hv, hkey⟩ := find_some hf
      obtain ⟨m, hrel, hc, hout⟩ := represents_tick hb h₁
      have hsame := sameSlots_update (c := (flushExpired b interval p).1) (i := j)
        (e := { (flushExpired b interval p).1 j with lru := (b.tick (flushExpired b interval p).2).1 })
        ⟨rfl, rfl, rfl⟩
      rw [fetch_hit hf]
      dsimp only
      refine ⟨⟨m, hrel, hc.touch j _, hout⟩, ?_, ?_, ?_, ?_⟩
      · rw [Function.update_self]
        exact hv
      · rw [Function.update_self]
        exact hkey
      · intro i hi hik
        refine hc.unique i j ((hsame₁ i).1.trans hi) hv ?_
        rw [(hsame₁ i).2.1, hik, hkey]
      · intro i _
        exact (hsame₁.trans hsame) i
  | none =>
      have hnone := find_none hf
      have hsame₂ := sameSlots_flush (b := b) (victim (flushExpired b interval p).1)
        (flushExpired b interval p)
      have h₂ := represents_flush hb hinj hfb (victim (flushExpired b interval p).1) h₁
      have hclean := flush_clean (b := b) (victim (flushExpired b interval p).1)
        (flushExpired b interval p)
      rw [fetch_miss hf]
      dsimp only
      generalize victim (flushExpired b interval p).1 = v at hsame₂ h₂ hclean ⊢
      generalize hq : flush b v (flushExpired b interval p) = q at hsame₂ h₂ hclean ⊢
      have hnone₂ : ∀ i, (q.1 i).valid = true → (q.1 i).key ≠ k := fun i hi => by
        rw [(hsame₂ i).2.1]
        exact hnone i ((hsame₂ i).1 ▸ hi)
      obtain ⟨m, hrel, hc, hout⟩ := h₂
      have hread := hb.read _ _ k (q.1 v).data hrel hk
      have hback : back k (m (addr k)) := hc.back k hk fun i hi _ => hnone₂ i hi
      refine ⟨⟨m, hb.tick _ _ hread.2, ?_, hout⟩, ?_, ?_, ?_, ?_⟩
      · refine hc.put hk (fun i _ => hnone₂ i) (fun hi _ => hclean hi) rfl rfl ?_
          (fun _ _ _ _ hx => hx) (fun _ _ _ _ hx => hx) (fun _ => hback)
        rw [hread.1]
        exact hbk _ hback
      · rw [Function.update_self]
      · rw [Function.update_self]
      · intro i hi hik
        have := hnone i ((hsame₁ i).1.trans hi)
        exact absurd ((hsame₁ i).2.1.trans hik) this
      · intro i hi
        rw [Function.update_of_ne hi]
        exact (hsame₁.trans hsame₂) i

/-- Writing a key keeps the cache coherent with what is then right. -/
theorem represents_store (held' back' : K → V → Prop) (hfb : ∀ k v, held k v → back k v)
    (interval : Int) {k : K} {d : V} (hk : D k) (hd : held' k d)
    (hheld : ∀ k' x, D k' → k' ≠ k → held k' x → held' k' x)
    (hback : ∀ k' x, D k' → k' ≠ k → back k' x → back' k' x)
    (h : Represents addr D Rel held back m₀ p) :
    Represents addr D Rel held' back' m₀ (store b interval k d p) := by
  obtain ⟨h₁, -⟩ := represents_flushExpired hb hinj hfb interval h
  cases hf : find (flushExpired b interval p).1 k with
  | some j =>
      obtain ⟨hv, hkey⟩ := find_some hf
      have hput : ∀ (q : S) (e : Entry K V),
          Represents addr D Rel held back m₀ ((flushExpired b interval p).1, q) →
          e.valid = true → e.key = k → e.data = d → e.dirty = true →
          Represents addr D Rel held' back' m₀
            (Function.update (flushExpired b interval p).1 j e, q) := by
        rintro q e ⟨m, hrel, hc, hout⟩ hev hek hed hedirty
        refine ⟨m, hrel, ?_, hout⟩
        refine hc.put hk ?_ ?_ hev hek (hed ▸ hd) hheld hback ?_
        · intro i hij hi hik
          exact hij (hc.unique i j hi hv (hik.trans hkey.symm))
        · intro _ hne
          exact absurd hkey hne
        · intro hclean
          rw [hclean] at hedirty
          exact absurd hedirty Bool.false_ne_true
      cases hdirty : ((flushExpired b interval p).1 j).dirty with
      | true =>
          rw [store_hit_dirty hf hdirty]
          exact hput _ _ (represents_tick hb h₁) hv hkey rfl hdirty
      | false =>
          rw [store_hit_clean hf hdirty]
          exact hput _ _ (represents_tick hb (represents_time hb h₁)) hv hkey rfl rfl
  | none =>
      have hnone := find_none hf
      have hsame₂ := sameSlots_flush (b := b) (victim (flushExpired b interval p).1)
        (flushExpired b interval p)
      have h₂ := represents_flush hb hinj hfb (victim (flushExpired b interval p).1) h₁
      have hclean := flush_clean (b := b) (victim (flushExpired b interval p).1)
        (flushExpired b interval p)
      rw [store_miss hf]
      dsimp only
      generalize victim (flushExpired b interval p).1 = v at hsame₂ h₂ hclean ⊢
      generalize hq : flush b v (flushExpired b interval p) = q at hsame₂ h₂ hclean ⊢
      obtain ⟨m, hrel, hc, hout⟩ := represents_tick hb (represents_time hb h₂)
      refine ⟨m, hrel, ?_, hout⟩
      refine hc.put hk (fun i _ hi => ?_) (fun hi _ => hclean hi) rfl rfl hd hheld hback ?_
      · rw [(hsame₂ i).2.1]
        exact hnone i ((hsame₂ i).1 ▸ hi)
      · intro hfalse
        exact absurd hfalse.symm Bool.false_ne_true
end

end Cache

end Sthreads
