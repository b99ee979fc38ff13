/-
A heap of objects of one type.

An address is a number, and zero is `NULL`.  An object is there from the `malloc` that returned
its address until the `free` of that address; to use an address at which there is none is a fault.
`malloc` may return every address at which there is none, one that was freed before too, and what
it finds there is not known: both are arguments of the call.
-/
import Mathlib.Data.Nat.Basic
import Mathlib.Logic.Function.Basic

namespace Sthreads

abbrev Addr := Nat

inductive Fault
  | null
  | dangling (a : Addr)
  /-- A loop did not come to the end of its list. -/
  | endless
  deriving DecidableEq, Repr

/-- The objects by address; there are finitely many, and none is at `NULL`. -/
structure Heap (C : Type) where
  obj : Addr → Option C
  top : Addr
  null : obj 0 = none
  above : ∀ a, top ≤ a → obj a = none

/-- What a call of `malloc` would like to return, and what is found there. -/
structure Chunk (C : Type) where
  addr : Addr
  there : C
  deriving DecidableEq, Repr

namespace Heap

variable {C : Type}

def empty : Heap C := ⟨fun _ => none, 0, rfl, fun _ _ => rfl⟩

/-- An object at this address, which is not `NULL` -/
def put (h : Heap C) (a : Addr) (c : C) : Heap C where
  obj x := if x = a ∧ a ≠ 0 then some c else h.obj x
  top := max h.top (a + 1)
  null := by
    rw [if_neg fun hc => hc.2 hc.1.symm]
    exact h.null
  above x hx := by
    have hlt : a < x := Nat.le_trans (Nat.le_max_right h.top (a + 1)) hx
    rw [if_neg fun hc => Nat.ne_of_gt hlt hc.1]
    exact h.above x (Nat.le_trans (Nat.le_max_left h.top (a + 1)) hx)

/-- No object at this address -/
def erase (h : Heap C) (a : Addr) : Heap C where
  obj x := if x = a then none else h.obj x
  top := h.top
  null := by
    rw [h.null, ite_self]
  above x hx := by
    rw [h.above x hx, ite_self]

/-- The address asked for, or one above all objects if that is taken -/
def fresh (h : Heap C) (a : Addr) : Addr :=
  if a ≠ 0 ∧ (h.obj a).isNone then a else h.top + 1

/-! ### Operations -/

/-- `malloc` -/
def malloc (h : Heap C) (k : Chunk C) : Addr × Heap C :=
  (h.fresh k.addr, h.put (h.fresh k.addr) k.there)

/-- `*a` -/
def load (h : Heap C) (a : Addr) : Except Fault C :=
  if a = 0 then .error .null
  else
    match h.obj a with
    | none => .error (.dangling a)
    | some c => .ok c

/-- An assignment to `*a` or to one of its fields -/
def modify (h : Heap C) (a : Addr) (f : C → C) : Except Fault (Heap C) :=
  (h.load a).map fun c => h.put a (f c)

/-- `free(a)` -/
def free (h : Heap C) (a : Addr) : Except Fault (Heap C) :=
  if a = 0 then .ok h else (h.load a).map fun _ => h.erase a

/-! ### What they do -/

theorem ok_bind {α β : Type} (a : α) (f : α → Except Fault β) : (Except.ok a >>= f) = f a := rfl

variable {h : Heap C} {a b : Addr} {c : C}

theorem ne_zero (ha : h.obj a = some c) : a ≠ 0 := by
  rintro rfl
  rw [h.null] at ha
  cases ha

theorem lt_top (ha : h.obj a = some c) : a < h.top := by
  by_contra hlt
  rw [h.above a (Nat.le_of_not_lt hlt)] at ha
  cases ha

theorem put_self (ha : a ≠ 0) : (h.put a c).obj a = some c := if_pos ⟨rfl, ha⟩

theorem put_of_ne (hb : b ≠ a) : (h.put a c).obj b = h.obj b := if_neg fun hc => hb hc.1

/-- What is live stays live where an object is put. -/
theorem put_isSome (ha : h.obj a = some c) (c' : C) (b : Addr) :
    ((h.put a c').obj b).isSome = (h.obj b).isSome := by
  by_cases hb : b = a
  · rw [hb, put_self (ne_zero ha), ha]
    rfl
  · rw [put_of_ne hb]

@[simp] theorem erase_self : (h.erase a).obj a = none := if_pos rfl

theorem erase_of_ne (hb : b ≠ a) : (h.erase a).obj b = h.obj b := if_neg hb

theorem fresh_ne_zero (h : Heap C) (a : Addr) : h.fresh a ≠ 0 := by
  unfold fresh
  split
  case isTrue hc => exact hc.1
  case isFalse => exact Nat.succ_ne_zero _

theorem obj_fresh (h : Heap C) (a : Addr) : h.obj (h.fresh a) = none := by
  unfold fresh
  split
  case isTrue hc => exact Option.isNone_iff_eq_none.mp hc.2
  case isFalse => exact h.above _ (Nat.le_succ _)

/-- Every address at which there is nothing can be what `malloc` returns. -/
theorem fresh_eq (ha : a ≠ 0) (hn : h.obj a = none) : h.fresh a = a :=
  if_pos ⟨ha, Option.isNone_iff_eq_none.mpr hn⟩

theorem load_eq (ha : h.obj a = some c) : h.load a = .ok c := by
  rw [load, if_neg (ne_zero ha), ha]

theorem modify_eq (ha : h.obj a = some c) (f : C → C) : h.modify a f = .ok (h.put a (f c)) := by
  rw [modify, load_eq ha]
  rfl

theorem free_eq (ha : h.obj a = some c) : h.free a = .ok (h.erase a) := by
  rw [free, if_neg (ne_zero ha), load_eq ha]
  rfl

end Heap

end Sthreads
