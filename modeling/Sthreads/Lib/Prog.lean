/-
Programs over an interface of operations.

A program either returns, halts, or performs an operation and goes on with its result.
What the operations do is left open: a handler runs them on a state, and a
specification says what can be relied on when they are reasoned about.  One program
text can so be run on two implementations of its interface, and reasoned about once.

`wp` is the weakest precondition that an assignment of specifications to operations
gives.  It speaks of abstract states.  `run_sound` carries what it proves to every
handler whose operations meet their specifications, along a relation between the
handler's states and the abstract ones.
-/
import Mathlib.Logic.Basic

namespace Sthreads

/-- A program with operations `Op`, their results `Res`, and halts `ε`. -/
inductive Prog (Op : Type) (Res : Op → Type) (ε α : Type)
  | ret (a : α)
  | halt (e : ε)
  | op (o : Op) (k : Res o → Prog Op Res ε α)

namespace Prog

variable {Op : Type} {Res : Op → Type} {ε α β : Type}

/-- Sequencing. -/
def bind : Prog Op Res ε α → (α → Prog Op Res ε β) → Prog Op Res ε β
  | ret a, f => f a
  | halt e, _ => halt e
  | op o k, f => op o fun r => (k r).bind f

instance : Monad (Prog Op Res ε) where
  pure := ret
  bind := bind

/-- A single operation. -/
def perform (o : Op) : Prog Op Res ε (Res o) := op o ret

theorem bind_assoc {γ : Type} (f : α → Prog Op Res ε β) (g : β → Prog Op Res ε γ) :
    ∀ p : Prog Op Res ε α, (p >>= f) >>= g = p >>= fun a => f a >>= g
  | ret _ => rfl
  | halt _ => rfl
  | op o k => congrArg (op o) (funext fun r => bind_assoc f g (k r))

/-! ### Running -/

/-- What implements the operations on a state. -/
abbrev Handler (Op : Type) (Res : Op → Type) (ε σ : Type) :=
  (o : Op) → σ → Except ε (Res o × σ)

/-- Run a program to its end. -/
def run {σ : Type} (h : Handler Op Res ε σ) : Prog Op Res ε α → σ → Except ε (α × σ)
  | ret a, s => .ok (a, s)
  | halt e, _ => .error e
  | op o k, s =>
      match h o s with
      | .ok (r, s') => run h (k r) s'
      | .error e => .error e

/-- A program, and what follows it. -/
theorem run_bind {σ : Type} (h : Handler Op Res ε σ) (f : α → Prog Op Res ε β) :
    ∀ (p : Prog Op Res ε α) (s : σ), run h (p >>= f) s =
      match run h p s with
      | .ok (a, s') => run h (f a) s'
      | .error e => .error e
  | ret _, _ => rfl
  | halt _, _ => rfl
  | op o k, s => by
      change run h (op o fun r => (k r).bind f) s = _
      rw [run, run]
      cases h o s with
      | error e => rfl
      | ok p => exact run_bind h f (k p.1) p.2

theorem run_bind_ok {σ : Type} {h : Handler Op Res ε σ} {p : Prog Op Res ε α}
    {f : α → Prog Op Res ε β} {b : β} {s s' : σ} (hrun : run h (p >>= f) s = .ok (b, s')) :
    ∃ a s₁, run h p s = .ok (a, s₁) ∧ run h (f a) s₁ = .ok (b, s') := by
  rw [run_bind] at hrun
  cases hp : run h p s with
  | error e =>
      rw [hp] at hrun
      cases hrun
  | ok x =>
      rw [hp] at hrun
      exact ⟨x.1, x.2, rfl, hrun⟩

/-- An operation, and what follows it. -/
theorem run_op_ok {σ : Type} {h : Handler Op Res ε σ} {o : Op} {f : Res o → Prog Op Res ε β}
    {b : β} {s s' : σ} (hrun : run h (perform o >>= f) s = .ok (b, s')) :
    ∃ r s₁, h o s = .ok (r, s₁) ∧ run h (f r) s₁ = .ok (b, s') := by
  obtain ⟨r, s₁, hop, hrest⟩ := run_bind_ok hrun
  rw [perform, run] at hop
  cases ho : h o s with
  | error e =>
      rw [ho] at hop
      cases hop
  | ok x =>
      rw [ho] at hop
      exact ⟨r, s₁, hop, hrest⟩

/-! ### Results -/

/-- Whatever the operations do, what the program returns has this property. -/
def Always (P : α → Prop) : Prog Op Res ε α → Prop
  | ret a => P a
  | halt _ => True
  | op _ k => ∀ r, Always P (k r)

theorem always_bind {P : α → Prop} {Q : β → Prop} {f : α → Prog Op Res ε β}
    (hf : ∀ a, P a → Always Q (f a)) : ∀ {p : Prog Op Res ε α}, Always P p → Always Q (p >>= f)
  | ret a, h => hf a h
  | halt _, _ => trivial
  | op _ _, h => fun r => always_bind hf (h r)

/-- An operation, of whose result nothing is known, and what follows it. -/
theorem always_op {Q : β → Prop} {o : Op} {f : Res o → Prog Op Res ε β}
    (hf : ∀ r, Always Q (f r)) : Always Q (perform o >>= f) := hf

theorem Always.trivial : ∀ (p : Prog Op Res ε α), Always (fun _ => True) p
  | ret _ => True.intro
  | halt _ => True.intro
  | op _ k => fun r => Always.trivial (k r)

theorem Always.run {σ : Type} {h : Handler Op Res ε σ} {P : α → Prop} :
    ∀ {p : Prog Op Res ε α} {s s' : σ} {a : α}, Always P p → run h p s = .ok (a, s') → P a
  | ret _, _, _, _, hp, hrun => by
      rw [Prog.run, Except.ok.injEq, Prod.mk.injEq] at hrun
      exact hrun.1 ▸ hp
  | halt _, _, _, _, _, hrun => nomatch hrun
  | op o k, s, _, _, hp, hrun => by
      rw [Prog.run] at hrun
      cases hstep : h o s with
      | error e =>
          rw [hstep] at hrun
          cases hrun
      | ok x =>
          rw [hstep] at hrun
          exact (hp x.1).run hrun

/-! ### Operations -/

/-- Whatever the operations return, the program performs only such. -/
def Only (P : Op → Prop) : Prog Op Res ε α → Prop
  | ret _ => True
  | halt _ => True
  | op o k => P o ∧ ∀ r, Only P (k r)

theorem only_pure {P : Op → Prop} {a : α} : Only P (pure a : Prog Op Res ε α) := trivial

theorem only_bind {P : Op → Prop} {f : α → Prog Op Res ε β} (hf : ∀ a, Only P (f a)) :
    ∀ {p : Prog Op Res ε α}, Only P p → Only P (p >>= f)
  | ret a, _ => hf a
  | halt _, _ => trivial
  | op _ _, h => ⟨h.1, fun r => only_bind hf (h.2 r)⟩

/-- An operation, and what follows it. -/
theorem only_op {P : Op → Prop} {o : Op} {f : Res o → Prog Op Res ε β} (ho : P o)
    (hf : ∀ r, Only P (f r)) : Only P (perform o >>= f) := ⟨ho, hf⟩

theorem Only.mono {P Q : Op → Prop} (hPQ : ∀ o, P o → Q o) :
    ∀ {p : Prog Op Res ε α}, Only P p → Only Q p
  | ret _, _ => trivial
  | halt _, _ => trivial
  | op _ _, h => ⟨hPQ _ h.1, fun r => (h.2 r).mono hPQ⟩

/-- The operations that a run of the program performs. -/
def ops {σ : Type} (h : Handler Op Res ε σ) : Prog Op Res ε α → σ → List Op
  | ret _, _ => []
  | halt _, _ => []
  | op o k, s =>
      match h o s with
      | .ok (r, s') => o :: ops h (k r) s'
      | .error _ => [o]

theorem ops_op_ok {σ : Type} {h : Handler Op Res ε σ} {o : Op} {f : Res o → Prog Op Res ε β}
    {r : Res o} {s s' : σ} (hstep : h o s = .ok (r, s')) :
    ops h (perform o >>= f) s = o :: ops h (f r) s' := by
  change ops h (op o f) s = _
  rw [ops, hstep]

theorem ops_op_error {σ : Type} {h : Handler Op Res ε σ} {o : Op} {f : Res o → Prog Op Res ε β}
    {e : ε} {s : σ} (hstep : h o s = .error e) : ops h (perform o >>= f) s = [o] := by
  change ops h (op o f) s = _
  rw [ops, hstep]

theorem Only.ops {σ : Type} {h : Handler Op Res ε σ} {P : Op → Prop} :
    ∀ {p : Prog Op Res ε α} {s : σ}, Only P p → ∀ o ∈ ops h p s, P o
  | ret _, _, _, o, ho => absurd ho List.not_mem_nil
  | halt _, _, _, o, ho => absurd ho List.not_mem_nil
  | op o' k, s, hp, o, ho => by
      rw [Prog.ops] at ho
      cases hstep : h o' s with
      | error e =>
          rw [hstep] at ho
          rw [List.mem_singleton.mp ho]
          exact hp.1
      | ok x =>
          rw [hstep] at ho
          rcases List.mem_cons.mp ho with rfl | ho
          · exact hp.1
          · exact (hp.2 x.1).ops o ho

/-! ### Weakest preconditions -/

/-- What each operation needs of the abstract state, so that its result and the state after it
have the property given. -/
abbrev Spec (Op : Type) (Res : Op → Type) (A : Type) :=
  (o : Op) → (Res o → A → Prop) → A → Prop

variable {A : Type}

/-- The weakest precondition: the program returns with `Q` or halts with `H`. -/
def wp (spec : Spec Op Res A) (H : ε → Prop) : Prog Op Res ε α → (α → A → Prop) → A → Prop
  | ret a, Q, x => Q a x
  | halt e, _, _ => H e
  | op o k, Q, x => spec o (fun r y => wp spec H (k r) Q y) x

/-- A stronger property of the result needs a stronger precondition. -/
def Spec.Mono (spec : Spec Op Res A) : Prop :=
  ∀ o (Q Q' : Res o → A → Prop), (∀ r x, Q r x → Q' r x) → ∀ x, spec o Q x → spec o Q' x

variable {spec : Spec Op Res A} {H : ε → Prop}

@[simp] theorem wp_ret (a : α) (Q : α → A → Prop) (x : A) :
    wp spec H (ret a : Prog Op Res ε α) Q x ↔ Q a x := Iff.rfl

@[simp] theorem wp_pure (a : α) (Q : α → A → Prop) (x : A) :
    wp spec H (pure a : Prog Op Res ε α) Q x ↔ Q a x := Iff.rfl

@[simp] theorem wp_halt (e : ε) (Q : α → A → Prop) (x : A) :
    wp spec H (halt e : Prog Op Res ε α) Q x ↔ H e := Iff.rfl

@[simp] theorem wp_perform (o : Op) (Q : Res o → A → Prop) (x : A) :
    wp spec H (perform o : Prog Op Res ε (Res o)) Q x ↔ spec o Q x := Iff.rfl

theorem wp_mono (hm : spec.Mono) {Q Q' : α → A → Prop} (hQ : ∀ a x, Q a x → Q' a x) :
    ∀ (p : Prog Op Res ε α) (x : A), wp spec H p Q x → wp spec H p Q' x
  | ret a, x, h => hQ a x h
  | halt _, _, h => h
  | op o k, x, h => hm o _ _ (fun r y => wp_mono hm hQ (k r) y) x h

/-- The rule of sequencing. -/
theorem wp_bind (hm : spec.Mono) (p : Prog Op Res ε α) (f : α → Prog Op Res ε β)
    (Q : β → A → Prop) (x : A) :
    wp spec H (p >>= f) Q x ↔ wp spec H p (fun a y => wp spec H (f a) Q y) x := by
  change wp spec H (p.bind f) Q x ↔ _
  induction p generalizing x with
  | ret a => exact Iff.rfl
  | halt e => exact Iff.rfl
  | op o k ih =>
      exact ⟨fun h => hm o _ _ (fun r y => (ih r y).mp) x h,
        fun h => hm o _ _ (fun r y => (ih r y).mpr) x h⟩

/-- A weaker specification of the operations -/
theorem wp_of_spec {spec' : Spec Op Res A} (hm : spec'.Mono)
    (hspec : ∀ {o Q x}, spec o Q x → spec' o Q x) {Q : α → A → Prop} :
    ∀ (p : Prog Op Res ε α) (x : A), wp spec H p Q x → wp spec' H p Q x
  | ret _, _, h => h
  | halt _, _, h => h
  | op o k, x, h => hm o _ _ (fun r y => wp_of_spec hm hspec (k r) y) x (hspec h)

/-- What every operation of a program does to the state, the program does. -/
theorem wp_of_only (hm : spec.Mono) {P : Op → Prop} {R : A → A → Prop} (hrefl : ∀ x, R x x)
    (htrans : ∀ {x y z}, R x y → R y z → R x z)
    (hop : ∀ {o x Q}, P o → (∀ r y, R x y → Q r y) → spec o Q x) :
    ∀ (p : Prog Op Res ε α) (x : A), Only P p → wp spec (fun _ => True) p (fun _ y => R x y) x
  | ret _, x, _ => hrefl x
  | halt _, _, _ => True.intro
  | op _ k, _, h => hop h.1 fun r y hxy => wp_mono hm (fun _ _ hyz => htrans hxy hyz) _ _
      (wp_of_only hm hrefl htrans hop (k r) y (h.2 r))

/-! ### Soundness -/

/-- The handler's operations meet their specifications along `R`. -/
def Sound {σ : Type} (h : Handler Op Res ε σ) (spec : Spec Op Res A) (R : σ → A → Prop) : Prop :=
  ∀ o s x Q, R s x → spec o Q x → ∃ r s' y, h o s = .ok (r, s') ∧ R s' y ∧ Q r y

/-- What the weakest precondition promises, the run of the program keeps. -/
theorem run_sound {σ : Type} {h : Handler Op Res ε σ} {R : σ → A → Prop} (hs : Sound h spec R)
    {Q : α → A → Prop} : ∀ (p : Prog Op Res ε α) {s : σ} {x : A}, R s x → wp spec H p Q x →
      (∃ a s' y, run h p s = .ok (a, s') ∧ R s' y ∧ Q a y) ∨ ∃ e, run h p s = .error e ∧ H e
  | ret a, s, x, hR, hw => Or.inl ⟨a, s, x, rfl, hR, hw⟩
  | halt e, s, x, hR, hw => Or.inr ⟨e, rfl, hw⟩
  | op o k, s, x, hR, hw => by
      obtain ⟨r, s', y, hstep, hR', hQ⟩ := hs o s x _ hR hw
      have hrest := run_sound hs (k r) hR' hQ
      rw [run, hstep]
      exact hrest

/-- Every operation performed has met what its specification needs. -/
theorem ops_sound {σ : Type} {h : Handler Op Res ε σ} {R : σ → A → Prop} (hs : Sound h spec R)
    {P : Op → Prop} (hP : ∀ o Q x, spec o Q x → P o) {Q : α → A → Prop} :
    ∀ (p : Prog Op Res ε α) {s : σ} {x : A}, R s x → wp spec H p Q x → ∀ o ∈ ops h p s, P o
  | ret _, _, _, _, _, o, ho => absurd ho List.not_mem_nil
  | halt _, _, _, _, _, o, ho => absurd ho List.not_mem_nil
  | op o' k, s, x, hR, hw, o, ho => by
      obtain ⟨r, s', y, hstep, hR', hQ⟩ := hs o' s x _ hR hw
      rw [ops, hstep] at ho
      rcases List.mem_cons.mp ho with rfl | ho
      · exact hP _ _ x hw
      · exact ops_sound hs hP (k r) hR' hQ o ho

/-- The handler's operations meet their specifications along `R` if they return. -/
def SoundIfOk {σ : Type} (h : Handler Op Res ε σ) (spec : Spec Op Res A) (R : σ → A → Prop) :
    Prop :=
  ∀ o s x Q r s', R s x → spec o Q x → h o s = .ok (r, s') → ∃ y, R s' y ∧ Q r y

/-- The same for programs that may be stopped by an operation. -/
theorem run_sound_if_ok {σ : Type} {h : Handler Op Res ε σ} {R : σ → A → Prop}
    (hs : SoundIfOk h spec R) {Q : α → A → Prop} :
    ∀ (p : Prog Op Res ε α) {s s' : σ} {x : A} {a : α}, R s x → wp spec (fun _ => True) p Q x →
      run h p s = .ok (a, s') → ∃ y, R s' y ∧ Q a y
  | ret b, s, s', x, a, hR, hw, hrun => by
      rw [run, Except.ok.injEq, Prod.mk.injEq] at hrun
      obtain ⟨rfl, rfl⟩ := hrun
      exact ⟨x, hR, hw⟩
  | halt e, _, _, _, _, _, _, hrun => nomatch hrun
  | op o k, s, s', x, a, hR, hw, hrun => by
      rw [run] at hrun
      cases hstep : h o s with
      | error e =>
          rw [hstep] at hrun
          cases hrun
      | ok p =>
          rw [hstep] at hrun
          obtain ⟨y, hR', hQ⟩ := hs o s x _ p.1 p.2 hR hw hstep
          exact run_sound_if_ok hs (k p.1) hR' hQ hrun

end Prog

end Sthreads
