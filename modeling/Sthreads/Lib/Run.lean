/-
Runs of a transition system.

A system is a partial step function on states: `step s a` is `none` when the
action `a` cannot be taken in `s`, or when it ends the run.  A run is recorded as
the list of its steps, each with the state it was taken in, so that a statement
can speak both of the states a run visits and of the conditions its steps met.

The rules here are the only inductions over runs in the development: an invariant
is carried from the first state to the last, unconditionally or under a condition
that every step of the run meets, and a property of states that holds exactly as
long as the condition does is characterised over whole runs.
-/
import Mathlib.Data.List.Basic

namespace Sthreads

variable {S A : Type}

/-- A run from `s₀`: the steps taken, oldest first, and the state reached. -/
inductive Run (step : S → A → Option S) (s₀ : S) : List (S × A) → S → Prop
  | nil : Run step s₀ [] s₀
  | snoc {tr : List (S × A)} {s s' : S} {a : A} (h : Run step s₀ tr s)
      (hstep : step s a = some s') : Run step s₀ (tr ++ [(s, a)]) s'

/-- Every state a run passes through, the last one included. -/
def visited (tr : List (S × A)) (s : S) : List S := tr.map Prod.fst ++ [s]

/-- The steps, each with the state it led to. -/
def transitions (tr : List (S × A)) (s : S) : List ((S × A) × S) := tr.zip (visited tr s).tail

theorem transitions_snoc (tr : List (S × A)) (s s' : S) (a : A) :
    transitions (tr ++ [(s, a)]) s' = transitions tr s ++ [((s, a), s')] := by
  have htail : (visited (tr ++ [(s, a)]) s').tail = (visited tr s).tail ++ [s'] := by
    cases tr <;> simp [visited]
  rw [transitions, htail, List.zip_append (by simp [visited])]
  rfl

/-- Reachable by some run. -/
def Reaches (step : S → A → Option S) (s₀ s : S) : Prop := ∃ tr, Run step s₀ tr s

/-- Take a list of actions one after the other. -/
def runActs (step : S → A → Option S) : S → List A → Option S
  | s, [] => some s
  | s, a :: rest => (step s a).bind fun s' => runActs step s' rest

namespace Run

variable {step : S → A → Option S} {s₀ : S}

/-! ### Invariants -/

/-- What the first state has and every step keeps, the last state has. -/
theorem invariant (Inv : S → Prop) (h0 : Inv s₀)
    (hstep : ∀ s a s', Inv s → step s a = some s' → Inv s')
    {tr : List (S × A)} {s : S} (h : Run step s₀ tr s) : Inv s := by
  induction h with
  | nil => exact h0
  | snoc _ hs ih => exact hstep _ _ _ ih hs

/-- The same for an invariant that is only kept by steps that meet a condition. -/
theorem invariant_of (Inv : S → Prop) (ok : S → A → Prop) (h0 : Inv s₀)
    (hstep : ∀ s a s', Inv s → ok s a → step s a = some s' → Inv s')
    {tr : List (S × A)} {s : S} (h : Run step s₀ tr s) (hok : ∀ p ∈ tr, ok p.1 p.2) :
    Inv s := by
  induction h with
  | nil => exact h0
  | @snoc tr s s' a _ hs ih =>
      have hprev : Inv s := ih fun p hp => hok p (by simp [hp])
      exact hstep s a s' hprev (hok (s, a) (by simp)) hs

/-- The same for a relation between the last state and the steps that have led to it. -/
theorem history_of (Inv : List (S × A) → S → Prop) (ok : S → A → Prop) (h0 : Inv [] s₀)
    (hstep : ∀ tr s a s', Inv tr s → ok s a → step s a = some s' → Inv (tr ++ [(s, a)]) s')
    {tr : List (S × A)} {s : S} (h : Run step s₀ tr s) (hok : ∀ p ∈ tr, ok p.1 p.2) :
    Inv tr s := by
  induction h with
  | nil => exact h0
  | @snoc tr s s' a _ hs ih =>
      have hprev : Inv tr s := ih fun p hp => hok p (by simp [hp])
      exact hstep tr s a s' hprev (hok (s, a) (by simp)) hs

/-- Every state on the way has the invariant too. -/
theorem visited_of (Inv : S → Prop) (ok : S → A → Prop) (h0 : Inv s₀)
    (hstep : ∀ s a s', Inv s → ok s a → step s a = some s' → Inv s')
    {tr : List (S × A)} {s : S} (h : Run step s₀ tr s) (hok : ∀ p ∈ tr, ok p.1 p.2) :
    ∀ x ∈ visited tr s, Inv x := by
  induction h with
  | nil =>
      intro x hx
      have hx0 : x = s₀ := by simpa [visited] using hx
      rw [hx0]
      exact h0
  | @snoc tr s s' a hr hs ih =>
      have hok' : ∀ p ∈ tr, ok p.1 p.2 := fun p hp => hok p (by simp [hp])
      intro x hx
      simp only [visited, List.map_append, List.map_cons, List.map_nil, List.mem_append,
        List.mem_singleton] at hx
      rcases hx with hx | rfl
      · exact ih hok' x (by simpa [visited] using hx)
      · exact hstep _ _ _ (invariant_of Inv ok h0 hstep hr hok') (hok (s, a) (by simp)) hs

/--
A property of states that holds exactly as long as every step meets a condition.

`Inv` is the invariant that carries the property: steps that meet the condition
keep it, and a step that does not meet it lands where the property fails.
-/
theorem visited_iff (Inv : S → Prop) {P : S → Prop} {ok : S → A → Prop} (h0 : Inv s₀)
    (hP : ∀ s, Inv s → P s)
    (hgood : ∀ s a s', Inv s → ok s a → step s a = some s' → Inv s')
    (hbad : ∀ s a s', Inv s → ¬ ok s a → step s a = some s' → ¬ P s')
    {tr : List (S × A)} {s : S} (h : Run step s₀ tr s) :
    (∀ x ∈ visited tr s, P x) ↔ ∀ p ∈ tr, ok p.1 p.2 := by
  constructor
  · intro hall
    induction h with
    | nil => simp
    | @snoc tr s s' a hr hs ih =>
        have hok : ∀ p ∈ tr, ok p.1 p.2 := ih fun x hx => hall x (by
          simp only [visited, List.map_append, List.map_cons, List.map_nil,
            List.mem_append, List.mem_singleton] at hx ⊢
          exact Or.inl hx)
        have hinv : Inv s := invariant_of Inv ok h0 hgood hr hok
        intro p hp
        rcases List.mem_append.mp hp with hp | hp
        · exact hok p hp
        · have hpe : p = (s, a) := by simpa using hp
          subst hpe
          by_contra hc
          exact hbad s a s' hinv hc hs (hall s' (by simp [visited]))
  · intro hok x hx
    exact hP x (visited_of Inv ok h0 hgood h hok x hx)

/-- A run up to one of its steps, the step, and the rest of the run. -/
theorem split_at {tr₁ tr₂ : List (S × A)} {x s : S} {a : A}
    (h : Run step s₀ (tr₁ ++ (x, a) :: tr₂) s) :
    Run step s₀ tr₁ x ∧ ∃ x', step x a = some x' ∧ Run step x' tr₂ s := by
  generalize htr : tr₁ ++ (x, a) :: tr₂ = tr at h
  induction h generalizing tr₂ with
  | nil => simp at htr
  | @snoc tr s s' b hr hs ih =>
      rcases List.eq_nil_or_concat tr₂ with rfl | ⟨tr₃, p, rfl⟩
      · obtain ⟨rfl, hp⟩ := List.append_inj' htr rfl
        obtain ⟨rfl, rfl⟩ := Prod.mk.inj (List.singleton_inj.mp hp)
        exact ⟨hr, s', hs, .nil⟩
      · rw [List.concat_eq_append, ← List.cons_append, ← List.append_assoc] at htr
        obtain ⟨htr', hp⟩ := List.append_inj' htr rfl
        obtain rfl := List.singleton_inj.mp hp
        obtain ⟨hrun, x', hx', hrest⟩ := ih htr'
        exact ⟨hrun, x', hx', List.concat_eq_append ▸ hrest.snoc hs⟩

end Run

/-- A part of the state whose steps are steps of a system of its own, and which other steps leave,
is reachable there. -/
theorem Reaches.project {S' A' : Type} {step : S → A → Option S} {step' : S' → A' → Option S'}
    {s₀ s : S} (f : S → S')
    (hstep : ∀ s a s', step s a = some s' → f s' = f s ∨ ∃ a', step' (f s) a' = some (f s'))
    (h : Reaches step s₀ s) : Reaches step' (f s₀) (f s) := by
  obtain ⟨tr, htr⟩ := h
  refine htr.invariant (fun s => Reaches step' (f s₀) (f s)) ⟨[], .nil⟩ fun x a x' hx hs => ?_
  obtain ⟨tr', htr'⟩ := hx
  rcases hstep x a x' hs with heq | ⟨a', ha'⟩
  · exact ⟨tr', heq ▸ htr'⟩
  · exact ⟨_, htr'.snoc ha'⟩

/-- Take a list of actions one after the other and record the steps. -/
def runTrace (step : S → A → Option S) : S → List A → Option (List (S × A) × S)
  | s, [] => some ([], s)
  | s, a :: rest => (step s a).bind fun s' =>
      (runTrace step s' rest).map fun r => ((s, a) :: r.1, r.2)

/-- The steps recorded are a run. -/
theorem run_of_runTrace {step : S → A → Option S} {s₀ : S} :
    ∀ (acts : List A) {tr tr' : List (S × A)} {s s' : S}, Run step s₀ tr s →
      runTrace step s acts = some (tr', s') → Run step s₀ (tr ++ tr') s' := by
  intro acts
  induction acts with
  | nil =>
      intro tr tr' s s' hr h
      simp only [runTrace, Option.some.injEq, Prod.mk.injEq] at h
      obtain ⟨rfl, rfl⟩ := h
      rwa [List.append_nil]
  | cons a rest ih =>
      intro tr tr' s s' hr h
      obtain ⟨s₁, hs₁, h⟩ := Option.bind_eq_some_iff.mp h
      obtain ⟨⟨tr'', s''⟩, hrest, h⟩ := Option.map_eq_some_iff.mp h
      simp only [Prod.mk.injEq] at h
      obtain ⟨rfl, rfl⟩ := h
      have := ih (hr.snoc hs₁) hrest
      rwa [List.append_assoc, List.singleton_append] at this

theorem runTrace_acts {step : S → A → Option S} :
    ∀ (acts : List A) {tr : List (S × A)} {s s' : S},
      runTrace step s acts = some (tr, s') → tr.map Prod.snd = acts := by
  intro acts
  induction acts with
  | nil =>
      intro tr s s' h
      simp only [runTrace, Option.some.injEq, Prod.mk.injEq] at h
      rw [← h.1, List.map_nil]
  | cons a rest ih =>
      intro tr s s' h
      obtain ⟨s₁, -, h⟩ := Option.bind_eq_some_iff.mp h
      obtain ⟨⟨tr', s''⟩, hrest, h⟩ := Option.map_eq_some_iff.mp h
      simp only [Prod.mk.injEq] at h
      rw [← h.1, List.map_cons, ih hrest]

/-- A list of actions that can all be taken is a run. -/
theorem runActs_run {step : S → A → Option S} {s₀ : S} :
    ∀ (acts : List A) {tr : List (S × A)} {s s' : S}, Run step s₀ tr s →
      runActs step s acts = some s' → ∃ tr', Run step s₀ (tr ++ tr') s' := by
  intro acts
  induction acts with
  | nil =>
      intro tr s s' hr h
      simp only [runActs, Option.some.injEq] at h
      subst h
      exact ⟨[], by simpa using hr⟩
  | cons a rest ih =>
      intro tr s s' hr h
      simp only [runActs, Option.bind_eq_some_iff] at h
      obtain ⟨s₁, hs₁, hrest⟩ := h
      obtain ⟨tr', htr'⟩ := ih (hr.snoc hs₁) hrest
      exact ⟨(s, a) :: tr', by simpa using htr'⟩

/-- What a list of actions leads to is reachable. -/
theorem reaches_runActs {step : S → A → Option S} {s₀ s : S} (acts : List A)
    (h : runActs step s₀ acts = some s) : Reaches step s₀ s := by
  obtain ⟨tr, htr⟩ := runActs_run acts Run.nil h
  exact ⟨[] ++ tr, htr⟩

end Sthreads
