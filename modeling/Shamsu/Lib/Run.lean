import Mathlib

/-!
# Runs of several parties

`step : σ → α → σ` says what one action does to the state. A run is a list of
actions: when the actions are the atomic steps of several parties, the lists are
exactly the orders in which these can take place, so a theorem about every list
is a theorem about every interleaving.

- `Along step P s as`: each action of the run meets `P` in the state before it.
- `Always step I s as`: `I` holds in every state the run reaches.

`along_iff_always` is the rule for a condition that is exactly what keeps an
invariant, `always_of_along` its half.
-/

namespace Shamsu.Lib

variable {σ α : Type} {step : σ → α → σ} {P : σ → α → Prop} {I : σ → Prop}

/-- The state after the actions. -/
def run (step : σ → α → σ) : σ → List α → σ
  | s, [] => s
  | s, a :: as => run step (step s a) as

/-- Each action meets `P` in the state it is taken in. -/
def Along (step : σ → α → σ) (P : σ → α → Prop) : σ → List α → Prop
  | _, [] => True
  | s, a :: as => P s a ∧ Along step P (step s a) as

/-- Every state of the run meets `I`. -/
def Always (step : σ → α → σ) (I : σ → Prop) : σ → List α → Prop
  | s, [] => I s
  | s, a :: as => I s ∧ Always step I (step s a) as

instance Along.decidable [∀ s a, Decidable (P s a)] :
    ∀ (s : σ) (as : List α), Decidable (Along step P s as)
  | _, [] => inferInstanceAs (Decidable True)
  | s, a :: as =>
    have := Along.decidable (step s a) as
    inferInstanceAs (Decidable (P s a ∧ Along step P (step s a) as))

@[simp] theorem run_nil (s : σ) : run step s [] = s := rfl

@[simp] theorem run_cons (s : σ) (a : α) (as : List α) :
    run step s (a :: as) = run step (step s a) as := rfl

theorem run_append (s : σ) (as bs : List α) :
    run step s (as ++ bs) = run step (run step s as) bs := by
  induction as generalizing s with
  | nil => rfl
  | cons a as ih => exact ih (step s a)

/-- What a step keeps, a run keeps. -/
theorem run_keeps {R : σ → σ → Prop} (hrefl : ∀ s, R s s)
    (htrans : ∀ a b c, R a b → R b c → R a c) (hstep : ∀ s a, R s (step s a)) (s : σ)
    (as : List α) : R s (run step s as) := by
  induction as generalizing s with
  | nil => exact hrefl s
  | cons a as ih => exact htrans _ _ _ (hstep s a) (ih (step s a))

/-- An invariant of the steps that meet the condition. -/
theorem run_invariant (hstep : ∀ s a, I s → P s a → I (step s a)) {s : σ} {as : List α}
    (hs : I s) (h : Along step P s as) : I (run step s as) := by
  induction as generalizing s with
  | nil => exact hs
  | cons a as ih => exact ih (hstep s a hs h.1) h.2

theorem along_of_forall (h : ∀ s a, P s a) (s : σ) (as : List α) : Along step P s as := by
  induction as generalizing s with
  | nil => trivial
  | cons a as ih => exact ⟨h s a, ih (step s a)⟩

/-- What the invariant and the condition give of each step holds of each action of the run. -/
theorem along_of_invariant {Q : σ → α → Prop} (hstep : ∀ s a, I s → P s a → I (step s a))
    (hQ : ∀ s a, I s → P s a → Q s a) {s : σ} {as : List α} (hs : I s)
    (h : Along step P s as) : Along step Q s as := by
  induction as generalizing s with
  | nil => trivial
  | cons a as ih => exact ⟨hQ s a hs h.1, ih (hstep s a hs h.1) h.2⟩

/-- **What a step keeps and needs**: the invariant is there after the run exactly when it was
there before and each action met the condition. -/
theorem run_invariant_iff (hstep : ∀ s a, I (step s a) ↔ I s ∧ P s a) {s : σ} {as : List α} :
    I (run step s as) ↔ I s ∧ Along step P s as := by
  induction as generalizing s with
  | nil => exact ⟨fun hs => ⟨hs, trivial⟩, And.left⟩
  | cons a as ih =>
    show I (run step (step s a) as) ↔ I s ∧ P s a ∧ Along step P (step s a) as
    rw [ih, hstep, and_assoc]

theorem along_append {s : σ} {as bs : List α} :
    Along step P s (as ++ bs) ↔ Along step P s as ∧ Along step P (run step s as) bs := by
  induction as generalizing s with
  | nil => exact ⟨fun h => ⟨trivial, h⟩, fun h => h.2⟩
  | cons a as ih =>
    show P s a ∧ Along step P (step s a) (as ++ bs) ↔ _
    rw [ih]
    exact and_assoc.symm

/-- A run that does not meet the condition has a first action that does not. -/
theorem not_along_iff {s : σ} {as : List α} :
    ¬ Along step P s as ↔
      ∃ as₁ a as₂, as = as₁ ++ a :: as₂ ∧ Along step P s as₁ ∧ ¬ P (run step s as₁) a := by
  constructor
  · intro h
    induction as generalizing s with
    | nil => exact absurd trivial h
    | cons a as ih =>
      by_cases hP : P s a
      · obtain ⟨as₁, b, as₂, rfl, h₁, h₂⟩ := ih fun ha => h ⟨hP, ha⟩
        exact ⟨a :: as₁, b, as₂, rfl, ⟨hP, h₁⟩, h₂⟩
      · exact ⟨[], a, as, rfl, trivial, hP⟩
  · intro hsome h
    obtain ⟨as₁, a, as₂, rfl, _, hP⟩ := hsome
    exact hP (along_append.mp h).2.1

theorem Always.here {s : σ} {as : List α} (h : Always step I s as) : I s := by
  cases as with
  | nil => exact h
  | cons a as => exact h.1

theorem Always.mono {J : σ → Prop} (hIJ : ∀ s, I s → J s) {s : σ} {as : List α}
    (h : Always step I s as) : Always step J s as := by
  induction as generalizing s with
  | nil => exact hIJ s h
  | cons a as ih => exact ⟨hIJ s h.1, ih h.2⟩

/-- In every state of the run is: after every beginning of it. -/
theorem always_iff {s : σ} {as : List α} :
    Always step I s as ↔ ∀ as₁, as₁ <+: as → I (run step s as₁) := by
  induction as generalizing s with
  | nil =>
    constructor
    · intro h as₁ hp
      rw [List.prefix_nil.mp hp]
      exact h
    · intro h
      exact h [] (List.prefix_refl _)
  | cons a as ih =>
    show I s ∧ Always step I (step s a) as ↔ _
    rw [ih]
    constructor
    · intro hsome as₁ hp
      obtain ⟨hs, h⟩ := hsome
      cases as₁ with
      | nil => exact hs
      | cons b bs =>
        obtain ⟨rfl, hbs⟩ := List.cons_prefix_cons.mp hp
        exact h bs hbs
    · intro h
      exact ⟨h [] List.nil_prefix, fun as₁ hp => h (a :: as₁) (List.cons_prefix_cons.mpr ⟨rfl, hp⟩)⟩

theorem always_of_along (hstep : ∀ s a, I s → P s a → I (step s a)) {s : σ} {as : List α}
    (hs : I s) (h : Along step P s as) : Always step I s as := by
  induction as generalizing s with
  | nil => exact hs
  | cons a as ih => exact ⟨hs, ih (hstep s a hs h.1) h.2⟩

/-- **A condition that is exactly what a step needs to keep `I`** is exactly what
a run needs for `I` to hold throughout. -/
theorem along_iff_always (hstep : ∀ s a, I s → (P s a ↔ I (step s a))) {s : σ} {as : List α}
    (hs : I s) : Along step P s as ↔ Always step I s as := by
  induction as generalizing s with
  | nil => exact ⟨fun _ => hs, fun _ => trivial⟩
  | cons a as ih =>
    constructor
    · intro hsome
      obtain ⟨hP, h⟩ := hsome
      exact ⟨hs, (ih ((hstep s a hs).mp hP)).mp h⟩
    · intro hsome
      obtain ⟨_, h⟩ := hsome
      exact ⟨(hstep s a hs).mpr h.here, (ih h.here).mpr h⟩

/-- **A relation that a step keeps exactly under the condition** holds from each state of the
run to every later one exactly when each action meets the condition. -/
theorem along_iff_kept {R : σ → σ → Prop} (hrefl : ∀ s, R s s)
    (htrans : ∀ a b c, R a b → R b c → R a c) (hstep : ∀ s a, P s a ↔ R s (step s a)) {s : σ}
    {as : List α} :
    Along step P s as ↔
      ∀ as₁ as₂, as₁ <+: as₂ → as₂ <+: as → R (run step s as₁) (run step s as₂) := by
  constructor
  · intro h as₁ _ hsome hgiven
    obtain ⟨bs, rfl⟩ := hsome
    obtain ⟨cs, rfl⟩ := hgiven
    have hbs := (along_append.mp (along_append.mp h).1).2
    rw [run_append]
    clear h
    generalize run step s as₁ = t at hbs ⊢
    induction bs generalizing t with
    | nil => exact hrefl t
    | cons b bs ih => exact htrans _ _ _ ((hstep t b).mp hbs.1) (ih (step t b) hbs.2)
  · intro h
    by_contra hnot
    obtain ⟨as₁, a, as₂, rfl, _, hP⟩ := not_along_iff.mp hnot
    refine hP ((hstep _ a).mpr ?_)
    have hkept := h as₁ (as₁ ++ [a]) (List.prefix_append _ _) ⟨as₂, List.append_assoc _ _ _⟩
    rwa [run_append] at hkept

end Shamsu.Lib
