import Shamsu.Runtime.PlanContract

/-!
# Cycles of dependencies

`_first_dependency_cycle` over any list of steps, with ids that stand twice, steps that
depend on themselves and dependencies on steps that are not there.

`first_dependency_cycle`: it ends, names nothing exactly when the graph of the known steps
has no cycle, and what it names otherwise is one.
-/

namespace Shamsu.Runtime

open Shamsu.Py Shamsu.Lib

variable {steps : List PlanStep}

/-- A known step that another known step depends on. -/
def Depends (steps : List PlanStep) (a b : Text) : Prop :=
  Acyclic.Edge (dependenciesOf steps) a b ∧ a ∈ steps.map PlanStep.stepId ∧
    b ∈ steps.map PlanStep.stepId

/-- A step that depends on another is known. -/
theorem known_of_edge {a b : Text} (h : Acyclic.Edge (dependenciesOf steps) a b) :
    a ∈ steps.map PlanStep.stepId := by
  by_contra hunknown
  have hnone : b ∈ dependenciesOf steps a := h
  rw [dependenciesOf_unknown hunknown] at hnone
  cases hnone

/-- A way to a known step leads over known steps only. -/
theorem depends_of_edges {a b : Text}
    (h : Relation.TransGen (Acyclic.Edge (dependenciesOf steps)) a b)
    (hb : b ∈ steps.map PlanStep.stepId) : Relation.TransGen (Depends steps) a b := by
  induction h using Relation.TransGen.head_induction_on with
  | single hedge => exact .single ⟨hedge, known_of_edge hedge, hb⟩
  | head hedge hmore ih =>
    obtain ⟨_, hnext, _⟩ := Relation.TransGen.head'_iff.mp hmore
    exact .head ⟨hedge, known_of_edge hedge, known_of_edge hnext⟩ ih

theorem cycle_of_edges {a : Text}
    (h : Relation.TransGen (Acyclic.Edge (dependenciesOf steps)) a a) :
    Relation.TransGen (Depends steps) a a := by
  obtain ⟨_, hedge, _⟩ := Relation.TransGen.head'_iff.mp h
  exact depends_of_edges h (known_of_edge hedge)

/-- What is named is a cycle of the graph. -/
theorem isCycle_firstDependencyCycle (h : firstDependencyCycle steps ≠ []) :
    Acyclic.IsCycle (dependenciesOf steps) (firstDependencyCycle steps) := by
  unfold firstDependencyCycle at h ⊢
  split
  next nodes hfound => exact Acyclic.visitAll_cycle hfound
  next hfinished => exact absurd (by rw [hfinished]) h
  next hnone => exact absurd (by rw [hnone]) h

/-- **The search for a cycle** ends, finds one exactly when there is one, and names it. -/
theorem first_dependency_cycle (steps : List PlanStep) :
    Acyclic.visitAll (dependenciesOf steps) (steps.map PlanStep.stepId) ≠ none ∧
      (firstDependencyCycle steps = [] ↔ ∀ id, ¬ Relation.TransGen (Depends steps) id id) ∧
      (firstDependencyCycle steps ≠ [] →
        Acyclic.IsCycle (dependenciesOf steps) (firstDependencyCycle steps)) := by
  refine ⟨Acyclic.visitAll_ne_none fun _ => dependenciesOf_unknown, ⟨fun h id hcycle => ?_, ?_⟩,
    isCycle_firstDependencyCycle⟩
  · obtain ⟨order, hordered, hsub⟩ := ordered_of_no_cycle h
    obtain ⟨_, hedge, _⟩ := Relation.TransGen.head'_iff.mp hcycle
    exact hordered.acyclic (hsub hedge.2.1) (hcycle.lift _ fun _ _ h => h.1)
  · intro hacyclic
    by_contra hnamed
    obtain ⟨id, hcycle⟩ := (isCycle_firstDependencyCycle hnamed).transGen
    exact hacyclic id (cycle_of_edges hcycle)

end Shamsu.Runtime
