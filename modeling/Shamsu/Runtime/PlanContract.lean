import Shamsu.Lib.Acyclic
import Shamsu.Runtime.TaskState

/-!
# The contract of an execution plan

`validate_execution_plan`: a plan without errors has steps with different ids, whose
dependencies are steps of the plan, in no cycle. What the scheduler needs of it is
`Sound`; `sound_of_valid` is the way there.
-/

namespace Shamsu.Runtime

open Shamsu.Py Shamsu.Lib

def mutatingTools : List String :=
  ["write_file", "edit_file", "append_file", "file.patch", "delete_file", "run_command",
    "git.checkpoint"]

/-- `_step_is_mutating`. -/
def PlanStep.isMutating (step : PlanStep) : Bool :=
  step.approvalRequired ||
    step.allowedTools.any fun tool => mutatingTools.any fun name => name.toList == tool

/-- The graph of `_first_dependency_cycle`: of two steps with one id the later one. -/
def dependenciesOf (steps : List PlanStep) (id : Text) : List Text :=
  match steps.reverse.find? fun step => step.stepId == id with
  | some step => step.dependencies
  | none => []

/-- `_first_dependency_cycle`. Its `visiting` has the nodes of its `stack`. An id that
stands twice is visited by then, so it makes no difference that the graph has it once. -/
def firstDependencyCycle (steps : List PlanStep) : List Text :=
  match Acyclic.visitAll (dependenciesOf steps) (steps.map PlanStep.stepId) with
  | some (.cycle nodes) => nodes
  | some (.finished _) => []
  | none => []

/-- `sep.join(texts)` in a message. -/
def joined (sep : String) (texts : List Text) : String := sep.intercalate (texts.map str)

/-- The errors of one step. -/
def stepErrors (knownIds : List Text) (validToolNames : Option (List Text)) (step : PlanStep) :
    List String :=
  (if step.stepId = [] then ["step_id is required"] else []) ++
  (if isBlank step.title then [str step.stepId ++ ": title is required"] else []) ++
  (if isBlank step.goal then [str step.stepId ++ ": goal is required"] else []) ++
  (if step.acceptanceCriteria.isEmpty then [str step.stepId ++ ": acceptance_criteria is required"]
    else []) ++
  (if step.isMutating && step.requiredEvidence.isEmpty
    then [str step.stepId ++ ": mutating step requires evidence"] else []) ++
  (step.dependencies.filter fun dep => !knownIds.contains dep).map
    (fun dep => str step.stepId ++ ": unknown dependency " ++ str dep) ++
  (if ["low", "medium", "high"].any fun level => level.toList == step.riskLevel then []
    else [str step.stepId ++ ": invalid risk level " ++ str step.riskLevel]) ++
  (step.requiredEvidence.filter fun e => (EvidenceType.parse e).isNone).map
    (fun e => str step.stepId ++ ": invalid evidence type " ++ str e) ++
  match validToolNames with
  | some names => (step.allowedTools.filter fun tool => !names.contains tool).map
      fun tool => str step.stepId ++ ": unknown tool " ++ str tool
  | none => []

/-- `validate_execution_plan`: the errors; without one the plan is accepted. -/
def validateExecutionPlan (plan : ExecutionPlan) (validToolNames : Option (List Text)) :
    List String :=
  let ids := plan.steps.map PlanStep.stepId
  let duplicates := (ids.filter fun id => decide (1 < ids.count id)).dedup.insertionSort (· ≤ ·)
  let cycle := firstDependencyCycle plan.steps
  (if plan.planId = [] then ["plan_id is required"] else []) ++
  (if plan.taskId = [] then ["task_id is required"] else []) ++
  (if plan.steps.isEmpty then ["at least one step is required"] else []) ++
  (if duplicates.isEmpty then [] else ["duplicate step_id: " ++ joined ", " duplicates]) ++
  plan.steps.flatMap (stepErrors ids validToolNames) ++
  (if cycle.isEmpty then [] else ["cyclic dependency: " ++ joined " -> " cycle])

/-- What a plan without errors is, for the scheduler: `order` is a list of its ids in
which each comes after its dependencies. -/
structure Sound (steps : List PlanStep) : Prop where
  nodup : (steps.map PlanStep.stepId).Nodup
  known : ∀ step ∈ steps, ∀ dep ∈ step.dependencies, dep ∈ steps.map PlanStep.stepId
  ordered : ∃ order, Acyclic.Ordered (dependenciesOf steps) order ∧
    steps.map PlanStep.stepId ⊆ order

section Validated

variable {plan : ExecutionPlan} {tools : Option (List Text)}

/-- With different ids the graph has the dependencies of each step. -/
theorem dependenciesOf_eq {steps : List PlanStep} (hn : (steps.map PlanStep.stepId).Nodup)
    {step : PlanStep} (hstep : step ∈ steps) :
    dependenciesOf steps step.stepId = step.dependencies := by
  unfold dependenciesOf
  cases hf : steps.reverse.find? fun s => s.stepId == step.stepId with
  | none =>
    have := List.find?_eq_none.mp hf step (List.mem_reverse.mpr hstep)
    simp at this
  | some found =>
    have hmem : found ∈ steps := List.mem_reverse.mp (List.mem_of_find?_eq_some hf)
    have hid : found.stepId = step.stepId := by simpa using List.find?_some hf
    rw [List.inj_on_of_nodup_map hn hmem hstep hid]

theorem dependenciesOf_unknown {steps : List PlanStep} {id : Text}
    (h : id ∉ steps.map PlanStep.stepId) : dependenciesOf steps id = [] := by
  unfold dependenciesOf
  rw [List.find?_eq_none.mpr]
  intro step hstep he
  exact h (List.mem_map.mpr ⟨step, List.mem_reverse.mp hstep, by simpa using he⟩)

/-- A search that names no cycle went through the whole plan. -/
theorem ordered_of_no_cycle {steps : List PlanStep} (h : firstDependencyCycle steps = []) :
    ∃ order, Acyclic.Ordered (dependenciesOf steps) order ∧
      steps.map PlanStep.stepId ⊆ order := by
  unfold firstDependencyCycle at h
  split at h
  next nodes hc =>
    -- a cycle that is found has a node
    exact absurd hc (by rw [h]; exact Acyclic.visitAll_ne_nil_cycle)
  next order hv => exact ⟨order, Acyclic.visitAll_ordered hv⟩
  next hn => exact absurd hn (Acyclic.visitAll_ne_none fun _ => dependenciesOf_unknown)

theorem valid_parts (h : validateExecutionPlan plan tools = []) :
    (plan.steps.map PlanStep.stepId).Nodup ∧
      (∀ step ∈ plan.steps, stepErrors (plan.steps.map PlanStep.stepId) tools step = []) ∧
      firstDependencyCycle plan.steps = [] := by
  unfold validateExecutionPlan at h
  dsimp only at h
  simp only [List.append_eq_nil_iff] at h
  obtain ⟨⟨⟨_, hdup⟩, hsteps⟩, hcycle⟩ := h
  refine ⟨?_, fun step hstep => List.flatMap_eq_nil_iff.mp hsteps step hstep, ?_⟩
  · rw [List.nodup_iff_count_le_one]
    intro id
    by_contra hlt
    split at hdup
    next he =>
      have hid : id ∈ plan.steps.map PlanStep.stepId :=
        List.count_pos_iff.mp (by omega)
      have hmem : id ∈ ((plan.steps.map PlanStep.stepId).filter fun id =>
          decide (1 < (plan.steps.map PlanStep.stepId).count id)).dedup.insertionSort (· ≤ ·) := by
        rw [List.mem_insertionSort, List.mem_dedup, List.mem_filter]
        exact ⟨hid, by simpa using by omega⟩
      rw [List.isEmpty_iff.mp he] at hmem
      exact absurd hmem List.not_mem_nil
    next => cases hdup
  · split at hcycle
    next he => exact List.isEmpty_iff.mp he
    next => cases hcycle

/-- **A plan without errors is sound.** -/
theorem sound_of_valid (h : validateExecutionPlan plan tools = []) : Sound plan.steps := by
  obtain ⟨hn, hsteps, hcycle⟩ := valid_parts h
  refine ⟨hn, ?_, ordered_of_no_cycle hcycle⟩
  intro step hstep dep hdep
  have he := hsteps step hstep
  unfold stepErrors at he
  simp only [List.append_eq_nil_iff] at he
  obtain ⟨⟨⟨⟨_, hknown⟩, _⟩, _⟩, _⟩ := he
  have hfilter := List.map_eq_nil_iff.mp hknown
  by_contra hno
  have : dep ∈ step.dependencies.filter fun dep =>
      !(plan.steps.map PlanStep.stepId).contains dep :=
    List.mem_filter.mpr ⟨hdep, by simpa using hno⟩
  rw [hfilter] at this
  exact absurd this List.not_mem_nil

end Validated

end Shamsu.Runtime
