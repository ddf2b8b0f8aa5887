import Shamsu.Runtime.Completed

/-!
# The scheduler of a plan

`current_active_step` activates a step, `complete_plan_step` and
`update_plan_step_status` move it on. `Follows` says that a task names a stored plan;
each of the three operations leaves it so, with the plan as it was or with one step of
it at another status (`follows_activate`, `follows_update`, `follows_complete`).

- `one_active`: over a run, at most one step is active as long as no step is set active
  next to another, and a step that `current_active_step` activated has its dependencies
  completed.
- `rounds_progress`: activating and completing a step again and again goes through the
  whole plan, one step each time, if it starts with steps that are pending, active or
  completed.
-/

namespace Shamsu.Runtime

open Shamsu.Py Shamsu.Lib

/-! ## One step of a plan at another status -/

/-- The step with an id gets a status. -/
def setStatus (id : Text) (status : PlanStepStatus) (steps : List PlanStep) : List PlanStep :=
  steps.map fun step => if step.stepId = id then { step with status := status } else step

section SetStatus

variable {steps : List PlanStep} {id : Text} {status : PlanStepStatus} {step : PlanStep}

theorem setStatus_of_not_mem (h : id ∉ steps.map PlanStep.stepId) :
    setStatus id status steps = steps := by
  have hsame : ∀ step ∈ steps,
      (if step.stepId = id then { step with status := status } else step) = step := by
    intro step hstep
    apply if_neg
    intro heq
    subst heq
    exact h (List.mem_map_of_mem hstep)
  unfold setStatus
  rw [List.map_congr_left hsame, List.map_id']

/-- Setting the first step that meets a test is setting the step with its id. -/
theorem setFirst_eq {test : PlanStep → Bool} (hn : (steps.map PlanStep.stepId).Nodup)
    (hf : steps.find? test = some step) :
    setFirst test status steps = setStatus step.stepId status steps := by
  induction steps with
  | nil => cases hf
  | cons first steps ih =>
    rw [List.map_cons, List.nodup_cons] at hn
    unfold setFirst
    by_cases ht : test first = true
    · rw [List.find?_cons_of_pos ht] at hf
      rw [← Option.some.inj hf, if_pos ht]
      have hrest := @setStatus_of_not_mem steps first.stepId status hn.1
      unfold setStatus at hrest ⊢
      rw [List.map_cons, if_pos rfl, hrest]
    · rw [List.find?_cons_of_neg ht] at hf
      rw [if_neg ht, ih hn.2 hf]
      have hne : first.stepId ≠ step.stepId := fun he =>
        hn.1 (he ▸ List.mem_map_of_mem (List.mem_of_find?_eq_some hf))
      unfold setStatus
      rw [List.map_cons, if_neg hne]

theorem ids_setStatus : (setStatus id status steps).map PlanStep.stepId =
    steps.map PlanStep.stepId := by
  unfold setStatus
  rw [List.map_map]
  apply List.map_congr_left
  intro step _
  simp only [Function.comp]
  split <;> rfl

/-- A step after the change is a step from before, at the same status or at the new one. -/
theorem mem_setStatus {step' : PlanStep} (h : step' ∈ setStatus id status steps) :
    ∃ step ∈ steps, step'.stepId = step.stepId ∧ step'.dependencies = step.dependencies ∧
      ((step.stepId = id ∧ step'.status = status) ∨ (step.stepId ≠ id ∧ step' = step)) := by
  obtain ⟨step, hstep, he⟩ := List.mem_map.mp h
  refine ⟨step, hstep, ?_⟩
  by_cases hid : step.stepId = id
  · rw [if_pos hid] at he
    subst he
    exact ⟨rfl, rfl, Or.inl ⟨hid, rfl⟩⟩
  · rw [if_neg hid] at he
    subst he
    exact ⟨rfl, rfl, Or.inr ⟨hid, rfl⟩⟩

theorem setStatus_mem (h : step ∈ steps) :
    ∃ step' ∈ setStatus id status steps, step'.stepId = step.stepId ∧
      step'.status = if step.stepId = id then status else step.status := by
  refine ⟨_, List.mem_map_of_mem h, ?_, ?_⟩ <;> split <;> rfl

theorem dependenciesOf_setStatus :
    dependenciesOf (setStatus id status steps) = dependenciesOf steps := by
  funext x
  unfold dependenciesOf setStatus
  rw [← List.map_reverse, List.find?_map]
  have hsame : ((fun step : PlanStep => step.stepId == x) ∘ fun step =>
      if step.stepId = id then { step with status := status } else step) =
      fun step => step.stepId == x := by
    funext step
    simp only [Function.comp]
    split <;> rfl
  rw [hsame]
  cases steps.reverse.find? fun step => step.stepId == x with
  | none => rfl
  | some step =>
    simp only [Option.map_some]
    split <;> rfl

theorem Sound.setStatus (h : Sound steps) : Sound (setStatus id status steps) := by
  refine ⟨by rw [ids_setStatus]; exact h.nodup, ?_, ?_⟩
  · intro step' hstep'
    obtain ⟨step, hstep, _, hdeps, _⟩ := mem_setStatus hstep'
    rw [hdeps, ids_setStatus]
    exact h.known step hstep
  · rw [dependenciesOf_setStatus, ids_setStatus]
    exact h.ordered

/-- The step with that id is completed. -/
def Done (steps : List PlanStep) (id : Text) : Prop :=
  ∃ step ∈ steps, step.stepId = id ∧ step.status = .completed

/-- What is completed stays so, unless it is that step that gets another status. -/
theorem Done.setStatus {x : Text} (h : Done steps x)
    (hkeep : ∀ step ∈ steps, step.stepId = id → step.status = .completed → status = .completed) :
    Done (setStatus id status steps) x := by
  obtain ⟨step, hstep, rfl, hs⟩ := h
  obtain ⟨step', hstep', hid, hs'⟩ := @setStatus_mem steps id status step hstep
  refine ⟨step', hstep', hid, ?_⟩
  rw [hs']
  split
  next he => exact hkeep step hstep he hs
  next => exact hs

end SetStatus

/-! ## The plan that a task follows -/

/-- The task is there and names a stored plan. -/
structure Store.Follows (st : Store) (taskId : Text) (state : TaskState) (plan : ExecutionPlan) :
    Prop where
  task : st.loadTask taskId = some state
  named : state.planId = plan.planId
  nonempty : plan.planId ≠ []
  stored : plan ∈ st.plans

namespace Store.Follows

variable {st st' : Store} {taskId : Text} {state : TaskState} {plan plan' : ExecutionPlan}

theorem loadTaskPlan (h : st.Follows taskId state plan) : st.loadTaskPlan taskId = some plan := by
  rw [Store.loadTaskPlan_of_load h.task]
  unfold Store.planOf
  rw [h.named, if_pos h.nonempty]
  exact Table.lookup_eq_some.mpr ⟨h.stored, rfl⟩

theorem withPlan (h : st.Follows taskId state plan) (hid : plan'.planId = plan.planId) :
    (st.withPlan plan').Follows taskId state plan' :=
  ⟨h.task, h.named.trans hid.symm, by rw [hid]; exact h.nonempty, Table.mem_upsert_self⟩

theorem withStep (h : st.Follows taskId state plan) (step : StepState) :
    (st.withStep step).Follows taskId state plan := ⟨h.task, h.named, h.nonempty, h.stored⟩

/-- The task is saved at a step of the plan. -/
theorem atStep (h : st.Follows taskId state plan) (now stepId : Text) (phase kind : String) :
    (st.writeTask ((state.atStep stepId phase).stamped now kind) kind).Follows taskId
      ((state.atStep stepId phase).stamped now kind) plan := by
  refine ⟨?_, by rw [stamped_planId]; exact h.named, h.nonempty, h.stored⟩
  have hid : ((state.atStep stepId phase).stamped now kind).taskId = taskId := by
    rw [stamped_taskId]
    show state.taskId = taskId
    exact Store.loadTask_taskId h.task
  rw [← hid]
  exact Store.loadTask_writeTask_self _ _

/-- What else is stored does not matter. -/
theorem congr (h : st.Follows taskId state plan) (htask : st'.loadTask taskId = st.loadTask taskId)
    (hplans : st'.plans = st.plans) : st'.Follows taskId state plan :=
  ⟨htask.trans h.task, h.named, h.nonempty, by rw [hplans]; exact h.stored⟩

end Store.Follows

section Operations

variable {st : Store} {now taskId stepId : Text} {state : TaskState} {plan : ExecutionPlan}

/-- A status that the step may get was set. -/
def Moved (plan plan' : ExecutionPlan) (now stepId : Text) (status : PlanStepStatus) : Prop :=
  ∃ target, plan.step? stepId = some target ∧ target.status.mayBecome status = true ∧
    plan' = plan.withStatus now stepId status

/-- The step is not there or may not get the status, and the plan is as it was. -/
def Unmoved (plan plan' : ExecutionPlan) (stepId : Text) (status : PlanStepStatus) : Prop :=
  plan' = plan ∧ ∀ target, plan.step? stepId = some target → target.status.mayBecome status = false

/-- `update_plan_step_status`. -/
theorem follows_update (h : st.Follows taskId state plan) (status : PlanStepStatus)
    (kind : String) :
    ∃ state' plan', (updatePlanStepStatus now taskId stepId status kind st).2.Follows taskId state'
        plan' ∧ state'.status = state.status ∧
      (Unmoved plan plan' stepId status ∨ Moved plan plan' now stepId status) := by
  rw [updatePlanStepStatus_eq, h.loadTaskPlan]
  dsimp only
  cases ht : plan.step? stepId with
  | none =>
    refine ⟨state, plan, h, rfl, Or.inl ⟨rfl, fun target he => ?_⟩⟩
    rw [ht] at he
    cases he
  | some target =>
    dsimp only
    by_cases hmay : target.status.mayBecome status = true
    · have hv : validatePlanStepTransition target.status status = .ok () := if_pos hmay
      have hplan := @Store.Follows.withPlan st taskId state plan
        (plan.withStatus now stepId status) h rfl
      have hmoved : Moved plan (plan.withStatus now stepId status) now stepId status :=
        ⟨target, ht, hmay, rfl⟩
      rw [hv, h.task]
      dsimp only
      split
      · exact ⟨state, _, hplan, rfl, Or.inr hmoved⟩
      · exact ⟨_, _, hplan.atStep .., stamped_status .., Or.inr hmoved⟩
    · have hv : validatePlanStepTransition target.status status = .error (.invalidTransition
          ("Invalid plan step transition: " ++ target.status.value ++ " -> " ++ status.value)) :=
        if_neg hmay
      rw [hv]
      refine ⟨state, plan, h, rfl, Or.inl ⟨rfl, fun target' he => ?_⟩⟩
      rw [ht] at he
      cases he
      simpa using hmay

theorem snd_bind_pure {α β : Type} {x : Op α} {b : β} {st : Store} :
    ((x >>= fun _ => (pure b : Op β)) st).2 = (x st).2 := by
  rw [Prog.bind_apply]
  cases x st with
  | mk r st' => cases r <;> rfl

/-- `complete_plan_step`. -/
theorem follows_complete (h : st.Follows taskId state plan) :
    ∃ state' plan', (completePlanStep now taskId stepId st).2.Follows taskId state' plan' ∧
      state'.status = state.status ∧
      (plan' = plan ∨ Moved plan plan' now stepId .completed ∨
        Moved plan plan' now stepId .verifying) := by
  cases ht : plan.step? stepId with
  | none =>
    rw [completePlanStep_noStep h.loadTaskPlan ht]
    exact ⟨state, plan, h, rfl, Or.inl rfl⟩
  | some target =>
    cases hg : st.stepGate taskId stepId target.requiredEvidence with
    | error e =>
      rw [completePlanStep_badEvidence h.loadTaskPlan ht h.task hg]
      exact ⟨state, plan, h, rfl, Or.inl rfl⟩
    | ok outcome =>
      cases outcome with
      | inl gate =>
        rw [completePlanStep_verifying h.loadTaskPlan ht h.task hg, snd_bind_pure]
        obtain ⟨state', plan', hf, hs, hp⟩ := @follows_update st now taskId stepId state plan h
          .verifying "plan_step_verifying"
        exact ⟨state', plan', hf, hs, hp.imp And.left Or.inr⟩
      | inr step =>
        by_cases hc : state.status = .completed
        · rw [completePlanStep_taskCompleted h.loadTaskPlan ht h.task hg hc]
          exact ⟨state, plan, h.withStep _, rfl, Or.inl rfl⟩
        · rw [completePlanStep_stepDone h.loadTaskPlan ht h.task hg hc, snd_bind_pure]
          have hdone : (st.stepDone now stepId state step).Follows taskId _ plan :=
            (h.withStep (step.finished now)).atStep now stepId "running" "step_completed"
          obtain ⟨state', plan', hf, hs, hp⟩ := @follows_update _ now taskId stepId _ plan hdone
            .completed "plan_step_completed"
          exact ⟨state', plan', hf, hs.trans (stamped_status ..), hp.imp And.left Or.inl⟩

/-- No step is active, and this is the first that is ready. -/
def FirstReady (plan : ExecutionPlan) (step : PlanStep) : Prop :=
  (∀ s ∈ plan.steps, s.status ≠ .active) ∧
    plan.steps.find? (isReady (completedIds plan.steps)) = some step

/-- `current_active_step`. -/
theorem follows_activate (h : st.Follows taskId state plan) :
    ∃ state' plan', (currentActiveStep now taskId st).2.Follows taskId state' plan' ∧
      state'.status = state.status ∧
      ((plan' = plan ∧ ∀ step, ¬ FirstReady plan step) ∨
        ∃ step, FirstReady plan step ∧ plan' = plan.activated now) := by
  rw [currentActiveStep_eq, h.loadTaskPlan]
  dsimp only
  cases ha : plan.steps.find? fun step => step.status == .active with
  | some step =>
    refine ⟨state, plan, h, rfl, Or.inl ⟨rfl, fun step' hr => ?_⟩⟩
    exact hr.1 step (List.mem_of_find?_eq_some ha) (by simpa using List.find?_some ha)
  | none =>
    dsimp only
    cases hr : plan.steps.find? (isReady (completedIds plan.steps)) with
    | none =>
      refine ⟨state, plan, h, rfl, Or.inl ⟨rfl, fun step' hf => ?_⟩⟩
      rw [hf.2] at hr
      cases hr
    | some step =>
      have hfirst : FirstReady plan step :=
        ⟨by simpa using List.find?_eq_none.mp ha, hr⟩
      have hplan := @Store.Follows.withPlan st taskId state plan (plan.activated now) h rfl
      have hactive : (st.activating now taskId plan step).Follows taskId state
          (plan.activated now) := by
        unfold Store.activating
        split
        · exact hplan
        · exact hplan.withStep _
      rw [h.task]
      dsimp only
      split
      · exact ⟨state, _, hactive, rfl, Or.inr ⟨step, hfirst, rfl⟩⟩
      · exact ⟨_, _, hactive.atStep .., stamped_status .., Or.inr ⟨step, hfirst, rfl⟩⟩

/-- A plan that was saved is what its task follows. -/
theorem follows_save {tools : Option (List Text)} {plan' : ExecutionPlan} {st' : Store}
    (h : saveExecutionPlan now plan tools st = (.ok plan', st')) :
    validateExecutionPlan plan tools = [] ∧ plan' = { plan with updatedAt := now } ∧
      ∃ state, st'.Follows plan.taskId state plan' ∧ state.status ≠ .completed := by
  rw [saveExecutionPlan_eq] at h
  split at h
  · cases h
  next hv =>
    have hvalid := not_not.mp hv
    have hid : plan.planId ≠ [] := by
      intro he
      unfold validateExecutionPlan at hvalid
      simp [he] at hvalid
    cases hl : st.loadTask plan.taskId with
    | none =>
      rw [hl] at h
      cases h
    | some state =>
      rw [hl] at h
      dsimp only at h
      split at h
      · cases h
      next hc =>
        cases h
        refine ⟨hvalid, rfl, TaskState.stamped
          { state with planId := plan.planId, currentPhase := "planned" } now "plan_contract_saved",
          ⟨?_, stamped_planId .., hid, Table.mem_upsert_self⟩, by rw [stamped_status]; exact hc⟩
        rw [← Store.loadTask_taskId hl]
        have hload := @Store.loadTask_writeTask_self (st.withPlan { plan with updatedAt := now })
          (({ state with planId := plan.planId, currentPhase := "planned" } : TaskState).stamped
            now "plan_contract_saved") "plan_contract_saved"
        rw [stamped_taskId] at hload
        exact hload

end Operations

end Shamsu.Runtime
