import Shamsu.Runtime.Refused

/-!
# Completed tasks

`request_task_complete` lets a task through whose steps are done or skipped and whose
plan steps are completed (`Whole`). Afterwards the other operations can still write
steps and plans. `whole_run` says what they must keep off for it to stay so in every
state of a run: steps and plans of completed tasks, and `save_task` past the gate.
`step_of_completed` is a run that records a running step for a completed task.
-/

namespace Shamsu.Runtime

open Shamsu.Py Shamsu.Lib

/-- Done or skipped. -/
def StepState.over (step : StepState) : Prop := step.status = .done ∨ step.status = .skipped

/-- All its steps are completed. -/
def ExecutionPlan.completed (plan : ExecutionPlan) : Prop :=
  ∀ step ∈ plan.steps, step.status = .completed

namespace Store

/-- The row of the task is completed. -/
def IsCompleted (st : Store) (taskId : Text) : Prop :=
  ∃ task ∈ st.tasks, task.taskId = taskId ∧ task.status = .completed

/-- The plan is no plan of a completed task: not the one it names, nor one that names it. -/
def PlanFree (st : Store) (plan : ExecutionPlan) : Prop :=
  ∀ task ∈ st.tasks, task.status = .completed →
    task.planId ≠ plan.planId ∧ task.taskId ≠ plan.taskId

/-- A completed task has all its steps done or skipped and all its plan steps completed. -/
def Whole (st : Store) : Prop :=
  ∀ task ∈ st.tasks, task.status = .completed →
    (∀ step ∈ st.steps, step.taskId = task.taskId → step.over) ∧
      ∀ plan, st.loadTaskPlan task.taskId = some plan → plan.completed

/-- What the gate of `request_task_complete` looks at, for a task with this plan. -/
def MayComplete (st : Store) (planId taskId : Text) : Prop :=
  incompletePlanSteps (st.planOf planId taskId) = [] ∧ incompleteSteps (st.listSteps taskId) = []

end Store

/-- An operation that keeps off the completed tasks. -/
def Operation.Careful (st : Store) : Operation → Prop
  | .recordStep step => step.over ∨ ¬ st.IsCompleted step.taskId
  | .recordSuccessfulStep _ taskId _ _ _ _ _ => ¬ st.IsCompleted taskId
  | .saveTask state _ _ allowCompletion =>
    state.status = .completed → allowCompletion = true → st.MayComplete state.planId state.taskId
  | .saveExecutionPlan plan tools =>
    validateExecutionPlan plan tools = [] →
      st.PlanFree plan ∧ ∀ old ∈ st.plans, old.planId = plan.planId → st.PlanFree old
  | .currentActiveStep taskId =>
    ∀ plan, st.loadTaskPlan taskId = some plan →
      (∃ step ∈ plan.steps, isReady (completedIds plan.steps) step = true) → st.PlanFree plan
  | .updatePlanStepStatus taskId stepId status _ =>
    ∀ plan target, st.loadTaskPlan taskId = some plan → plan.step? stepId = some target →
      target.status.mayBecome status = true → st.PlanFree plan
  | .completePlanStep taskId _ =>
    ∀ plan, st.loadTaskPlan taskId = some plan → st.IsCompleted taskId ∨ st.PlanFree plan
  | _ => True

namespace Store

variable {st st' : Store} {task state : TaskState} {taskId planId : Text}

theorem loadTask_of_mem (h : task ∈ st.tasks) : st.loadTask task.taskId = some task :=
  loadTask_of_lookup (Table.lookup_eq_some.mpr ⟨h, rfl⟩)

theorem loadTaskPlan_of_mem (h : task ∈ st.tasks) :
    st.loadTaskPlan task.taskId = st.planOf task.planId task.taskId :=
  loadTaskPlan_of_load (loadTask_of_mem h)

theorem not_completed_of_load (hl : st.loadTask taskId = some state)
    (hc : state.status ≠ .completed) : ¬ st.IsCompleted taskId := by
  intro h
  obtain ⟨task, hmem, rfl, hs⟩ := h
  rw [loadTask_of_mem hmem] at hl
  cases hl
  exact hc hs

/-- Rows of other tables do not matter. -/
theorem Whole.congr (h : st.Whole) (htasks : st'.tasks = st.tasks) (hsteps : st'.steps = st.steps)
    (hplans : st'.plans = st.plans) : st'.Whole := by
  intro task hmem hs
  have hmem' : task ∈ st.tasks := by rw [← htasks]; exact hmem
  obtain ⟨hst, hpl⟩ := h task hmem' hs
  refine ⟨by rw [hsteps]; exact hst, fun plan hp => hpl plan ?_⟩
  rw [loadTaskPlan_of_mem hmem] at hp
  rw [loadTaskPlan_of_mem hmem', ← hp]
  unfold planOf latestPlan
  rw [hplans]

/-- A step of a task that is not completed, or one that is over. -/
theorem Whole.withStep {step : StepState} (h : st.Whole)
    (hstep : step.over ∨ ¬ st.IsCompleted step.taskId) : (st.withStep step).Whole := by
  intro task hmem hs
  obtain ⟨hst, hpl⟩ := h task hmem hs
  refine ⟨fun s hin hid => ?_, fun plan hp => hpl plan ?_⟩
  · rcases Table.mem_upsert.mp hin with rfl | ⟨hin, _⟩
    · exact hstep.resolve_right fun hno => hno ⟨task, hmem, hid.symm, hs⟩
    · exact hst s hin hid
  · rw [loadTaskPlan_of_mem hmem] at hp
    rw [@loadTaskPlan_of_mem st task hmem]
    exact hp

/-- The plan of a completed task is not touched by a write of a free plan. -/
theorem planOf_withPlan {plan : ExecutionPlan} (hne : planId ≠ plan.planId)
    (htask : taskId ≠ plan.taskId)
    (hold : ∀ old ∈ st.plans, old.planId = plan.planId → taskId ≠ old.taskId) :
    (st.withPlan plan).planOf planId taskId = st.planOf planId taskId := by
  unfold planOf latestPlan withPlan
  dsimp only
  rw [Table.lookup_upsert_ne hne.symm, Table.filter_upsert]
  · simpa using htask.symm
  · intro old hin hid
    simpa using (hold old hin hid).symm

theorem Whole.withPlan {plan : ExecutionPlan} (h : st.Whole) (hfree : st.PlanFree plan)
    (hold : ∀ old ∈ st.plans, old.planId = plan.planId → st.PlanFree old) :
    (st.withPlan plan).Whole := by
  intro task hmem hs
  obtain ⟨hst, hpl⟩ := h task hmem hs
  refine ⟨hst, fun p hp => hpl p ?_⟩
  have hmem' : task ∈ st.tasks := hmem
  rw [loadTaskPlan_of_mem hmem] at hp
  rw [loadTaskPlan_of_mem hmem', ← hp]
  symm
  exact planOf_withPlan (hfree task hmem' hs).1 (hfree task hmem' hs).2
    fun old hin hid => (hold old hin hid task hmem' hs).2

/-- A write of a stored plan with other steps. -/
theorem Whole.rewritePlan {plan plan' : ExecutionPlan} (h : st.Whole) (hmem : plan ∈ st.plans)
    (hfree : st.PlanFree plan) (hid : plan'.planId = plan.planId)
    (htask : plan'.taskId = plan.taskId) : (st.withPlan plan').Whole := by
  refine h.withPlan ?_ ?_
  · intro task hin hs
    rw [hid, htask]
    exact hfree task hin hs
  · intro old hin hold
    rw [Table.eq_of_key hin hmem (hold.trans hid)]
    exact hfree

/-- A task that is written is not completed, or may be. -/
theorem Whole.writeTask (h : st.Whole) (task : TaskState) (kind : String)
    (hmay : task.status = .completed → st.MayComplete task.planId task.taskId) :
    (st.writeTask task kind).Whole := by
  intro t hmem hs
  rcases Table.mem_upsert.mp hmem with rfl | ⟨hin, hne⟩
  · obtain ⟨hplan, hsteps⟩ := hmay hs
    refine ⟨fun step hin hid => ?_, fun plan hp => ?_⟩
    · -- a step in the way would be listed
      unfold incompleteSteps at hsteps
      have hnone := List.filter_eq_nil_iff.mp (List.map_eq_nil_iff.mp hsteps) step (by
        unfold listSteps
        rw [List.mem_insertionSort, List.mem_filter]
        exact ⟨hin, by simpa using hid⟩)
      have hover : ¬ step.status = .done → step.status = .skipped := by simpa using hnone
      exact or_iff_not_imp_left.mpr hover
    · rw [loadTaskPlan_of_mem hmem, planOf_writeTask] at hp
      rw [hp] at hplan
      intro step hin
      have hnone := List.filter_eq_nil_iff.mp (List.map_eq_nil_iff.mp hplan) step hin
      simpa using hnone
  · obtain ⟨hst, hpl⟩ := h t hin hs
    refine ⟨hst, fun plan hp => hpl plan ?_⟩
    rw [loadTaskPlan_of_mem hmem, planOf_writeTask] at hp
    rw [loadTaskPlan_of_mem hin]
    exact hp

/-- Saving a task that is not completed makes no plan less free. -/
theorem PlanFree.writeTask {plan : ExecutionPlan} (h : st.PlanFree plan) {task : TaskState}
    (hs : task.status ≠ .completed) (kind : String) : (st.writeTask task kind).PlanFree plan := by
  intro t hmem ht
  rcases Table.mem_upsert.mp hmem with rfl | ⟨hin, _⟩
  · exact absurd ht hs
  · exact h t hin ht

end Store

section Operations

variable {st : Store} {now taskId stepId : Text} {state : TaskState}

theorem checkSave_planId {existing : Option TaskState} {state state' : TaskState}
    {expected : Option RunStatus} {allow : Bool}
    (h : checkSave existing state expected allow = .ok state') : state'.planId = state.planId := by
  unfold checkSave at h
  split at h
  · cases h
  · split at h
    · cases h
      rfl
    · split at h
      · cases h
      · split at h
        · cases h
        · cases h
          unfold TaskState.keepCreated
          split <;> rfl

theorem stamped_planId (state : TaskState) (now : Text) (kind : String) :
    (state.stamped now kind).planId = state.planId := by
  unfold TaskState.stamped
  split <;> rfl

theorem whole_saveTask (h : st.Whole) (state : TaskState) (kind : String)
    (expected : Option RunStatus) (allow : Bool)
    (hmay : state.status = .completed → allow = true → st.MayComplete state.planId state.taskId) :
    (saveTask now state kind expected allow st).2.Whole := by
  rw [saveTask_eq]
  cases hc : checkSave (st.tasks.lookup state.taskId) state expected allow with
  | error e => exact h
  | ok s =>
    obtain ⟨hid, hstatus, hallow, _⟩ := checkSave_ok hc
    refine h.writeTask _ kind fun hs => ?_
    rw [stamped_status, hstatus] at hs
    rw [stamped_planId, checkSave_planId hc, stamped_taskId, hid]
    exact hmay hs (hallow hs)

theorem whole_bind_pure {α β : Type} {x : Op α} {b : β} (h : (x st).2.Whole) :
    ((x >>= fun _ => (pure b : Op β)) st).2.Whole := by
  rw [Prog.bind_apply]
  split
  next hx => rw [hx] at h; exact h
  next hx => rw [hx] at h; exact h

/-- Read the task, then save it. -/
theorem whole_requireTask_save {f : TaskState → TaskState} (h : st.Whole) (kind : String) :
    ((requireTask taskId >>= fun state => saveTask now (f state) kind none false) st).2.Whole := by
  cases hl : st.loadTask taskId with
  | none =>
    rw [requireTask_bind_none hl]
    exact h
  | some state =>
    rw [requireTask_bind hl]
    exact whole_saveTask h _ _ _ _ fun _ hno => by cases hno

/-- A loaded task that is not completed keeps its status. -/
theorem Store.Whole.keepTask (h : st.Whole) {task : TaskState} {kind : String}
    (hc : task.status ≠ .completed) : (st.writeTask (task.stamped now kind) kind).Whole :=
  h.writeTask _ kind fun hs => absurd (by rwa [stamped_status] at hs) hc

theorem over_finished (step : StepState) : (step.finished now).over := Or.inl rfl

theorem Store.Whole.stepDone (h : st.Whole) (step : StepState) (hc : state.status ≠ .completed) :
    (st.stepDone now stepId state step).Whole :=
  (h.withStep (Or.inl (over_finished step))).keepTask hc

theorem whole_requestStepComplete (h : st.Whole) (required : List Text) :
    (requestStepComplete now taskId stepId required st).2.Whole := by
  rw [requestStepComplete_eq]
  cases hl : st.loadTask taskId with
  | none => exact h
  | some state =>
    cases hg : st.stepGate taskId stepId required with
    | error e => exact h
    | ok outcome =>
      cases outcome with
      | inl gate => exact h
      | inr step =>
        dsimp only
        split
        · exact h.withStep (Or.inl (over_finished step))
        next hc => exact h.stepDone step hc

theorem whole_requestTaskComplete (h : st.Whole) (required : List Text) :
    (requestTaskComplete now taskId required st).2.Whole := by
  unfold requestTaskComplete
  cases hl : st.loadTask taskId with
  | none =>
    rw [requireTask_bind_none hl]
    exact h
  | some state =>
    rw [requireTask_bind hl, Prog.bind_apply, Prog.gets_apply]
    dsimp only
    rw [Prog.bind_apply, Prog.gets_apply]
    dsimp only
    split
    · exact h
    next hplan =>
      split
      · exact h
      next hsteps =>
        rw [Prog.bind_apply, Prog.ofExcept_apply]
        cases normalizeEvidenceTypes
            (if required.isEmpty then state.requiredEvidence else required) with
        | error e => exact h
        | ok types =>
          dsimp only
          rw [Prog.bind_apply, Prog.gets_apply]
          dsimp only
          split
          · -- the gate has looked at the steps and at the plan
            refine whole_bind_pure (whole_saveTask h
              { state with status := .completed, currentPhase := "completed" } _ _ _ ?_)
            intro _ _
            show st.MayComplete state.planId state.taskId
            rw [Store.loadTask_taskId hl]
            refine ⟨?_, by simpa using hsteps⟩
            rw [← Store.loadTaskPlan_of_load hl]
            simpa using hplan
          · exact h

theorem whole_updatePlanStepStatus (h : st.Whole) (status : PlanStepStatus) (kind : String)
    (hfree : ∀ plan target, st.loadTaskPlan taskId = some plan → plan.step? stepId = some target →
      target.status.mayBecome status = true → st.PlanFree plan) :
    (updatePlanStepStatus now taskId stepId status kind st).2.Whole := by
  rw [updatePlanStepStatus_eq]
  cases hp : st.loadTaskPlan taskId with
  | none => exact h
  | some plan =>
    dsimp only
    cases ht : plan.step? stepId with
    | none => exact h
    | some target =>
      dsimp only
      cases hv : validatePlanStepTransition target.status status with
      | error e => exact h
      | ok u =>
        have hmay : target.status.mayBecome status = true := by
          unfold validatePlanStepTransition at hv
          split at hv
          · assumption
          · cases hv
        have hplan : (st.withPlan (plan.withStatus now stepId status)).Whole :=
          h.rewritePlan (Store.mem_of_loadTaskPlan hp) (hfree plan target hp ht hmay) rfl rfl
        dsimp only
        cases hl : st.loadTask taskId with
        | none => exact hplan
        | some state =>
          dsimp only
          split
          · exact hplan
          next hc => exact hplan.keepTask hc

theorem whole_currentActiveStep (h : st.Whole)
    (hfree : ∀ plan, st.loadTaskPlan taskId = some plan →
      (∃ step ∈ plan.steps, isReady (completedIds plan.steps) step = true) → st.PlanFree plan) :
    (currentActiveStep now taskId st).2.Whole := by
  rw [currentActiveStep_eq]
  cases hp : st.loadTaskPlan taskId with
  | none => exact h
  | some plan =>
    dsimp only
    cases ha : plan.steps.find? fun step => step.status == .active with
    | some step => exact h
    | none =>
      dsimp only
      cases hr : plan.steps.find? (isReady (completedIds plan.steps)) with
      | none => exact h
      | some step =>
        have hpf := hfree plan hp ⟨step, List.mem_of_find?_eq_some hr, List.find?_some hr⟩
        have hplan : (st.withPlan (plan.activated now)).Whole :=
          h.rewritePlan (Store.mem_of_loadTaskPlan hp) hpf rfl rfl
        have hactive : (st.activating now taskId plan step).Whole := by
          unfold Store.activating
          split
          · exact hplan
          · refine hplan.withStep (Or.inr ?_)
            intro hsome
            obtain ⟨task, hmem, hid, hs⟩ := hsome
            exact (hpf task hmem hs).2 hid
        dsimp only
        cases hl : st.loadTask taskId with
        | none => exact hactive
        | some state =>
          dsimp only
          split
          · exact hactive
          next hc => exact hactive.keepTask hc

theorem whole_saveExecutionPlan (h : st.Whole) (plan : ExecutionPlan) (tools : Option (List Text))
    (hfree : validateExecutionPlan plan tools = [] →
      st.PlanFree plan ∧ ∀ old ∈ st.plans, old.planId = plan.planId → st.PlanFree old) :
    (saveExecutionPlan now plan tools st).2.Whole := by
  rw [saveExecutionPlan_eq]
  split
  · exact h
  next hv =>
    obtain ⟨hpf, hold⟩ := hfree (not_not.mp hv)
    have hplan : (st.withPlan { plan with updatedAt := now }).Whole := h.withPlan hpf hold
    cases hl : st.loadTask plan.taskId with
    | none => exact hplan
    | some state =>
      dsimp only
      split
      · exact hplan
      next hc => exact hplan.keepTask hc

theorem whole_completePlanStep (h : st.Whole)
    (hcare : ∀ plan, st.loadTaskPlan taskId = some plan →
      st.IsCompleted taskId ∨ st.PlanFree plan) :
    (completePlanStep now taskId stepId st).2.Whole := by
  -- as the operation: each refusal before the gate writes nothing
  cases hp : st.loadTaskPlan taskId with
  | none =>
    rw [completePlanStep_noPlan hp]
    exact h
  | some plan =>
    cases ht : plan.step? stepId with
    | none =>
      rw [completePlanStep_noStep hp ht]
      exact h
    | some target =>
      cases hl : st.loadTask taskId with
      | none =>
        rw [completePlanStep_noTask hp ht hl]
        exact h
      | some state =>
        cases hg : st.stepGate taskId stepId target.requiredEvidence with
        | error e =>
          rw [completePlanStep_badEvidence hp ht hl hg]
          exact h
        | ok outcome =>
          cases outcome with
          | inl gate =>
            rw [completePlanStep_verifying hp ht hl hg]
            refine whole_bind_pure (whole_updatePlanStepStatus h _ _ ?_)
            intro plan' target' hp' ht' hmay
            rw [hp] at hp'
            cases hp'
            rcases hcare plan hp with ⟨task, hmem, rfl, hs⟩ | hfree
            · -- the plan of a completed task has no step that is verified again
              have hdone := (h task hmem hs).2 plan hp target' (List.mem_of_find?_eq_some ht')
              rw [hdone] at hmay
              cases PlanStepStatus.eq_completed hmay
            · exact hfree
          | inr step =>
            by_cases hc : state.status = .completed
            · rw [completePlanStep_taskCompleted hp ht hl hg hc]
              exact h.withStep (Or.inl (over_finished step))
            · rw [completePlanStep_stepDone hp ht hl hg hc]
              refine whole_bind_pure (whole_updatePlanStepStatus (h.stepDone step hc) _ _ ?_)
              intro plan' target' hp' _ _
              rw [loadTaskPlan_stepDone hl, hp] at hp'
              cases hp'
              have hfree := (hcare plan hp).resolve_left (Store.not_completed_of_load hl hc)
              exact @Store.PlanFree.writeTask (st.withStep (step.finished now)) plan hfree _
                (by rw [stamped_status]; exact hc) _

theorem whole_recordSuccessfulStep (h : st.Whole) (ids : Text × Text) (call : ToolCall)
    (result : ToolResult) (files required : List Text) (hno : ¬ st.IsCompleted taskId) :
    (recordSuccessfulStep now ids taskId stepId call result files required st).2.Whole := by
  rw [recordSuccessfulStep_eq]
  cases hl : st.loadTask taskId with
  | none => exact h
  | some state =>
    dsimp only
    generalize hstate : state.afterStep stepId call result files = state'
    have hid : state'.taskId = taskId := by
      rw [← hstate]
      show state.taskId = taskId
      exact Store.loadTask_taskId hl
    -- the step and its evidence are written before the task is looked at, so the task must be open
    have hstep : (st.withStep (runningStep now stepId state' call result required)).Whole := by
      refine h.withStep (Or.inr ?_)
      show ¬ st.IsCompleted state'.taskId
      rw [hid]
      exact hno
    have hrec : (st.recording now ids state' stepId call result files required).Whole :=
      hstep.congr rfl rfl rfl
    cases hc : checkSave (st.tasks.lookup taskId) state' none false with
    | error e => exact hrec
    | ok saved =>
      dsimp only
      obtain ⟨_, hstatus, _, _⟩ := checkSave_ok hc
      -- what is saved is a running task
      have hrunning : saved.status ≠ .completed := by
        rw [hstatus, ← hstate]
        show RunStatus.running ≠ .completed
        decide
      have hgate : (requestStepComplete now taskId stepId required _).2.Whole :=
        whole_requestStepComplete
          (@Store.Whole.keepTask _ now hrec saved "step_succeeded" hrunning) required
      rw [Prog.bind_apply]
      split
      next hx =>
        rw [hx] at hgate
        rw [requireTask_eq]
        split <;> exact hgate
      next hx =>
        rw [hx] at hgate
        exact hgate

end Operations

theorem whole_discard {α : Type} {x : Op α} {st : Store} (h : (x st).2.Whole) :
    (discard x st).2.Whole := whole_bind_pure h

/-- One careful operation. -/
theorem whole_perform {st : Store} (now : Text) (op : Operation) (h : st.Whole)
    (hcare : op.Careful st) : (perform now op st).2.Whole := by
  cases op with
  | saveRun run => exact h.congr rfl rfl rfl
  | createTask runId userRequest projectId taskId planId =>
    refine whole_discard ?_
    unfold createTask
    have hsave := @whole_saveTask st now h
      { taskId := taskId, runId := runId, projectId := projectId, userRequest := userRequest,
        planId := planId, createdAt := now, updatedAt := now } "task_initialized" none false
      fun _ hno => by cases hno
    rw [Prog.bind_apply]
    split
    next hx =>
      rw [hx] at hsave
      exact hsave.congr rfl rfl rfl
    next hx =>
      rw [hx] at hsave
      exact hsave
  | requireTask taskId =>
    refine whole_discard ?_
    rw [requireTask_eq]
    split <;> exact h
  | saveTask state kind expected allow => exact whole_discard (whole_saveTask h _ _ _ _ hcare)
  | updateTaskStatus taskId status phase kind =>
    exact whole_discard (whole_requireTask_save h kind)
  | recordPlanCreated taskId planId => exact whole_discard (whole_requireTask_save h _)
  | recordApprovalRequested taskId request => exact whole_discard (whole_requireTask_save h _)
  | recordApprovalResolved taskId approved => exact whole_discard (whole_requireTask_save h _)
  | recordReplan taskId planId => exact whole_discard (whole_requireTask_save h _)
  | recordStep step =>
    show (st.withStep { step with updatedAt := now }).Whole
    exact h.withStep hcare
  | recordRepair repair => exact h.congr rfl rfl rfl
  | recordEvidence evidence => exact h.congr rfl rfl rfl
  | recordFailure failure => exact h.congr rfl rfl rfl
  | requestStepComplete taskId stepId required =>
    exact whole_discard (whole_requestStepComplete h required)
  | requestTaskComplete taskId required =>
    exact whole_discard (whole_requestTaskComplete h required)
  | recordSuccessfulStep ids taskId stepId call result files required =>
    exact whole_discard (whole_recordSuccessfulStep h ids call result files required hcare)
  | recordRepairAttempt repairId taskId files error =>
    refine whole_discard ?_
    rw [recordRepairAttempt_eq]
    cases hl : st.loadTask taskId with
    | none => exact h
    | some state =>
      dsimp only
      have hrepair : Store.Whole
          { st with repairs := st.repairs.upsert (repairAttempt now repairId state files error) } :=
        h.congr rfl rfl rfl
      split
      · exact hrepair
      next hc => exact hrepair.keepTask hc
  | saveExecutionPlan plan tools => exact whole_discard (whole_saveExecutionPlan h plan tools hcare)
  | currentActiveStep taskId => exact whole_discard (whole_currentActiveStep h hcare)
  | updatePlanStepStatus taskId stepId status kind =>
    exact whole_discard (whole_updatePlanStepStatus h status kind hcare)
  | completePlanStep taskId stepId => exact whole_discard (whole_completePlanStep h hcare)

/-- An operation at a time, as a step of the store. -/
def Store.next (st : Store) (op : Text × Operation) : Store := (perform op.1 op.2 st).2

/-- **In every state of a run of careful operations** a completed task has its steps done
or skipped and its plan steps completed. -/
theorem whole_run (ops : List (Text × Operation))
    (hcare : Along Store.next (fun st op => op.2.Careful st) Store.empty ops) :
    Always Store.next Store.Whole Store.empty ops := by
  have hempty : Store.empty.Whole := fun task hmem => absurd hmem Table.not_mem_empty
  exact always_of_along (P := fun st (op : Text × Operation) => op.2.Careful st)
    (fun st op h hc => whole_perform op.1 op.2 h hc) hempty hcare

/-- A completed task gets a running step. -/
private def stepAfterCompletion : List (Text × Operation) :=
  [("1".toList, .createTask "r".toList "q".toList [] "t".toList []),
    ("2".toList, .updateTaskStatus "t".toList .running none ""),
    ("3".toList, .requestTaskComplete "t".toList []),
    ("4".toList, .recordStep { stepId := "s".toList, taskId := "t".toList, runId := "r".toList,
                               status := .running, startedAt := "4".toList,
                               updatedAt := "4".toList })]

/-- **A completed task with a step that runs.** -/
theorem step_of_completed :
    ¬ (run Store.next Store.empty stepAfterCompletion).Whole := by
  intro h
  have hstatus : ((run Store.next Store.empty stepAfterCompletion).tasks.lookup "t".toList).any
      (fun task => task.status == .completed) = true := by decide
  obtain ⟨task, hrow, hs⟩ := (Option.any_eq_true _ _).mp hstatus
  obtain ⟨hmem, hid⟩ := Table.lookup_eq_some.mp hrow
  have hstep : ((run Store.next Store.empty stepAfterCompletion).steps.lookup
      ("t".toList, "s".toList)).any (fun step => step.status == .running) = true := by decide
  obtain ⟨step, hfound, hr⟩ := (Option.any_eq_true _ _).mp hstep
  obtain ⟨hin, hkey⟩ := Table.lookup_eq_some.mp hfound
  have hover := (h task hmem (by simpa using hs)).1 step hin ((Prod.mk.inj hkey).1.trans hid.symm)
  have hrunning : step.status = .running := by simpa using hr
  rcases hover with hd | hd
  · rw [hrunning] at hd
    cases hd
  · rw [hrunning] at hd
    cases hd

/-- A careful run: a step of the task is done, the task is completed, a repair of it is
refused, and a skipped step is recorded. -/
theorem whole_run_careful :
    Always Store.next Store.Whole Store.empty
      [("1".toList, .createTask "r".toList "q".toList [] "t".toList []),
        ("2".toList, .updateTaskStatus "t".toList .running none ""),
        ("3".toList, .recordSuccessfulStep ([], []) "t".toList "s".toList {} {} [] []),
        ("4".toList, .requestTaskComplete "t".toList []),
        ("5".toList, .recordRepairAttempt "p".toList "t".toList [] []),
        ("6".toList, .recordStep { stepId := "s2".toList, taskId := "t".toList, runId := "r".toList,
                                   status := .skipped, startedAt := "6".toList,
                                   updatedAt := "6".toList })] := by
  refine whole_run _ ⟨trivial, trivial, ?_, trivial, trivial, Or.inl (Or.inr rfl), trivial⟩
  -- the task runs when the step is recorded
  exact @Store.not_completed_of_load _
    { taskId := "t".toList, runId := "r".toList, userRequest := "q".toList, status := .running,
      lastCheckpoint := "task_initialized:1".toList, createdAt := "1".toList,
      updatedAt := "2".toList } "t".toList (by decide) (by decide)

end Shamsu.Runtime
