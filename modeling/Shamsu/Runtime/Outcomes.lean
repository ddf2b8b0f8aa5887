import Shamsu.Runtime.Saving

/-!
# What the operations of the store do

One equation for each operation that writes more than once: what it reads decides, and
each way out is written with the tables it leaves. The proofs about the store use these
and `saveTask_loaded`; they do not look into the operations again.
-/

namespace Shamsu.Runtime

open Shamsu.Py Shamsu.Lib

/-- How `save_task` refuses to complete a task. -/
def completionRefused : StoreError :=
  .invalidTransition "Task completion must go through request_task_complete()."

def taskNotFound (taskId : Text) : StoreError :=
  .runtimeState ("Task state not found: " ++ str taskId)

namespace Store

/-- The status of a task, as `load_task` finds it. -/
def taskStatus (st : Store) (taskId : Text) : Option RunStatus :=
  (st.loadTask taskId).map TaskState.status

def withStep (st : Store) (step : StepState) : Store := { st with steps := st.steps.upsert step }

variable {st : Store} {taskId : Text} {state : TaskState}

theorem loadTask_taskId (h : st.loadTask taskId = some state) : state.taskId = taskId := by
  unfold loadTask at h
  split at h
  next found hf =>
    cases h
    exact Table.key_of_lookup hf
  next => simpa using List.find?_some h

/-- A row is what `load_task` loads. -/
theorem loadTask_of_lookup (h : st.tasks.lookup taskId = some state) :
    st.loadTask taskId = some state := by
  unfold loadTask
  rw [h]

theorem loadTask_writeTask_self (state : TaskState) (kind : String) :
    (st.writeTask state kind).loadTask state.taskId = some state :=
  loadTask_of_lookup Table.lookup_upsert_self

theorem taskStatus_of_load (h : st.loadTask taskId = some state) :
    st.taskStatus taskId = some state.status := by
  unfold taskStatus
  rw [h]
  rfl

theorem loadTaskPlan_of_load (h : st.loadTask taskId = some state) :
    st.loadTaskPlan taskId = st.planOf state.planId taskId := by
  unfold loadTaskPlan
  rw [h]

theorem planOf_writeTask (state : TaskState) (kind : String) (planId taskId : Text) :
    (st.writeTask state kind).planOf planId taskId = st.planOf planId taskId := rfl

/-- A plan that is found is a row, under its id. -/
theorem mem_of_planOf {planId : Text} {plan : ExecutionPlan}
    (h : st.planOf planId taskId = some plan) : plan ∈ st.plans := by
  unfold planOf at h
  split at h
  · exact Table.mem_of_lookup h
  · have hmem := List.mem_of_head? h
    rw [List.mem_insertionSort, List.mem_filter] at hmem
    exact hmem.1

theorem mem_of_loadTaskPlan {plan : ExecutionPlan} (h : st.loadTaskPlan taskId = some plan) :
    plan ∈ st.plans := by
  unfold loadTaskPlan at h
  split at h
  · exact mem_of_planOf h
  · exact @mem_of_planOf st taskId [] plan (by unfold planOf; exact h)

/-- The plan under an id that is there is overwritten. -/
theorem persistPlan_eq {plan plan' : ExecutionPlan} (h : plan ∈ st.plans)
    (hid : plan'.planId = plan.planId) :
    st.persistPlan plan' = { st with plans := st.plans.upsert plan' } := by
  unfold persistPlan
  rw [hid, Table.lookup_eq_some.mpr ⟨h, rfl⟩]
  rfl

end Store

section

variable {st : Store} {now taskId stepId : Text} {state state' : TaskState}

theorem saveTask_eq (state : TaskState) (kind : String) (expected : Option RunStatus)
    (allow : Bool) :
    saveTask now state kind expected allow st =
      match checkSave (st.tasks.lookup state.taskId) state expected allow with
      | .ok s => (.ok (s.stamped now kind), st.writeTask (s.stamped now kind) kind)
      | .error e => (.error e, st) := by
  unfold saveTask
  rw [Prog.bind_apply, Prog.gets_apply]
  dsimp only
  rw [Prog.bind_apply, Prog.ofExcept_apply]
  cases checkSave (st.tasks.lookup state.taskId) state expected allow <;> rfl

theorem keepCreated_of_eq (h : state'.createdAt = state.createdAt) :
    state'.keepCreated state = state' := by
  unfold TaskState.keepCreated
  rw [← h]
  split <;> rfl

/-- A task that is saved with the status it has: only a completed one is refused. -/
theorem saveTask_loaded (hl : st.loadTask taskId = some state) (hid : state'.taskId = state.taskId)
    (hstatus : state'.status = state.status) (hcreated : state'.createdAt = state.createdAt)
    (kind : String) :
    saveTask now state' kind none false st =
      if state.status = .completed then (.error completionRefused, st)
      else (.ok (state'.stamped now kind), st.writeTask (state'.stamped now kind) kind) := by
  have hcheck : checkSave (st.tasks.lookup state'.taskId) state' none false =
      if state.status = .completed then .error completionRefused else .ok state' := by
    unfold checkSave
    rw [hstatus]
    by_cases hc : state.status = .completed
    · rw [hc]
      rfl
    · have hne : (state.status == RunStatus.completed) = false := by simpa using hc
      rw [hne, if_neg hc]
      simp only [Bool.false_and, Bool.false_eq_true, if_false]
      rw [hid, Store.loadTask_taskId hl]
      cases hrow : st.tasks.lookup taskId with
      | none => rfl
      | some old =>
        -- the row is the task that was loaded
        have hold : old = state :=
          Option.some.inj ((Store.loadTask_of_lookup hrow).symm.trans hl)
        subst hold
        have hmay : validateTransition old.status old.status = .ok () := by
          unfold validateTransition
          rw [RunStatus.mayBecome_self]
          rfl
        dsimp only [Option.filter_none]
        rw [hmay]
        dsimp only
        rw [keepCreated_of_eq hcreated]
  rw [saveTask_eq, hcheck]
  by_cases hc : state.status = .completed
  · rw [if_pos hc, if_pos hc]
  · rw [if_neg hc, if_neg hc]

/-- The same, where the rest of the operation is a return. -/
theorem saveTask_bind {α : Type} {a : α} (hl : st.loadTask taskId = some state)
    (hid : state'.taskId = state.taskId) (hstatus : state'.status = state.status)
    (hcreated : state'.createdAt = state.createdAt) (kind : String) :
    (saveTask now state' kind none false >>= fun _ => pure a) st =
      if state.status = .completed then (.error completionRefused, st)
      else (.ok a, st.writeTask (state'.stamped now kind) kind) := by
  rw [Prog.bind_apply, saveTask_loaded hl hid hstatus hcreated kind]
  by_cases hc : state.status = .completed
  · rw [if_pos hc, if_pos hc]
  · rw [if_neg hc, if_neg hc]
    rfl

theorem requireTask_eq :
    requireTask taskId st =
      match st.loadTask taskId with
      | some state => (.ok state, st)
      | none => (.error (taskNotFound taskId), st) := by
  unfold requireTask
  rw [Prog.read_apply]
  cases st.loadTask taskId <;> rfl

/-- Everything after `require_task` when the task is there. -/
theorem requireTask_bind {α : Type} {f : TaskState → Op α} (h : st.loadTask taskId = some state) :
    (requireTask taskId >>= f) st = f state st := by
  apply Prog.bind_of_ok
  rw [requireTask_eq, h]

theorem requireTask_bind_none {α : Type} {f : TaskState → Op α} (h : st.loadTask taskId = none) :
    (requireTask taskId >>= f) st = (.error (taskNotFound taskId), st) := by
  apply Prog.bind_of_error
  rw [requireTask_eq, h]

/-- The store when a step of a task that runs is completed. -/
def Store.stepDone (st : Store) (now stepId : Text) (state : TaskState) (step : StepState) :
    Store :=
  (st.withStep (step.finished now)).writeTask
    ((state.atStep stepId "running").stamped now "step_completed") "step_completed"

def stepVerified (taskId stepId : Text) : GateResult :=
  .verified taskId stepId "Step completion verified."

/-- `request_step_complete`. -/
theorem requestStepComplete_eq (required : List Text) :
    requestStepComplete now taskId stepId required st =
      match st.loadTask taskId with
      | none => (.error (taskNotFound taskId), st)
      | some state =>
        match st.stepGate taskId stepId required with
        | .error e => (.error e, st)
        | .ok (.inl gate) => (.ok gate, st)
        | .ok (.inr step) =>
          if state.status = .completed then
            (.error completionRefused, st.withStep (step.finished now))
          else (.ok (stepVerified taskId stepId), st.stepDone now stepId state step) := by
  unfold requestStepComplete
  cases hl : st.loadTask taskId with
  | none => exact requireTask_bind_none hl
  | some state =>
    rw [requireTask_bind hl, Prog.bind_apply, Prog.read_apply]
    cases hg : st.stepGate taskId stepId required with
    | error e => rfl
    | ok outcome =>
      cases outcome with
      | inl gate => rfl
      | inr step =>
        dsimp only
        show (saveTask now (state.atStep stepId "running") "step_completed" none false >>=
          fun _ => pure _) (st.withStep (step.finished now)) = _
        exact @saveTask_bind (st.withStep (step.finished now)) now taskId state
          (state.atStep stepId "running") _ _ hl rfl rfl rfl "step_completed"

theorem loadTask_stepDone (hl : st.loadTask taskId = some state) (step : StepState) :
    (st.stepDone now stepId state step).loadTask taskId =
      some ((state.atStep stepId "running").stamped now "step_completed") := by
  have hid : ((state.atStep stepId "running").stamped now "step_completed").taskId = taskId := by
    rw [stamped_taskId]
    show state.taskId = taskId
    exact Store.loadTask_taskId hl
  rw [← hid]
  exact Store.loadTask_writeTask_self _ _

/-- The task has the plan it had. -/
theorem loadTaskPlan_stepDone (hl : st.loadTask taskId = some state) (step : StepState) :
    (st.stepDone now stepId state step).loadTaskPlan taskId = st.loadTaskPlan taskId := by
  rw [Store.loadTaskPlan_of_load (loadTask_stepDone hl step), Store.loadTaskPlan_of_load hl]
  rfl

/-- The store after `update_plan_step_status` wrote the plan. -/
def Store.withPlan (st : Store) (plan : ExecutionPlan) : Store :=
  { st with plans := st.plans.upsert plan }

/-- `update_plan_step_status`. -/
theorem updatePlanStepStatus_eq (status : PlanStepStatus) (kind : String) :
    updatePlanStepStatus now taskId stepId status kind st =
      match st.loadTaskPlan taskId with
      | none => (.error (.runtimeState ("Execution plan not found for task: " ++ str taskId)), st)
      | some plan =>
        match plan.step? stepId with
        | none => (.error (.runtimeState ("Plan step not found: " ++ str stepId)), st)
        | some target =>
          match validatePlanStepTransition target.status status with
          | .error e => (.error e, st)
          | .ok () =>
            match st.loadTask taskId with
            | none =>
              (.error (taskNotFound taskId), st.withPlan (plan.withStatus now stepId status))
            | some state =>
              if state.status = .completed then
                (.error completionRefused, st.withPlan (plan.withStatus now stepId status))
              else (.ok (plan.withStatus now stepId status),
                (st.withPlan (plan.withStatus now stepId status)).writeTask
                  ((state.atStep stepId (phaseAfter status state.currentPhase)).stamped now kind)
                  kind) := by
  unfold updatePlanStepStatus
  rw [Prog.bind_apply, Prog.gets_apply]
  cases hp : st.loadTaskPlan taskId with
  | none => rfl
  | some plan =>
    dsimp only
    cases ht : plan.step? stepId with
    | none => rfl
    | some target =>
      dsimp only
      rw [Prog.bind_apply, Prog.ofExcept_apply]
      cases hv : validatePlanStepTransition target.status status with
      | error e => rfl
      | ok u =>
        dsimp only
        rw [Prog.bind_apply, Prog.modify_apply]
        dsimp only
        rw [@Store.persistPlan_eq st plan (plan.withStatus now stepId status)
          (Store.mem_of_loadTaskPlan hp) rfl]
        -- the plan is on record from here on, and the task is what may still refuse
        show (requireTask taskId >>= _) (st.withPlan (plan.withStatus now stepId status)) = _
        cases hl : st.loadTask taskId with
        | none => exact requireTask_bind_none hl
        | some state =>
          rw [@requireTask_bind (st.withPlan (plan.withStatus now stepId status)) taskId state _ _
            hl]
          exact @saveTask_bind (st.withPlan (plan.withStatus now stepId status)) now taskId state
            (state.atStep stepId (phaseAfter status state.currentPhase)) _ _ hl rfl rfl rfl kind

section CompletePlanStep

variable {plan : ExecutionPlan} {target : PlanStep}

/-- `complete_plan_step`, by what completing the step does. -/
theorem completePlanStep_eq (hp : st.loadTaskPlan taskId = some plan)
    (ht : plan.step? stepId = some target) :
    completePlanStep now taskId stepId st =
      (requestStepComplete now taskId stepId target.requiredEvidence >>= fun gate =>
        if gate.ok then
          updatePlanStepStatus now taskId stepId .completed "plan_step_completed" >>= fun _ =>
            pure gate
        else
          updatePlanStepStatus now taskId stepId .verifying "plan_step_verifying" >>= fun _ =>
            pure gate) st := by
  unfold completePlanStep
  rw [Prog.bind_apply, Prog.gets_apply, hp]
  dsimp only
  rw [ht]

theorem completePlanStep_noPlan (hp : st.loadTaskPlan taskId = none) :
    completePlanStep now taskId stepId st =
      (.ok (.refused taskId stepId "Execution plan not found."), st) := by
  unfold completePlanStep
  rw [Prog.bind_apply, Prog.gets_apply, hp]
  rfl

theorem completePlanStep_noStep (hp : st.loadTaskPlan taskId = some plan)
    (ht : plan.step? stepId = none) :
    completePlanStep now taskId stepId st =
      (.ok (.refused taskId stepId "Plan step not found."), st) := by
  unfold completePlanStep
  rw [Prog.bind_apply, Prog.gets_apply, hp]
  dsimp only
  rw [ht]
  rfl

theorem completePlanStep_noTask (hp : st.loadTaskPlan taskId = some plan)
    (ht : plan.step? stepId = some target) (hl : st.loadTask taskId = none) :
    completePlanStep now taskId stepId st = (.error (taskNotFound taskId), st) := by
  rw [completePlanStep_eq hp ht]
  apply Prog.bind_of_error
  rw [requestStepComplete_eq, hl]

theorem completePlanStep_badEvidence {e : StoreError} (hp : st.loadTaskPlan taskId = some plan)
    (ht : plan.step? stepId = some target) (hl : st.loadTask taskId = some state)
    (hg : st.stepGate taskId stepId target.requiredEvidence = .error e) :
    completePlanStep now taskId stepId st = (.error e, st) := by
  rw [completePlanStep_eq hp ht]
  apply Prog.bind_of_error
  rw [requestStepComplete_eq, hl, hg]

/-- The gate that refuses is not passed. -/
theorem stepGate_inl {required : List Text} {gate : GateResult}
    (h : st.stepGate taskId stepId required = .ok (.inl gate)) : gate.ok = false := by
  unfold Store.stepGate at h
  split at h
  · cases h
    rfl
  next step _ =>
    obtain ⟨types, _, ht⟩ := result_bind_ok.mp h
    dsimp only at ht
    by_cases hok : (st.checkRequiredEvidence taskId stepId types step.startedAt).ok = true
    · rw [if_pos hok] at ht
      cases ht
    · rw [if_neg hok] at ht
      cases ht
      simpa using hok

/-- Without the evidence the plan step is verified again. -/
theorem completePlanStep_verifying {gate : GateResult} (hp : st.loadTaskPlan taskId = some plan)
    (ht : plan.step? stepId = some target) (hl : st.loadTask taskId = some state)
    (hg : st.stepGate taskId stepId target.requiredEvidence = .ok (.inl gate)) :
    completePlanStep now taskId stepId st =
      (updatePlanStepStatus now taskId stepId .verifying "plan_step_verifying" >>= fun _ =>
        pure gate) st := by
  have hr := @requestStepComplete_eq st now taskId stepId target.requiredEvidence
  rw [hl, hg] at hr
  rw [completePlanStep_eq hp ht, Prog.bind_of_ok hr, stepGate_inl hg]
  rfl

/-- A step of a completed task is done, and that is as far as it goes. -/
theorem completePlanStep_taskCompleted {step : StepState} (hp : st.loadTaskPlan taskId = some plan)
    (ht : plan.step? stepId = some target) (hl : st.loadTask taskId = some state)
    (hg : st.stepGate taskId stepId target.requiredEvidence = .ok (.inr step))
    (hc : state.status = .completed) :
    completePlanStep now taskId stepId st =
      (.error completionRefused, st.withStep (step.finished now)) := by
  have hr := @requestStepComplete_eq st now taskId stepId target.requiredEvidence
  rw [hl, hg] at hr
  dsimp only at hr
  rw [completePlanStep_eq hp ht]
  apply Prog.bind_of_error
  rw [hr, if_pos hc]

/-- With the evidence the step is done, and the plan step is to be completed. -/
theorem completePlanStep_stepDone {step : StepState} (hp : st.loadTaskPlan taskId = some plan)
    (ht : plan.step? stepId = some target) (hl : st.loadTask taskId = some state)
    (hg : st.stepGate taskId stepId target.requiredEvidence = .ok (.inr step))
    (hc : state.status ≠ .completed) :
    completePlanStep now taskId stepId st =
      (updatePlanStepStatus now taskId stepId .completed "plan_step_completed" >>= fun _ =>
        pure (stepVerified taskId stepId)) (st.stepDone now stepId state step) := by
  have hr := @requestStepComplete_eq st now taskId stepId target.requiredEvidence
  rw [hl, hg] at hr
  dsimp only at hr
  rw [if_neg hc] at hr
  rw [completePlanStep_eq hp ht, Prog.bind_of_ok hr]
  rfl

end CompletePlanStep

/-- The store after `current_active_step` wrote the plan and the step. -/
def Store.activating (st : Store) (now taskId : Text) (plan : ExecutionPlan) (step : PlanStep) :
    Store :=
  if (st.loadStep taskId step.stepId).isSome then st.withPlan (plan.activated now)
  else (st.withPlan (plan.activated now)).withStep (plannedStep now plan step)

theorem loadTask_activating (plan : ExecutionPlan) (step : PlanStep) :
    (st.activating now taskId plan step).loadTask taskId = st.loadTask taskId := by
  unfold Store.activating
  split <;> rfl

/-- `current_active_step`. -/
theorem currentActiveStep_eq :
    currentActiveStep now taskId st =
      match st.loadTaskPlan taskId with
      | none => (.ok none, st)
      | some plan =>
        match plan.steps.find? fun step => step.status == .active with
        | some step => (.ok (some step), st)
        | none =>
          match plan.steps.find? (isReady (completedIds plan.steps)) with
          | none => (.ok none, st)
          | some step =>
            match st.loadTask taskId with
            | none => (.error (taskNotFound taskId), st.activating now taskId plan step)
            | some state =>
              if state.status = .completed then
                (.error completionRefused, st.activating now taskId plan step)
              else (.ok (some { step with status := .active }),
                (st.activating now taskId plan step).writeTask
                  ((state.atStep step.stepId "executing_plan").stamped now "plan_step_activated")
                  "plan_step_activated") := by
  unfold currentActiveStep
  rw [Prog.bind_apply, Prog.gets_apply]
  cases hp : st.loadTaskPlan taskId with
  | none => rfl
  | some plan =>
    dsimp only
    cases ha : plan.steps.find? fun step => step.status == .active with
    | some step => rfl
    | none =>
      dsimp only
      cases hr : plan.steps.find? (isReady (completedIds plan.steps)) with
      | none => rfl
      | some step =>
        dsimp only
        rw [Prog.bind_apply, Prog.modify_apply]
        dsimp only
        rw [@Store.persistPlan_eq st plan (plan.activated now) (Store.mem_of_loadTaskPlan hp) rfl]
        -- here too the plan is on record before the task is looked at
        show (requireTask taskId >>= _) (st.activating now taskId plan step) = _
        cases hl : st.loadTask taskId with
        | none => exact requireTask_bind_none ((loadTask_activating plan step).trans hl)
        | some state =>
          have hl' := (@loadTask_activating st now taskId plan step).trans hl
          rw [requireTask_bind hl']
          exact @saveTask_bind (st.activating now taskId plan step) now taskId state
            (state.atStep step.stepId "executing_plan") _ _ hl' rfl rfl rfl "plan_step_activated"

/-- `save_execution_plan`. -/
theorem saveExecutionPlan_eq (plan : ExecutionPlan) (tools : Option (List Text)) :
    saveExecutionPlan now plan tools st =
      if validateExecutionPlan plan tools ≠ [] then
        (.error (.invalidTransition ("; ".intercalate (validateExecutionPlan plan tools))), st)
      else
        match st.loadTask plan.taskId with
        | none => (.error (taskNotFound plan.taskId), st.withPlan { plan with updatedAt := now })
        | some state =>
          if state.status = .completed then
            (.error completionRefused, st.withPlan { plan with updatedAt := now })
          else (.ok { plan with updatedAt := now },
            (st.withPlan { plan with updatedAt := now }).writeTask
              (({ state with planId := plan.planId, currentPhase := "planned" } : TaskState).stamped
                now "plan_contract_saved") "plan_contract_saved") := by
  unfold saveExecutionPlan
  cases hv : validateExecutionPlan plan tools with
  | cons error errors => rfl
  | nil =>
    dsimp only
    rw [if_neg (by simp), Prog.bind_apply, Prog.modify_apply]
    show (requireTask plan.taskId >>= _) (st.withPlan { plan with updatedAt := now }) = _
    cases hl : st.loadTask plan.taskId with
    | none => exact requireTask_bind_none hl
    | some state =>
      rw [@requireTask_bind (st.withPlan { plan with updatedAt := now }) plan.taskId state _ _ hl]
      exact @saveTask_bind (st.withPlan { plan with updatedAt := now }) now plan.taskId state
        { state with planId := plan.planId, currentPhase := "planned" } _ _ hl rfl rfl rfl
        "plan_contract_saved"

/-- `record_repair_attempt`. -/
theorem recordRepairAttempt_eq (repairId : Text) (files : List Text) (error : Text) :
    recordRepairAttempt now repairId taskId files error st =
      match st.loadTask taskId with
      | none => (.error (taskNotFound taskId), st)
      | some state =>
        let st' : Store :=
          { st with repairs := st.repairs.upsert (repairAttempt now repairId state files error) }
        let state' : TaskState := { state with repairCount := state.repairCount + 1 }
        if state.status = .completed then (.error completionRefused, st')
        else (.ok (state'.stamped now "repair_attempted"),
          st'.writeTask (state'.stamped now "repair_attempted") "repair_attempted") := by
  unfold recordRepairAttempt
  cases hl : st.loadTask taskId with
  | none => exact requireTask_bind_none hl
  | some state =>
    rw [requireTask_bind hl]
    exact @saveTask_loaded
      { st with repairs := st.repairs.upsert (repairAttempt now repairId state files error) } now
      taskId state { state with repairCount := state.repairCount + 1 } hl rfl rfl rfl "repair_attempted"

theorem forEach_recordEvidence (es : List EvidenceRecord) :
    Prog.forEach es recordEvidence st =
      (.ok (), { st with evidence := es.foldl insertEvidence st.evidence }) := by
  induction es generalizing st with
  | nil => rfl
  | cons e es ih =>
    rw [Prog.forEach_cons, Prog.bind_apply]
    unfold recordEvidence
    rw [Prog.modify_apply]
    exact ih

/-- The store after `record_successful_step` recorded the step and its evidence. -/
def Store.recording (st : Store) (now : Text) (ids : Text × Text) (state : TaskState)
    (stepId : Text) (call : ToolCall) (result : ToolResult)
    (changedFiles requiredEvidence : List Text) : Store :=
  { st.withStep (runningStep now stepId state call result requiredEvidence) with
    evidence := (evidenceFromToolResult now ids state stepId call result changedFiles).foldl
      insertEvidence st.evidence }

/-- `record_successful_step`. -/
theorem recordSuccessfulStep_eq (ids : Text × Text) (call : ToolCall) (result : ToolResult)
    (changedFiles required : List Text) :
    recordSuccessfulStep now ids taskId stepId call result changedFiles required st =
      match st.loadTask taskId with
      | none => (.error (taskNotFound taskId), st)
      | some state =>
        let state' := state.afterStep stepId call result changedFiles
        let st₁ := st.recording now ids state' stepId call result changedFiles required
        match checkSave (st.tasks.lookup taskId) state' none false with
        | .error e => (.error e, st₁)
        | .ok saved =>
          (requestStepComplete now taskId stepId required >>= fun _ => requireTask taskId)
            (st₁.writeTask (saved.stamped now "step_succeeded") "step_succeeded") := by
  unfold recordSuccessfulStep
  cases hl : st.loadTask taskId with
  | none => exact requireTask_bind_none hl
  | some state =>
    rw [requireTask_bind hl]
    dsimp only
    rw [← Store.loadTask_taskId hl]
    generalize hstate : state.afterStep stepId call result changedFiles = state'
    have hid : state'.taskId = state.taskId := by rw [← hstate]; rfl
    show (Prog.forEach _ recordEvidence >>= _)
      (st.withStep (runningStep now stepId state' call result required)) = _
    rw [Prog.bind_apply, forEach_recordEvidence]
    show (saveTask now state' "step_succeeded" none false >>= _)
      (st.recording now ids state' stepId call result changedFiles required) = _
    rw [Prog.bind_apply, saveTask_eq, hid]
    have htasks : (st.recording now ids state' stepId call result changedFiles required).tasks =
        st.tasks := rfl
    rw [htasks]
    cases checkSave (st.tasks.lookup state.taskId) state' none false <;> rfl

end

end Shamsu.Runtime
