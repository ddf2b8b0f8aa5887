import Shamsu.Lib.Prog
import Shamsu.Lib.Table
import Shamsu.Runtime.PlanContract

/-!
# The runtime store

`RuntimeStateStore`: its tables and its operations. An operation reads and writes the
tables one statement after the other, each in a transaction of its own, so what it
wrote before it raises stays written; it is a program over the tables (`Prog`). It
takes one reading of the clock, and the ids it would make up.
-/

namespace Shamsu.Runtime

open Shamsu.Py Shamsu.Lib
open Shamsu.Lib.Prog (raise gets modify ofExcept read)

/-- The tables. Of a checkpoint the payload. -/
structure Store where
  tasks : Table TaskState.taskId
  steps : Table fun step : StepState => (step.taskId, step.stepId)
  plans : Table ExecutionPlan.planId
  evidence : List EvidenceRecord
  repairs : Table RepairState.repairId
  runs : Table RunState.runId
  failures : Table fun failure : FailureRecord => (failure.taskId, failure.errorSignature)
  checkpoints : List TaskState

def Store.empty : Store := ⟨.empty, .empty, .empty, [], .empty, .empty, .empty, []⟩

/-- An operation of the store. -/
abbrev Op (α : Type) := Prog StoreError Store α

namespace Store

variable (st : Store)

/-! ## Reading -/

/-- `recover_latest_checkpoint`. -/
def recoverLatestCheckpoint (taskId : Text) : Option TaskState :=
  st.checkpoints.reverse.find? fun state => state.taskId == taskId

/-- `load_task`, with `recover`. -/
def loadTask (taskId : Text) : Option TaskState :=
  match st.tasks.lookup taskId with
  | some state => some state
  | none => st.recoverLatestCheckpoint taskId

/-- The plan of the second query of `load_task_plan`. -/
def latestPlan (taskId : Text) : Option ExecutionPlan :=
  ((st.plans.rows.filter fun plan => plan.taskId == taskId).insertionSort
    fun a b => b.updatedAt ≤ a.updatedAt).head?

/-- The plan of a task, given its `plan_id`. -/
def planOf (planId taskId : Text) : Option ExecutionPlan :=
  if planId ≠ [] then st.plans.lookup planId else st.latestPlan taskId

/-- `load_task_plan`. -/
def loadTaskPlan (taskId : Text) : Option ExecutionPlan :=
  match st.loadTask taskId with
  | some state => st.planOf state.planId taskId
  | none => st.latestPlan taskId

/-- `load_step`. -/
def loadStep (taskId stepId : Text) : Option StepState := st.steps.lookup (taskId, stepId)

/-- `list_steps`. -/
def listSteps (taskId : Text) : List StepState :=
  (st.steps.rows.filter fun step => step.taskId == taskId).insertionSort fun a b =>
    a.updatedAt < b.updatedAt ∨ (a.updatedAt = b.updatedAt ∧ a.stepId ≤ b.stepId)

/-- `list_evidence` of a step. -/
def listEvidence (taskId stepId : Text) : List EvidenceRecord :=
  (st.evidence.filter fun e => e.taskId == taskId && e.stepId == stepId).insertionSort fun a b =>
    a.timestamp < b.timestamp ∨ (a.timestamp = b.timestamp ∧ a.evidenceId ≤ b.evidenceId)

/-- `_check_required_evidence`. -/
def checkRequiredEvidence (taskId stepId : Text) (required : List EvidenceType)
    (notBefore : Text) : GateResult :=
  let records := st.listEvidence taskId stepId
  let candidates (t : EvidenceType) := records.filter fun e => e.evidenceType == t
  let fresh (t : EvidenceType) :=
    (candidates t).filter fun e => notBefore == [] || decide (notBefore ≤ e.timestamp)
  let missing := required.filter fun t => (candidates t).isEmpty
  let stale := required.filter fun t => !(candidates t).isEmpty && (fresh t).isEmpty
  let failed := required.filter fun t =>
    !(fresh t).isEmpty && !(fresh t).any fun e => e.status == .passed
  let ok := missing.isEmpty && stale.isEmpty && failed.isEmpty
  { ok := ok
    taskId := taskId
    stepId := stepId
    missingEvidence := missing
    staleEvidence := stale
    failedEvidence := failed
    message := if ok then "Evidence verified."
      else "Required evidence is missing, stale, or failed." }

end Store

/-- `_normalize_evidence_types`, or the text it has no type for. -/
def normalizeEvidenceTypes (values : List Text) : Except StoreError (List EvidenceType) :=
  (values.mapM fun text =>
    match EvidenceType.parse text with
    | some t => Except.ok t
    | none => Except.error (StoreError.value text)).map List.eraseDups

/-- `require_task`. -/
def requireTask (taskId : Text) : Op TaskState := read fun st =>
  match st.loadTask taskId with
  | some state => .ok state
  | none => .error (.runtimeState ("Task state not found: " ++ str taskId))

/-! ## Tasks -/

/-- A gate that refuses, with its message. -/
def GateResult.refused (taskId stepId : Text) (message : String) : GateResult :=
  { ok := false, taskId := taskId, stepId := stepId, message := message }

/-- A gate that refuses because of steps. -/
def GateResult.incomplete (taskId : Text) (steps : List Text) (message : String) : GateResult :=
  { ok := false, taskId := taskId, incompleteSteps := steps, message := message }

/-- A gate that passes. -/
def GateResult.verified (taskId stepId : Text) (message : String) : GateResult :=
  { ok := true, taskId := taskId, stepId := stepId, message := message }

/-- A state without a `created_at` takes that of the row. -/
def TaskState.keepCreated (state existing : TaskState) : TaskState :=
  if state.createdAt = [] then { state with createdAt := existing.createdAt } else state

/-- The checks of `save_task`, and the `created_at` it keeps. -/
def checkSave (existing : Option TaskState) (state : TaskState)
    (expectedPrevious : Option RunStatus) (allowCompletion : Bool) :
    Except StoreError TaskState :=
  if state.status == .completed && !allowCompletion then
    .error (.invalidTransition "Task completion must go through request_task_complete().")
  else
    match existing with
    | none => .ok state
    | some existing =>
      match expectedPrevious.filter fun expected => existing.status != expected with
      | some (expected : RunStatus) => .error (.invalidTransition
          ("Expected " ++ expected.value ++ ", found " ++ existing.status.value))
      | none =>
        match validateTransition existing.status state.status with
        | .error e => .error e
        | .ok () => .ok (state.keepCreated existing)

/-- `updated_at` and `last_checkpoint`; no kind is the empty one. -/
def TaskState.stamped (state : TaskState) (now : Text) (checkpointKind : String) : TaskState :=
  if checkpointKind = "" then { state with updatedAt := now }
  else { state with
    updatedAt := now
    lastCheckpoint := checkpointKind.toList ++ ':' :: now }

/-- The transaction of `save_task`. -/
def Store.writeTask (st : Store) (state : TaskState) (checkpointKind : String) : Store :=
  { st with
    tasks := st.tasks.upsert state
    checkpoints := if checkpointKind = "" then st.checkpoints else st.checkpoints ++ [state] }

/-- `save_task`. -/
def saveTask (now : Text) (state : TaskState) (checkpointKind : String := "")
    (expectedPrevious : Option RunStatus := none) (allowCompletion : Bool := false) :
    Op TaskState := do
  let existing ← gets fun st => st.tasks.lookup state.taskId
  let state ← ofExcept (checkSave existing state expectedPrevious allowCompletion)
  modify fun st => st.writeTask (state.stamped now checkpointKind) checkpointKind
  pure (state.stamped now checkpointKind)

/-- `save_run`. -/
def saveRun (now : Text) (run : RunState) : Op RunState := do
  modify fun st => { st with runs := st.runs.upsert { run with updatedAt := now } }
  pure { run with updatedAt := now }

/-- `create_task`; the id is the caller's or a new one. -/
def createTask (now runId userRequest projectId taskId planId : Text) : Op TaskState := do
  let state ← saveTask now
    { taskId := taskId, runId := runId, projectId := projectId, userRequest := userRequest,
      planId := planId, createdAt := now, updatedAt := now } "task_initialized"
  -- a run that is not there is created, and then saved again
  let run ← gets fun st => (st.runs.lookup runId).getD
    { runId := runId, startedAt := now, updatedAt := now }
  let taskIds := if run.taskIds.contains taskId then run.taskIds else run.taskIds ++ [taskId]
  let _ ← saveRun now { run with
    taskIds := taskIds
    currentTaskId := taskId
    lastCheckpoint := state.lastCheckpoint }
  pure state

/-- `update_task_status`. -/
def updateTaskStatus (now taskId : Text) (status : RunStatus) (phase : Option String)
    (checkpointKind : String) : Op TaskState := do
  let state ← requireTask taskId
  saveTask now { state with status := status, currentPhase := phase.getD state.currentPhase }
    checkpointKind

/-- `record_plan_created`. -/
def recordPlanCreated (now taskId planId : Text) : Op TaskState := do
  let state ← requireTask taskId
  saveTask now { state with
    status := .running
    currentPhase := "planned"
    planId := if planId = [] then state.planId else planId } "plan_created"

/-- `record_approval_requested`. -/
def recordApprovalRequested (now taskId request : Text) : Op TaskState := do
  let state ← requireTask taskId
  saveTask now { state with
    status := .waitingForApproval
    currentPhase := "approval"
    pendingApprovals := state.pendingApprovals ++ [{ request := request }] } "approval_requested"

/-- The last request of `pending_approvals` is resolved. -/
def resolveLast (approved : Bool) (now : Text) : List PendingApproval → List PendingApproval
  | [] => []
  | [last] => [{ last with approved := some approved, resolvedAt := now }]
  | a :: b :: rest => a :: resolveLast approved now (b :: rest)

/-- `record_approval_resolved`. -/
def recordApprovalResolved (now taskId : Text) (approved : Bool) : Op TaskState := do
  let state ← requireTask taskId
  saveTask now { state with
    status := .running
    currentPhase := "running"
    pendingApprovals := resolveLast approved now state.pendingApprovals } "approval_resolved"

/-- `record_replan`. -/
def recordReplan (now taskId planId : Text) : Op TaskState := do
  let state ← requireTask taskId
  saveTask now { state with
    replanCount := state.replanCount + 1
    planId := if planId = [] then state.planId else planId
    currentPhase := "replanned" } "replanned"

/-! ## Steps, evidence and repairs -/

/-- `record_step`. -/
def recordStep (now : Text) (step : StepState) : Op StepState := do
  modify fun st => { st with steps := st.steps.upsert { step with updatedAt := now } }
  pure { step with updatedAt := now }

/-- `record_repair`. -/
def recordRepair (now : Text) (repair : RepairState) : Op RepairState := do
  modify fun st => { st with repairs := st.repairs.upsert { repair with updatedAt := now } }
  pure { repair with updatedAt := now }

/-- What `_evidence_signature` is made of. -/
def EvidenceRecord.signature (e : EvidenceRecord) : EvidenceRecord :=
  { e with evidenceId := [], timestamp := [] }

/-- The record as `record_evidence` writes it. -/
def EvidenceRecord.sorted (e : EvidenceRecord) : EvidenceRecord :=
  { e with relatedFiles := e.relatedFiles.dedup.insertionSort (· ≤ ·) }

/-- The table after `record_evidence`: evidence with a signature that is there is not
written again. -/
def insertEvidence (table : List EvidenceRecord) (e : EvidenceRecord) : List EvidenceRecord :=
  if table.any fun old => old.signature == e.sorted.signature then table else table ++ [e.sorted]

/-- `record_evidence`; its id is the caller's or a new one. -/
def recordEvidence (e : EvidenceRecord) : Op Unit :=
  modify fun st => { st with evidence := insertEvidence st.evidence e }

/-- `lower`, as far as the names below can tell: the Kelvin sign is the one character
outside ASCII with a lower case letter of theirs. -/
def lowered (command : Text) : Text :=
  command.map fun c => if c.toNat = 0x212A then 'k' else c.toLower

/-- `_command_evidence_type`. -/
def commandEvidenceType (command : Text) : Option EvidenceType :=
  let lower := lowered command
  let has (name : String) : Bool := (find name.toList lower).isSome
  let hasWord (name : String) : Bool := (find name.toList (' ' :: lower)).isSome
  if has "pytest" || hasWord " test" || has "npm test" then some .testPassed
  else if has "ruff" || has "eslint" || hasWord " lint" then some .lintPassed
  else if has "mypy" || has "tsc" || has "typecheck" then some .typecheckPassed
  else if hasWord " build" || has "npm run build" then some .buildPassed
  else if has "migrate" || has "migration" then some .migrationPassed
  else if has "health" || has "curl" then some .serviceHealthy
  else none

def changingTools : List String :=
  ["write_file", "edit_file", "append_file", "file.patch", "run_command", "test.run"]

def commandTools : List String := ["run_command", "test.run"]

/-- `_evidence_from_tool_result`, with the ids for its two records. -/
def evidenceFromToolResult (now : Text) (ids : Text × Text) (state : TaskState) (stepId : Text)
    (call : ToolCall) (result : ToolResult) (changedFiles : List Text) : List EvidenceRecord :=
  let name := if call.name = [] then result.tool else call.name
  let among (tools : List String) : Bool := tools.any fun tool => tool.toList == name
  let status (passed : Bool) : EvidenceStatus := if passed then .passed else .failed
  let changed : List EvidenceRecord :=
    if !changedFiles.isEmpty && among changingTools then
      [{ evidenceId := ids.1, taskId := state.taskId, stepId := stepId,
         evidenceType := .fileChanged, sourceTool := name, timestamp := now,
         status := status result.ok, details := result.message, relatedFiles := changedFiles,
         checkpointId := state.lastCheckpoint }]
    else []
  let command := if call.command = [] then result.command else call.command
  let exitCode := result.exitCode.getD (if result.ok then 0 else 1)
  let ran : List EvidenceRecord :=
    match commandEvidenceType command with
    | some t =>
      [{ evidenceId := ids.2, taskId := state.taskId, stepId := stepId, evidenceType := t,
         sourceTool := name, timestamp := now, status := status (exitCode == 0 && result.ok),
         details := result.message, relatedCommand := command, exitCode := some exitCode,
         checkpointId := state.lastCheckpoint }]
    | none => []
  if among commandTools then changed ++ ran else changed

/-- What `request_step_complete` reads of the step: a gate that refuses, or the step that
it may complete. -/
def Store.stepGate (st : Store) (taskId stepId : Text) (requiredEvidence : List Text) :
    Except StoreError (GateResult ⊕ StepState) :=
  match st.loadStep taskId stepId with
  | none => .ok (.inl (.refused taskId stepId ("Step state not found: " ++ str stepId)))
  | some step => do
    let required ← normalizeEvidenceTypes
      (if requiredEvidence.isEmpty then step.requiredEvidence else requiredEvidence)
    let gate := st.checkRequiredEvidence taskId stepId required step.startedAt
    pure (if gate.ok then .inr step else .inl gate)

/-- The step when it is done. -/
def StepState.finished (step : StepState) (now : Text) : StepState :=
  { step with status := .done, completedAt := now, updatedAt := now }

/-- The task at a step. -/
def TaskState.atStep (state : TaskState) (stepId : Text) (phase : String) : TaskState :=
  { state with currentStepId := stepId, currentPhase := phase }

/-- `request_step_complete`. -/
def requestStepComplete (now taskId stepId : Text) (requiredEvidence : List Text) :
    Op GateResult := do
  let state ← requireTask taskId
  match ← read fun st => st.stepGate taskId stepId requiredEvidence with
  | .inl gate => pure gate
  | .inr step => do
    let _ ← recordStep now { step with status := .done, completedAt := now }
    let _ ← saveTask now (state.atStep stepId "running") "step_completed"
    pure (.verified taskId stepId "Step completion verified.")

/-- The plan steps in the way of completion. -/
def incompletePlanSteps (plan : Option ExecutionPlan) : List Text :=
  match plan with
  | some plan => (plan.steps.filter fun step => step.status != .completed).map PlanStep.stepId
  | none => []

/-- The steps in the way of completion. -/
def incompleteSteps (steps : List StepState) : List Text :=
  (steps.filter fun step => !(step.status == .done || step.status == .skipped)).map StepState.stepId

/-- `request_task_complete`. -/
def requestTaskComplete (now taskId : Text) (requiredEvidence : List Text) : Op GateResult := do
  let state ← requireTask taskId
  let incompletePlan ← gets fun st => incompletePlanSteps (st.loadTaskPlan taskId)
  let incomplete ← gets fun st => incompleteSteps (st.listSteps taskId)
  if !incompletePlan.isEmpty then
    pure (.incomplete taskId incompletePlan "Execution plan has incomplete steps.")
  else if !incomplete.isEmpty then
    pure (.incomplete taskId incomplete "Task has incomplete steps.")
  else do
    let required ← ofExcept (normalizeEvidenceTypes
      (if requiredEvidence.isEmpty then state.requiredEvidence else requiredEvidence))
    let gate ← gets fun st => st.checkRequiredEvidence taskId [] required []
    if gate.ok then do
      let _ ← saveTask now { state with status := .completed, currentPhase := "completed" }
        "before_final_completion" none true
      pure (.verified taskId [] "Task completion verified.")
    else pure gate

/-- The task that `record_successful_step` saves. -/
def TaskState.afterStep (state : TaskState) (stepId : Text) (call : ToolCall)
    (result : ToolResult) (changedFiles : List Text) : TaskState :=
  let evidence := if result.message = [] then result.tool else result.message
  { state with
    status := .running
    currentPhase := "running"
    currentStepId := stepId
    actionCount := state.actionCount + 1
    lastToolCall := call
    lastToolResult := result
    changedFiles := changedFiles.foldl
      (fun files path => if path = [] ∨ path ∈ files then files else files ++ [path])
      state.changedFiles
    collectedEvidence := if evidence = [] ∨ evidence ∈ state.collectedEvidence
      then state.collectedEvidence else state.collectedEvidence ++ [evidence] }

/-- The step that it records. -/
def runningStep (now stepId : Text) (state : TaskState) (call : ToolCall) (result : ToolResult)
    (requiredEvidence : List Text) : StepState :=
  { stepId := stepId, taskId := state.taskId, runId := state.runId, status := .running,
    phase := "running".toList, description := call.name, toolName := call.name, toolCall := call,
    toolResult := result, requiredEvidence := requiredEvidence, startedAt := now,
    updatedAt := now }

/-- `record_successful_step`. -/
def recordSuccessfulStep (now : Text) (ids : Text × Text) (taskId stepId : Text) (call : ToolCall)
    (result : ToolResult) (changedFiles requiredEvidence : List Text) : Op TaskState := do
  let state ← requireTask taskId
  let state := state.afterStep stepId call result changedFiles
  let _ ← recordStep now (runningStep now stepId state call result requiredEvidence)
  Prog.forEach (evidenceFromToolResult now ids state stepId call result changedFiles) recordEvidence
  let _ ← saveTask now state "step_succeeded"
  let _ ← requestStepComplete now taskId stepId requiredEvidence
  requireTask taskId

/-- The repair that `record_repair_attempt` records. -/
def repairAttempt (now repairId : Text) (state : TaskState) (targetFiles : List Text)
    (lastError : Text) : RepairState :=
  { repairId := repairId, taskId := state.taskId, runId := state.runId, status := .running,
    attempt := state.repairCount + 1, targetFiles := targetFiles, lastError := lastError,
    createdAt := now, updatedAt := now }

/-- `record_repair_attempt`, with the id of the repair. -/
def recordRepairAttempt (now repairId taskId : Text) (targetFiles : List Text)
    (lastError : Text) : Op TaskState := do
  let state ← requireTask taskId
  let _ ← recordRepair now (repairAttempt now repairId state targetFiles lastError)
  saveTask now { state with repairCount := state.repairCount + 1 } "repair_attempted"

/-- `record_failure`, of a failure with its type normalized and its signature made. -/
def recordFailure (failure : FailureRecord) : Op Unit :=
  modify fun st =>
    let seen := match st.failures.lookup (failure.taskId, failure.errorSignature) with
      | some existing =>
        { failure with firstSeen := existing.firstSeen, retryCount := existing.retryCount + 1 }
      | none => failure
    { st with failures := st.failures.upsert seen }

/-! ## Plans -/

/-- `save_execution_plan`. -/
def saveExecutionPlan (now : Text) (plan : ExecutionPlan) (validToolNames : Option (List Text)) :
    Op ExecutionPlan := do
  match validateExecutionPlan plan validToolNames with
  | error :: errors => raise (.invalidTransition ("; ".intercalate (error :: errors)))
  | [] => do
    modify fun st => { st with plans := st.plans.upsert { plan with updatedAt := now } }
    let state ← requireTask plan.taskId
    let _ ← saveTask now { state with planId := plan.planId, currentPhase := "planned" }
      "plan_contract_saved"
    pure { plan with updatedAt := now }

/-- `_persist_plan`: an update of the row of the plan, if there is one. -/
def Store.persistPlan (st : Store) (plan : ExecutionPlan) : Store :=
  if (st.plans.lookup plan.planId).isSome then { st with plans := st.plans.upsert plan } else st

/-- The first step that meets the test gets a status. -/
def setFirst (test : PlanStep → Bool) (status : PlanStepStatus) : List PlanStep → List PlanStep
  | [] => []
  | step :: steps =>
    if test step then { step with status := status } :: steps
    else step :: setFirst test status steps

/-- The ids of the steps that are completed. -/
def completedIds (steps : List PlanStep) : List Text :=
  (steps.filter fun step => step.status == .completed).map PlanStep.stepId

/-- What the loop of `current_active_step` takes: a pending step whose dependencies are
completed. Its `blocked_statuses` are not pending either. -/
def isReady (completed : List Text) (step : PlanStep) : Bool :=
  step.status == .pending && step.dependencies.all fun dep => completed.contains dep

/-- The plan with that step activated. -/
def ExecutionPlan.activated (plan : ExecutionPlan) (now : Text) : ExecutionPlan :=
  { plan with
    steps := setFirst (isReady (completedIds plan.steps)) .active plan.steps
    updatedAt := now }

/-- The step state of a plan step that is activated. -/
def plannedStep (now : Text) (plan : ExecutionPlan) (step : PlanStep) : StepState :=
  { stepId := step.stepId, taskId := plan.taskId, runId := plan.runId, status := .running,
    phase := "executing_plan".toList, description := step.title,
    requiredEvidence := step.requiredEvidence, startedAt := now, updatedAt := now }

/-- It is recorded unless `load_step` of the task finds one. -/
def recordStepUnless (taskId : Text) (step : StepState) : Op Unit :=
  modify fun st =>
    if (st.loadStep taskId step.stepId).isSome then st
    else { st with steps := st.steps.upsert step }

/-- `current_active_step`. -/
def currentActiveStep (now taskId : Text) : Op (Option PlanStep) := do
  match ← gets fun st => st.loadTaskPlan taskId with
  | none => pure none
  | some plan =>
    match plan.steps.find? fun step => step.status == .active with
    | some step => pure (some step)
    | none =>
      match plan.steps.find? (isReady (completedIds plan.steps)) with
      | none => pure none
      | some step => do
        modify fun st => st.persistPlan (plan.activated now)
        recordStepUnless taskId (plannedStep now plan step)
        let state ← requireTask taskId
        let _ ← saveTask now (state.atStep step.stepId "executing_plan") "plan_step_activated"
        pure (some { step with status := .active })

/-- The phase of a task whose plan step got a status. -/
def phaseAfter (status : PlanStepStatus) (otherwise : String) : String :=
  match status with
  | .completed => "step_completed"
  | .blocked => "blocked"
  | .active => "executing_plan"
  | .pending | .verifying | .failed | .cancelled => otherwise

/-- The plan with the status of a step updated. -/
def ExecutionPlan.withStatus (plan : ExecutionPlan) (now stepId : Text)
    (status : PlanStepStatus) : ExecutionPlan :=
  { plan with
    steps := setFirst (fun step => step.stepId == stepId) status plan.steps
    updatedAt := now }

/-- The step of a plan with an id. -/
def ExecutionPlan.step? (plan : ExecutionPlan) (stepId : Text) : Option PlanStep :=
  plan.steps.find? fun step => step.stepId == stepId

/-- `update_plan_step_status`. -/
def updatePlanStepStatus (now taskId stepId : Text) (status : PlanStepStatus)
    (checkpointKind : String := "plan_step_status_changed") : Op ExecutionPlan := do
  match ← gets fun st => st.loadTaskPlan taskId with
  | none => raise (.runtimeState ("Execution plan not found for task: " ++ str taskId))
  | some plan =>
    match plan.step? stepId with
    | none => raise (.runtimeState ("Plan step not found: " ++ str stepId))
    | some target => do
      ofExcept (validatePlanStepTransition target.status status)
      modify fun st => st.persistPlan (plan.withStatus now stepId status)
      let state ← requireTask taskId
      let _ ← saveTask now (state.atStep stepId (phaseAfter status state.currentPhase))
        checkpointKind
      pure (plan.withStatus now stepId status)

/-- `complete_plan_step`. -/
def completePlanStep (now taskId stepId : Text) : Op GateResult := do
  match ← gets fun st => st.loadTaskPlan taskId with
  | none => pure (.refused taskId stepId "Execution plan not found.")
  | some plan =>
    match plan.step? stepId with
    | none => pure (.refused taskId stepId "Plan step not found.")
    | some step => do
      let gate ← requestStepComplete now taskId stepId step.requiredEvidence
      if gate.ok then do
        let _ ← updatePlanStepStatus now taskId stepId .completed "plan_step_completed"
        pure gate
      else do
        let _ ← updatePlanStepStatus now taskId stepId .verifying "plan_step_verifying"
        pure gate

end Shamsu.Runtime
