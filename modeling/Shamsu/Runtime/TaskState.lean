import Shamsu.Py.Text

/-!
# The state of a task

`shamsu/runtime/task_state.py`: the records of the runtime store and the two tables
of transitions. Timestamps are ISO texts and compare as texts. Of the dictionaries of
a tool call and its result the records keep what is read of them again.
-/

namespace Shamsu.Runtime

open Shamsu.Py

/-- `RunStatus`. -/
inductive RunStatus where
  | created | queued | running | waitingForApproval | cancelling | cancelled | completed | failed
  | timedOut
  deriving DecidableEq, Inhabited, Repr

def RunStatus.value : RunStatus → String
  | created => "created"
  | queued => "queued"
  | running => "running"
  | waitingForApproval => "waiting_for_approval"
  | cancelling => "cancelling"
  | cancelled => "cancelled"
  | completed => "completed"
  | failed => "failed"
  | timedOut => "timed_out"

/-- `TaskStepStatus`. -/
inductive TaskStepStatus where
  | pending | running | done | blocked | skipped | failed
  deriving DecidableEq, Inhabited, Repr

/-- `PlanStepStatus`. -/
inductive PlanStepStatus where
  | pending | active | blocked | verifying | completed | failed | cancelled
  deriving DecidableEq, Inhabited, Repr

def PlanStepStatus.value : PlanStepStatus → String
  | pending => "pending"
  | active => "active"
  | blocked => "blocked"
  | verifying => "verifying"
  | completed => "completed"
  | failed => "failed"
  | cancelled => "cancelled"

/-- `EvidenceType`. -/
inductive EvidenceType where
  | fileChanged | gitDiffReviewed | testPassed | typecheckPassed | lintPassed | buildPassed
  | serviceHealthy | migrationPassed | smokeTestPassed
  deriving DecidableEq, Inhabited, Repr

namespace EvidenceType

def all : List EvidenceType :=
  [fileChanged, gitDiffReviewed, testPassed, typecheckPassed, lintPassed, buildPassed,
    serviceHealthy, migrationPassed, smokeTestPassed]

def value : EvidenceType → String
  | fileChanged => "file_changed"
  | gitDiffReviewed => "git_diff_reviewed"
  | testPassed => "test_passed"
  | typecheckPassed => "typecheck_passed"
  | lintPassed => "lint_passed"
  | buildPassed => "build_passed"
  | serviceHealthy => "service_healthy"
  | migrationPassed => "migration_passed"
  | smokeTestPassed => "smoke_test_passed"

/-- `EvidenceType(text)`: `none` is the `ValueError`. -/
def parse (text : Text) : Option EvidenceType := all.find? fun t => t.value.toList == text

end EvidenceType

/-- `EvidenceStatus`. -/
inductive EvidenceStatus where
  | passed | failed | stale
  deriving DecidableEq, Inhabited, Repr

/-- What is read of a `tool_call`: its `name` and `arguments["command"]`. -/
structure ToolCall where
  name : Text := []
  command : Text := []
  deriving DecidableEq, Inhabited, Repr

/-- What is read of a `tool_result`; `exitCode` is `none` where `int` refuses it. -/
structure ToolResult where
  ok : Bool := false
  tool : Text := []
  message : Text := []
  command : Text := []
  exitCode : Option Int := none
  deriving DecidableEq, Inhabited, Repr

structure RunState where
  runId : Text
  status : RunStatus := .created
  taskIds : List Text := []
  currentTaskId : Text := []
  startedAt : Text
  updatedAt : Text
  lastCheckpoint : Text := []
  deriving DecidableEq, Inhabited, Repr

structure StepState where
  stepId : Text
  taskId : Text
  runId : Text
  status : TaskStepStatus := .pending
  phase : Text := "default".toList
  description : Text := []
  toolName : Text := []
  toolCall : ToolCall := {}
  toolResult : ToolResult := {}
  requiredEvidence : List Text := []
  startedAt : Text
  updatedAt : Text
  completedAt : Text := []
  deriving DecidableEq, Inhabited, Repr

structure RepairState where
  repairId : Text
  taskId : Text
  runId : Text
  status : RunStatus := .created
  attempt : Nat := 0
  targetFiles : List Text := []
  lastError : Text := []
  createdAt : Text
  updatedAt : Text
  deriving DecidableEq, Inhabited, Repr

structure EvidenceRecord where
  evidenceId : Text
  taskId : Text
  stepId : Text
  evidenceType : EvidenceType
  sourceTool : Text
  timestamp : Text
  status : EvidenceStatus := .passed
  details : Text := []
  relatedFiles : List Text := []
  relatedCommand : Text := []
  exitCode : Option Int := none
  checkpointId : Text := []
  deriving DecidableEq, Inhabited, Repr

/-- `FailureRecord`. -/
structure FailureRecord where
  taskId : Text
  errorSignature : Text
  failureType : Text
  stepId : Text := []
  action : Text := []
  evidence : List Text := []
  retryCount : Nat := 0
  firstSeen : Text
  lastSeen : Text
  deriving DecidableEq, Inhabited, Repr

/-- `CompletionGateResult`. -/
structure GateResult where
  ok : Bool
  taskId : Text
  stepId : Text := []
  missingEvidence : List EvidenceType := []
  staleEvidence : List EvidenceType := []
  failedEvidence : List EvidenceType := []
  incompleteSteps : List Text := []
  message : String := ""
  deriving DecidableEq, Inhabited, Repr

/-- `PlanStep`. Its risk level is the text that the caller gave. -/
structure PlanStep where
  stepId : Text
  title : Text
  goal : Text
  allowedTools : List Text := []
  acceptanceCriteria : List Text := []
  requiredEvidence : List Text := []
  riskLevel : Text := "low".toList
  approvalRequired : Bool := false
  status : PlanStepStatus := .pending
  dependencies : List Text := []
  deriving DecidableEq, Inhabited, Repr

structure ExecutionPlan where
  planId : Text
  taskId : Text
  runId : Text
  title : Text := []
  summary : Text := []
  steps : List PlanStep
  createdAt : Text
  updatedAt : Text
  deriving DecidableEq, Inhabited, Repr

/-- An entry of `pending_approvals`: the request, and what resolving it adds. -/
structure PendingApproval where
  request : Text
  approved : Option Bool := none
  resolvedAt : Text := []
  deriving DecidableEq, Inhabited, Repr

structure TaskState where
  taskId : Text
  runId : Text
  projectId : Text := []
  userRequest : Text := []
  status : RunStatus := .created
  currentPhase : String := "initialized"
  currentStepId : Text := []
  planId : Text := []
  actionCount : Nat := 0
  repairCount : Nat := 0
  replanCount : Nat := 0
  changedFiles : List Text := []
  requiredEvidence : List Text := []
  collectedEvidence : List Text := []
  pendingApprovals : List PendingApproval := []
  lastToolCall : ToolCall := {}
  lastToolResult : ToolResult := {}
  lastCheckpoint : Text := []
  createdAt : Text
  updatedAt : Text
  deriving DecidableEq, Inhabited, Repr

/-- The exceptions: `InvalidStateTransition`, the other `RuntimeStateError`s, and the
`ValueError` of a text that is no evidence type. -/
inductive StoreError where
  | invalidTransition (message : String)
  | runtimeState (message : String)
  | value (text : Text)
  deriving DecidableEq, Repr

/-! ## Transitions -/

/-- The table of `_validate_transition`. -/
def RunStatus.next : RunStatus → List RunStatus
  | created => [running, waitingForApproval, cancelled, timedOut, failed]
  | queued => [running, cancelled, failed]
  | running => [waitingForApproval, cancelling, cancelled, timedOut, failed, completed]
  | waitingForApproval => [running, cancelling, cancelled, timedOut, failed]
  | cancelling => [cancelled, failed]
  | cancelled | timedOut | failed | completed => []

/-- A status that nothing leads out of. -/
def RunStatus.terminal (status : RunStatus) : Bool := status.next.isEmpty

/-- Whether `_validate_transition` lets a step through. -/
def RunStatus.mayBecome (previous next : RunStatus) : Bool :=
  previous == next || previous.next.contains next

/-- `_validate_transition`. -/
def validateTransition (previous next : RunStatus) : Except StoreError Unit :=
  if previous.mayBecome next then .ok ()
  else .error (.invalidTransition
    ("Invalid task transition: " ++ previous.value ++ " -> " ++ next.value))

/-- The table of `_validate_plan_step_transition`. -/
def PlanStepStatus.next : PlanStepStatus → List PlanStepStatus
  | pending => [active, blocked, cancelled]
  | active => [blocked, verifying, completed, failed, cancelled]
  | verifying => [active, completed, failed, blocked, cancelled]
  | blocked => [active, cancelled]
  | failed | completed | cancelled => []

/-- Whether `_validate_plan_step_transition` lets a step through. -/
def PlanStepStatus.mayBecome (previous next : PlanStepStatus) : Bool :=
  previous == next || previous.next.contains next

/-- `_validate_plan_step_transition`. -/
def validatePlanStepTransition (previous next : PlanStepStatus) : Except StoreError Unit :=
  if previous.mayBecome next then .ok ()
  else .error (.invalidTransition
    ("Invalid plan step transition: " ++ previous.value ++ " -> " ++ next.value))

@[simp] theorem RunStatus.mayBecome_self (status : RunStatus) : status.mayBecome status = true := by
  simp [mayBecome]

/-- A terminal status becomes no other. -/
theorem RunStatus.eq_of_terminal {previous next : RunStatus} (ht : previous.terminal = true)
    (h : previous.mayBecome next = true) : next = previous := by
  unfold mayBecome at h
  rw [List.isEmpty_iff.mp ht, List.contains_nil, Bool.or_false, beq_iff_eq] at h
  exact h.symm

/-- A completed plan step stays completed. -/
theorem PlanStepStatus.eq_completed {next : PlanStepStatus}
    (h : PlanStepStatus.completed.mayBecome next = true) : next = .completed := by
  cases next <;> simp_all [mayBecome, PlanStepStatus.next]

end Shamsu.Runtime
