import Shamsu.Py.Value
import Shamsu.Safety.Sandbox

/-!
# Change requests

`shamsu/patch/types.py`: the structured output a model proposes, a change plan
and an optional diff, with the parser that checks every field. The one thing
the parser decides is `destructive`: declared, or implied by an operation that
removes a path (`parseChangePlan_destructive`).
-/

namespace Shamsu.Patch

open Shamsu.Lib Shamsu.Py

/-- `OPERATION_KINDS`. -/
inductive OperationKind where
  | createFile | editFile | applyPatch | renameFile | moveFile | deleteFile | createDirectory
  deriving DecidableEq, Repr

/-- `DESTRUCTIVE_OPS`. -/
def OperationKind.isDestructive : OperationKind → Bool
  | deleteFile | renameFile | moveFile => true
  | _ => false

def OperationKind.name : OperationKind → String
  | createFile => "create_file"
  | editFile => "edit_file"
  | applyPatch => "apply_patch"
  | renameFile => "rename_file"
  | moveFile => "move_file"
  | deleteFile => "delete_file"
  | createDirectory => "create_directory"

def operationKinds : List OperationKind :=
  [.createFile, .editFile, .applyPatch, .renameFile, .moveFile, .deleteFile, .createDirectory]

structure Operation where
  op : OperationKind
  path : Text
  destPath : Text
  reason : Text
  content : Text
  deriving DecidableEq, Repr

structure ChangePlan where
  reason : Text
  operations : List Operation
  verificationCommand : Text
  destructive : Bool
  deriving DecidableEq, Repr

/-- Append unless empty or there already. -/
def noteTouched (paths : List Text) (path : Text) : List Text :=
  if path ≠ [] ∧ path ∉ paths then paths ++ [path] else paths

/-- `ChangePlan.touched_paths`. -/
def ChangePlan.touchedPaths (plan : ChangePlan) : List Text :=
  plan.operations.foldl (fun paths op => noteTouched (noteTouched paths op.path) op.destPath) []

structure ChangeRequest where
  changePlan : ChangePlan
  patch : Text
  deriving DecidableEq, Repr

/-! ## Parsing -/

/-- `ChangeRequestError(message)`. -/
def requestError (message : String) : Exn := ⟨.changeRequest, message⟩

/-- `_require_str`. -/
def requireStr (payload : Dict) (key : String) (required : Bool) : Except Exn Text :=
  match (dictGet payload key).getD (.str []) with
  | .none =>
    if required then .error (requestError s!"'{key}' is required and cannot be empty.")
    else .ok []
  | .str t =>
    if required && isBlank t then
      .error (requestError s!"'{key}' is required and cannot be empty.")
    else .ok t
  | v => .error (requestError s!"'{key}' must be a string, got {v.typeName}.")

def operationKindsText : String :=
  "(" ++ ", ".intercalate (operationKinds.map fun k => s!"'{k.name}'") ++ ")"

/-- `parse_operation`. -/
def parseOperation : Value → Except Exn Operation
  | .dict raw => do
    let op ← requireStr raw "op" true
    match operationKinds.find? fun k => k.name.toList == op with
    | none => .error (requestError
        s!"Unknown operation '{str op}'. Must be one of {operationKindsText}.")
    | some op => do
      let path ← requireStr raw "path" true
      let destPath ← requireStr raw "dest_path" false
      if (op = .renameFile ∨ op = .moveFile) ∧ isBlank destPath then
        .error (requestError s!"Operation '{op.name}' requires 'dest_path'.")
      let reason ← requireStr raw "reason" false
      let content ← requireStr raw "content" false
      .ok { op, path, destPath, reason, content }
  | v => .error (requestError s!"Each operation must be an object, got {v.typeName}.")

/-- `parse_change_plan`. -/
def parseChangePlan : Value → Except Exn ChangePlan
  | .dict raw => do
    let reason ← requireStr raw "reason" true
    match dictGet raw "operations" with
    | some (.list (first :: rest)) => do
      let operations ← (first :: rest).mapM parseOperation
      let verificationCommand ← requireStr raw "verification_command" false
      match (dictGet raw "destructive").getD (.bool false) with
      | .bool destructive =>
        .ok {
          reason, operations, verificationCommand
          destructive := destructive || operations.any (·.op.isDestructive) }
      | _ => .error (requestError "'destructive' must be a boolean.")
    | _ => .error (requestError "'change_plan.operations' must be a non-empty list.")
  | v => .error (requestError s!"'change_plan' must be an object, got {v.typeName}.")

/-- `parse_change_request`. -/
def parseChangeRequest : Value → Except Exn ChangeRequest
  | .dict raw =>
    match dictGet raw "change_plan" with
    | none => .error (requestError "Change request is missing 'change_plan'.")
    | some plan => do
      let changePlan ← parseChangePlan plan
      let patch ← match (dictGet raw "patch").getD (.str []) with
        | .none => .ok []
        | .str t => .ok t
        | v => .error (requestError s!"'patch' must be a string, got {v.typeName}.")
      if changePlan.operations.any (·.op == .applyPatch) && isBlank patch then
        .error (requestError "Change plan includes apply_patch but 'patch' is empty.")
      else .ok { changePlan, patch }
  | v => .error (requestError s!"Change request must be an object, got {v.typeName}.")

/-- A change request as a model sends it, for concrete runs. -/
def requestOf (operations : List (List (String × String))) (patch : String) : Value :=
  .dict [
    ("change_plan".toList, .dict [
      ("reason".toList, .str "tidy up".toList),
      ("operations".toList, .list (operations.map fun op =>
        .dict (op.map fun (key, value) => (key.toList, .str value.toList))))]),
    ("patch".toList, .str patch.toList)]

/-! ## What the parser decides -/

theorem mem_noteTouched {paths : List Text} {path p : Text} (h : p ∈ paths) :
    p ∈ noteTouched paths path := by
  unfold noteTouched
  split
  · exact List.mem_append_left _ h
  · exact h

theorem mem_noteTouched_self {paths : List Text} {path : Text} (h : path ≠ []) :
    path ∈ noteTouched paths path := by
  unfold noteTouched
  split
  · exact List.mem_append_right _ (List.mem_singleton_self _)
  next hn =>
    by_contra hm
    exact hn ⟨h, hm⟩

/-- Every path an operation names is a touched path. -/
theorem ChangePlan.mem_touchedPaths {plan : ChangePlan} {op : Operation} {path : Text}
    (hop : op ∈ plan.operations) (hpath : path = op.path ∨ path = op.destPath)
    (hne : path ≠ []) : path ∈ plan.touchedPaths := by
  unfold ChangePlan.touchedPaths
  have hkeep : ∀ (ops : List Operation) (paths : List Text), path ∈ paths →
      path ∈ ops.foldl (fun paths op => noteTouched (noteTouched paths op.path) op.destPath)
        paths := by
    intro ops
    induction ops with
    | nil => intro paths h; exact h
    | cons op ops ih => intro paths h; exact ih _ (mem_noteTouched (mem_noteTouched h))
  generalize plan.operations = ops at hop
  generalize ([] : List Text) = paths
  induction ops generalizing paths with
  | nil => simp at hop
  | cons o ops ih =>
    rcases List.mem_cons.mp hop with rfl | hop
    · refine hkeep ops _ ?_
      rcases hpath with rfl | rfl
      · exact mem_noteTouched (mem_noteTouched_self hne)
      · exact mem_noteTouched_self hne
    · exact ih hop _

theorem requireStr_ne_nil {payload : Dict} {key : String} {t : Text}
    (h : requireStr payload key true = .ok t) : t ≠ [] := by
  unfold requireStr at h
  split at h
  · simp at h
  · split at h
    · simp at h
    next hb =>
      cases h
      intro heq
      subst heq
      exact hb (by decide)
  · simp at h

theorem parseOperation_path {v : Value} {op : Operation} (h : parseOperation v = .ok op) :
    op.path ≠ [] := by
  unfold parseOperation at h
  split at h
  swap
  · cases h
  obtain ⟨kind, _, h⟩ := result_bind_ok.mp h
  split at h
  · cases h
  obtain ⟨path, hpath, h⟩ := result_bind_ok.mp h
  obtain ⟨destPath, _, h⟩ := result_bind_ok.mp h
  split at h
  · cases h
  obtain ⟨reason, _, h⟩ := result_bind_ok.mp h
  obtain ⟨content, _, h⟩ := result_bind_ok.mp h
  cases h
  exact requireStr_ne_nil hpath

/-- **What a parsed plan promises**: it is destructive when one of its operations
is, and every operation has a path. -/
theorem parseChangePlan_destructive {v : Value} {plan : ChangePlan}
    (h : parseChangePlan v = .ok plan) :
    ∀ op ∈ plan.operations, op.path ≠ [] ∧
      (op.op.isDestructive = true → plan.destructive = true) := by
  unfold parseChangePlan at h
  split at h
  swap
  · cases h
  obtain ⟨reason, _, h⟩ := result_bind_ok.mp h
  split at h
  swap
  · cases h
  obtain ⟨operations, hops, h⟩ := result_bind_ok.mp h
  obtain ⟨command, _, h⟩ := result_bind_ok.mp h
  split at h
  swap
  · cases h
  cases h
  intro op hop
  obtain ⟨_, _, hparse⟩ := of_mem_mapM_ok hops hop
  refine ⟨parseOperation_path hparse, fun hd => ?_⟩
  show (_ || operations.any _) = true
  rw [Bool.or_eq_true]
  exact Or.inr (List.any_eq_true.mpr ⟨op, hop, hd⟩)

theorem parseChangeRequest_plan {v : Value} {request : ChangeRequest}
    (h : parseChangeRequest v = .ok request) :
    ∃ plan, parseChangePlan plan = .ok request.changePlan := by
  unfold parseChangeRequest at h
  split at h
  swap
  · cases h
  split at h
  · cases h
  next plan _ =>
  obtain ⟨changePlan, hplan, h⟩ := result_bind_ok.mp h
  refine ⟨plan, ?_⟩
  -- whatever the diff is, the plan is the parsed one
  dsimp only at h
  split at h
  all_goals
    obtain ⟨patch, _, h⟩ := result_bind_ok.mp h
    split at h
    · cases h
    · cases h
      exact hplan

/-! ## Results -/

inductive Status where
  | validationFailed | denied | applyFailed | applied | verificationFailed
  | verified | appliedUnverified
  deriving DecidableEq, Repr

/-- `VerificationOutcome`, as far as a result depends on it. -/
structure VerificationOutcome where
  ran : Bool
  exitCode : Option Int
  deriving DecidableEq, Repr

def VerificationOutcome.passed (v : VerificationOutcome) : Bool := v.ran && v.exitCode == some 0

structure MutationResult where
  ok : Bool
  status : Status
  transactionId : Text := []
  reason : Text := []
  touchedFiles : List Text := []
  error : String := ""
  verification : Option VerificationOutcome := none
  rollbackAvailable : Bool := false

end Shamsu.Patch
