import Shamsu.Patch.Legacy
import Shamsu.Patch.Mutations

/-!
# Executing a change request

`PatchEngine.execute_change_request`: parse and check the request, ask, then run
it in a transaction: first the diff (`_apply_patch_with_transaction`), then the
operations the diff did not already do, in order. An exception of the caught
classes ends the transaction as failed; nothing is rolled back on the way.

The steps are programs of the world, so what a failed request leaves behind is
the world of the step that raised.
-/

namespace Shamsu.Patch

open Shamsu.Lib Shamsu.Py Shamsu.Safety

/-! ## The diff -/

def createPatchedTx (engine : Engine) (id : Text) (patch : FilePatch) (newTarget : Path) :
    Prog Exn World Unit := do
  Prog.ensure (fun w => !w.disk.present newTarget)
    (diffError s!"Cannot create existing file: {str newTarget.text}")
  snapshot engine id patch.newPath
  let newLines ← Prog.ofExcept (applyHunks [] patch.hunks)
  onDisk (mkdirP newTarget.parent)
  onDisk (writeLines newTarget newLines)
  recordAfter engine id patch.newPath

/-- Snapshot the file and compute its new lines. -/
def patchedLinesTx (engine : Engine) (id : Text) (patch : FilePatch) (oldTarget : Path) :
    Prog Exn World (List Text) := do
  Prog.ensure (fun w => w.disk.isFile oldTarget)
    (diffError s!"Patch target does not exist: {str oldTarget.text}")
  snapshot engine id patch.oldPath
  let original ← onDisk (readText oldTarget)
  Prog.ofExcept (applyHunks (splitlines original) patch.hunks)

/-- The part that writes an edited file, at another path when the patch renames it. -/
def writePatchedTx (engine : Engine) (id : Text) (patch : FilePatch) (oldTarget newTarget : Path)
    (newLines : List Text) : Prog Exn World Unit :=
  if oldTarget = newTarget then do
    onDisk (writeLines newTarget newLines)
    recordAfter engine id patch.oldPath
  else do
    snapshot engine id patch.newPath
    onDisk (mkdirP newTarget.parent)
    onDisk (unlink oldTarget)
    onDisk (writeLines newTarget newLines)
    recordAfter engine id patch.oldPath
    recordAfter engine id patch.newPath

/-- One file patch of `_apply_patch_with_transaction`: the path it reports. -/
def applyFilePatchTx (engine : Engine) (id : Text) (patch : FilePatch) :
    Prog Exn World Text := do
  let oldTarget ← Prog.ofExcept (patchTarget engine.root patch.oldPath)
  let newTarget ← Prog.ofExcept (patchTarget engine.root patch.newPath)
  match oldTarget, newTarget with
  | none, none => Prog.raise (diffError "Create patch is missing target path.")
  | none, some newTarget => do
    createPatchedTx engine id patch newTarget
    pure patch.newPath
  | some oldTarget, none => do
    let _ ← patchedLinesTx engine id patch oldTarget
    onDisk (unlink oldTarget)
    recordAfter engine id patch.oldPath
    pure patch.oldPath
  | some oldTarget, some newTarget => do
    let newLines ← patchedLinesTx engine id patch oldTarget
    writePatchedTx engine id patch oldTarget newTarget newLines
    pure patch.displayPath

/-- The loop of `_apply_patch_with_transaction`. -/
def applyFilePatchesTx (engine : Engine) (id : Text) :
    List FilePatch → Prog Exn World (List Text)
  | [] => pure []
  | patch :: patches => do
    let touched ← applyFilePatchTx engine id patch
    let rest ← applyFilePatchesTx engine id patches
    pure (touched :: rest)

/-! ## The operations -/

/-- The checks before anything is applied. -/
def checkOperations (diffPaths : List Text) : List Operation → Except Exn Unit
  | [] => .ok ()
  | op :: ops =>
    if op.op = .applyPatch ∧ op.path ∉ diffPaths then
      .error (diffError (s!"apply_patch operation declares path {str op.path} but the supplied "
        ++ "patch has no hunk for it."))
    else if op.op = .editFile ∧ op.path ∉ diffPaths ∧ isBlank op.content then
      .error (diffError (s!"edit_file for {str op.path} needs either inline 'content' or a "
        ++ "matching patch hunk."))
    else checkOperations diffPaths ops

/-- The diff has done this operation. -/
def isDoneByDiff (diffPaths : List Text) (op : Operation) : Bool :=
  op.op = .applyPatch || ((op.op = .createFile || op.op = .editFile) && op.path ∈ diffPaths)

/-- The loop over the operations: the paths it reports. -/
def runOperations (engine : Engine) (id : Text) (diffPaths : List Text) :
    List Operation → Prog Exn World (List Text)
  | [] => pure []
  | op :: ops =>
    if isDoneByDiff diffPaths op then runOperations engine id diffPaths ops
    else do
      let outcome ← runFileOperation engine id op
      if outcome.ok then do
        let rest ← runOperations engine id diffPaths ops
        pure (outcome.path :: (if outcome.destPath = [] then rest else outcome.destPath :: rest))
      else Prog.raise (diffError outcome.error)

/-! ## The request -/

/-- The file patches of the diff; none when there is no diff. -/
def requestPatches (engine : Engine) (patchText : Text) : Except Exn (List FilePatch) :=
  if isBlank patchText then .ok [] else parseFilePatches engine.root patchText

/-- What runs inside the transaction: the touched paths. -/
def applyRequest (engine : Engine) (id : Text) (plan : ChangePlan) (patchText : Text) :
    Prog Exn World (List Text) := do
  let patches ← Prog.ofExcept (requestPatches engine patchText)
  let diffPaths := patches.map FilePatch.displayPath
  Prog.ofExcept (checkOperations diffPaths plan.operations)
  let patched ← applyFilePatchesTx engine id patches
  let touched ← runOperations engine id diffPaths plan.operations
  pure (patched ++ touched)

/-- `except (DiffValidationError, MutationSafetyError, OSError)`. -/
def isCaught (e : Exn) : Bool :=
  e.kind = .diffValidation || e.kind = .mutationSafety || e.kind.isOSError

/-- `_build_change_plan_approval`. -/
def changePlanApproval (plan : ChangePlan) : ApprovalRequest where
  actionType := if plan.destructive then .fileDelete else .fileEdit
  targetPaths := plan.touchedPaths

/-- The checks of the request that need no approval: the touched paths, the diff,
and git's opinion of it. A message is a refusal. -/
def checkRequest (engine : Engine) (plan : ChangePlan) (patchText : Text) :
    Prog Exn World (Option String) :=
  match plan.touchedPaths.mapM (validateMutationPath engine.root) with
  | .error e => if e.kind = .mutationSafety then pure (some e.message) else Prog.raise e
  | .ok _ =>
    if isBlank patchText then pure none
    else
      match parseFilePatches engine.root (engine.sanitize patchText) with
      | .error e =>
        if e.kind = .diffValidation then pure (some s!"Invalid diff: {e.message}")
        else Prog.raise e
      | .ok _ => Prog.gets fun w =>
        (engine.gitCheck patchText w.disk).map fun message =>
          s!"git apply --check rejected the patch: {message}"

/-- The verification command, when there is one. -/
def runVerification (engine : Engine) (command : Text) : Prog Exn World VerificationOutcome :=
  if isBlank command then pure { ran := false, exitCode := none }
  else onDisk fun d =>
    let (outcome, d) := engine.verify command d
    (.ok outcome, d)

/-- The transaction's last steps: formatter, verification, status. -/
def concludeRequest (engine : Engine) (id : Text) (plan : ChangePlan) (touched : List Text) :
    Prog Exn World MutationResult := do
  onDisk (Prog.modify fun d => engine.format touched d)
  let verification ← runVerification engine plan.verificationCommand
  saveVerification id verification
  let ok := isBlank plan.verificationCommand || verification.passed
  let m ← finalize id (if ok then .applied else .verificationFailed)
    (if ok then "" else "Verification failed.")
  pure {
    ok
    status :=
      if ok then if verification.ran then .verified else .appliedUnverified
      else .verificationFailed
    transactionId := id, reason := plan.reason, touchedFiles := m.touchedFiles
    error := if ok then "" else "Verification command exited non-zero; change was applied but "
        ++ "is not reported as successful."
    verification := some verification, rollbackAvailable := true }

/-- The transaction: apply, and conclude or note the failure. -/
def runRequest (engine : Engine) (id : Text) (plan : ChangePlan) (patchText : Text) :
    Prog Exn World MutationResult := fun w =>
  match applyRequest engine id plan patchText w with
  | (.ok touched, w') => concludeRequest engine id plan touched w'
  | (.error e, w') =>
    if isCaught e then
      (do
        let error := s!"{str plan.reason}: {e.kind.className}: {e.message}"
        let m ← finalize id .failed error
        pure {
          ok := false, status := .applyFailed, transactionId := id, reason := plan.reason
          touchedFiles := m.touchedFiles, error, rollbackAvailable := true } :
        Prog Exn World MutationResult) w'
    else (.error e, w')

/-- `execute_change_request`, after the request is parsed. -/
def executeParsed (engine : Engine) (stamp : Stamp) (request : ChangeRequest) :
    Prog Exn World MutationResult := do
  let plan := request.changePlan
  let patchText := engine.sanitize request.patch
  match ← checkRequest engine plan patchText with
  | some error => pure { ok := false, status := .validationFailed, error }
  | none => do
    if ← askApproval engine (changePlanApproval plan) then
      beginTransaction engine stamp plan.reason plan.operations plan.destructive
      runRequest engine stamp.id plan patchText
    else pure { ok := false, status := .denied, error := "Change request denied by user." }

/-- `PatchEngine.execute_change_request`. -/
def executeChangeRequest (engine : Engine) (stamp : Stamp) (payload : Value) :
    Prog Exn World MutationResult :=
  match parseChangeRequest payload with
  | .ok request => executeParsed engine stamp request
  | .error e =>
    pure {
      ok := false, status := .validationFailed
      error := s!"Rejected change request: {e.message}" }

/-! ## The ways an execution goes -/

section Cases

variable {engine : Engine} {stamp : Stamp} {w w' : World}

/-- The checks of a request change nothing; past them every touched path is a
mutation path. -/
theorem checkRequest_cases {plan : ChangePlan} {patchText : Text} {w w' : World}
    {r : Except Exn (Option String)} (hrun : checkRequest engine plan patchText w = (r, w')) :
    w' = w ∧ ∀ error, r = .ok error → error = none →
      (∀ path ∈ plan.touchedPaths, ∃ t, validateMutationPath engine.root path = .ok t) ∧
      (isBlank patchText = false →
        ∃ patches, parseFilePatches engine.root (engine.sanitize patchText) = .ok patches) := by
  unfold checkRequest at hrun
  cases hpaths : plan.touchedPaths.mapM (validateMutationPath engine.root) with
  | error e =>
    simp only [hpaths] at hrun
    split at hrun
    · cases hrun; exact ⟨rfl, fun _ h hn => by cases h; cases hn⟩
    · cases hrun; exact ⟨rfl, fun _ h => by cases h⟩
  | ok targets =>
    have hall : ∀ path ∈ plan.touchedPaths, ∃ t, validateMutationPath engine.root path = .ok t :=
      fun path hp => (mapM_ok_of_mem hpaths hp).imp fun _ h => h.2
    simp only [hpaths] at hrun
    split at hrun
    next hb =>
      cases hrun
      exact ⟨rfl, fun _ _ _ => ⟨hall, fun h => by rw [hb] at h; cases h⟩⟩
    next hb =>
      cases hparse : parseFilePatches engine.root (engine.sanitize patchText) with
      | error e =>
        simp only [hparse] at hrun
        split at hrun
        · cases hrun; exact ⟨rfl, fun _ h hn => by cases h; cases hn⟩
        · cases hrun; exact ⟨rfl, fun _ h => by cases h⟩
      | ok patches =>
        simp only [hparse, Prog.gets_apply] at hrun
        cases hrun
        exact ⟨rfl, fun _ _ _ => ⟨hall, fun _ => ⟨patches, rfl⟩⟩⟩

/-- What happens once the request is approved. -/
structure Approved (engine : Engine) (stamp : Stamp) (request : ChangeRequest) (w : World)
    (r : Except Exn MutationResult) (w' w₁ w₂ : World) : Prop where
  checked : ∀ path ∈ request.changePlan.touchedPaths,
    ∃ t, validateMutationPath engine.root path = .ok t
  asked : askApproval engine (changePlanApproval request.changePlan) w = (.ok true, w₁)
  begun : beginTransaction engine stamp request.changePlan.reason request.changePlan.operations
    request.changePlan.destructive w₁ = (.ok (), w₂)
  ran : runRequest engine stamp.id request.changePlan (engine.sanitize request.patch) w₂ = (r, w')

/-- The outcome of a request that is refused. -/
def IsRefusal (r : Except Exn MutationResult) : Prop :=
  ∀ result, r = .ok result → result.status = .validationFailed ∨ result.status = .denied

/-- A request is refused and nothing changes, or it is approved and runs. -/
theorem executeParsed_cases {request : ChangeRequest} {r : Except Exn MutationResult}
    (hrun : executeParsed engine stamp request w = (r, w')) :
    (w'.disk = w.disk ∧ w'.transactions = w.transactions ∧ IsRefusal r) ∨
    ∃ w₁ w₂, Approved engine stamp request w r w' w₁ w₂ := by
  rcases Prog.bind_cases hrun with ⟨e, hcheck, rfl⟩ | ⟨error, w₀, hcheck, hrun⟩
  · rw [(checkRequest_cases hcheck).1]
    exact Or.inl ⟨rfl, rfl, fun _ h => by cases h⟩
  obtain ⟨rfl, hpassed⟩ := checkRequest_cases hcheck
  cases error with
  | some error => cases hrun; exact Or.inl ⟨rfl, rfl, fun _ h => by cases h; exact Or.inl rfl⟩
  | none =>
    rcases Prog.bind_cases hrun with ⟨e, hask, rfl⟩ | ⟨approved, w₁, hask, hrun⟩
    · exact Or.inl ⟨(askApproval_world hask).1, (askApproval_world hask).2, fun _ h => by cases h⟩
    cases approved with
    | false =>
      cases hrun
      exact Or.inl ⟨(askApproval_world hask).1, (askApproval_world hask).2,
        fun _ h => by cases h; exact Or.inr rfl⟩
    | true =>
      rcases Prog.bind_cases hrun with ⟨e, hbegin, rfl⟩ | ⟨_, w₂, hbegin, hrun⟩
      · obtain ⟨hdisk, hts⟩ := beginTransaction_error hbegin
        refine Or.inl ⟨?_, ?_, fun _ h => by cases h⟩
        · rw [hdisk, (askApproval_world hask).1]
        · rw [hts, (askApproval_world hask).2]
      · exact Or.inr ⟨w₁, w₂, (hpassed _ rfl rfl).1, hask, hbegin, hrun⟩

theorem executeChangeRequest_cases {payload : Value} {r : Except Exn MutationResult}
    (hrun : executeChangeRequest engine stamp payload w = (r, w')) :
    (w'.disk = w.disk ∧ w'.transactions = w.transactions ∧ IsRefusal r) ∨
    ∃ request w₁ w₂, parseChangeRequest payload = .ok request ∧
      Approved engine stamp request w r w' w₁ w₂ := by
  unfold executeChangeRequest at hrun
  cases hparse : parseChangeRequest payload with
  | error e =>
    simp only [hparse] at hrun
    cases hrun
    exact Or.inl ⟨rfl, rfl, fun _ h => by cases h; exact Or.inl rfl⟩
  | ok request =>
    simp only [hparse] at hrun
    rcases executeParsed_cases hrun with h | ⟨w₁, w₂, h⟩
    · exact Or.inl h
    · exact Or.inr ⟨request, w₁, w₂, rfl, h⟩

end Cases

end Shamsu.Patch
