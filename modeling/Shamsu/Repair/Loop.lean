import Shamsu.Patch.Undoable
import Shamsu.Py.Decode
import Shamsu.Tools.Scope

/-!
# The repair loop

`shamsu/repair/loop.py` with `kinds.py` and `comparator.py`: verify, take one error, let the model
propose a patch of one file, verify again, and keep the patch or roll it back. The verifier with
its digest, the proposer, the files that an error leads to and the check of a plan against an
error are arguments; the transaction of an attempt is the one of `Shamsu.Patch`.
-/

namespace Shamsu.Repair

open Shamsu.Lib Shamsu.Py Shamsu.Safety Shamsu.Patch
open Shamsu.Tools (posix relativeTo)

/-! ## Errors -/

inductive ErrorKind where
  | syntaxError | typeError | importError | exportError | moduleNotFound | missingSymbol | jsxError
  | unknown
  deriving DecidableEq, Repr

def ErrorKind.value : ErrorKind → Text
  | .syntaxError => "SYNTAX_ERROR".toList
  | .typeError => "TYPE_ERROR".toList
  | .importError => "IMPORT_ERROR".toList
  | .exportError => "EXPORT_ERROR".toList
  | .moduleNotFound => "MODULE_NOT_FOUND".toList
  | .missingSymbol => "MISSING_SYMBOL".toList
  | .jsxError => "JSX_ERROR".toList
  | .unknown => "UNKNOWN".toList

/-- `KIND_PRIORITY`. -/
def ErrorKind.priority : ErrorKind → Nat
  | .syntaxError => 0
  | .importError | .moduleNotFound => 1
  | .exportError | .missingSymbol => 2
  | .jsxError | .typeError => 3
  | .unknown => 4

/-- `RepairError`; `implicitAny` is what its message says of that. -/
structure RepairError where
  kind : ErrorKind
  file : Text
  line : Option Int
  code : Text
  symbol : Text
  message : Text
  implicitAny : Bool
  deriving DecidableEq, Repr

namespace RepairError

def priority (e : RepairError) : Nat := if e.implicitAny then 5 else e.kind.priority

def signature (e : RepairError) : Text :=
  let line := match e.line with
    | none => "None".toList
    | some n => (toString n).toList
  join ':' [e.kind.value, e.code, e.file, line, e.symbol, strip e.message]

/-- The key of `select_primary_error` is smaller. -/
def comesBefore (a b : RepairError) : Bool :=
  let at_ (e : RepairError) : Nat × Nat × Int :=
    (e.priority, if e.file = [] then 1 else 0, e.line.getD 1000000)
  let (p, f, l) := at_ a
  let (q, g, m) := at_ b
  p < q || (p == q && (f < g || (f == g && l < m)))

end RepairError

/-- `select_primary_error`: the first of the smallest. -/
def selectPrimaryError : List RepairError → Option RepairError
  | [] => none
  | e :: es => some (es.foldl (fun best e => if e.comesBefore best then e else best) e)

/-- `ErrorPacket`, with its diagnostics as the loop reads them. -/
structure ErrorPacket where
  exitCode : Int
  rootDiagnostics : List RepairError
  secondaryDiagnostics : List RepairError
  deriving DecidableEq, Repr

/-- `repair_errors_from_packet`. -/
def ErrorPacket.errors (p : ErrorPacket) : List RepairError :=
  p.rootDiagnostics ++ p.secondaryDiagnostics

/-- The verifier exited clean and names no root error. -/
def ErrorPacket.passed (p : ErrorPacket) : Bool := p.exitCode == 0 && p.rootDiagnostics.isEmpty

/-! ## The comparison -/

inductive RepairOutcome where
  | solved | improved | advanced | unchanged | worse | different
  deriving DecidableEq, Repr

/-- `is_progress`. -/
def RepairOutcome.isProgress : RepairOutcome → Bool
  | .solved | .improved | .advanced => true
  | _ => false

/-- `_same_test_advanced`. -/
def sameTestAdvanced (lower : Text → Text) : List RepairError → List RepairError → Bool
  | [old], [new] =>
    let oldFile := lower (posixText old.file)
    let testFile := ["/test", ".test.", ".spec."].any fun part => (find part.toList oldFile).isSome
    let later := match old.line, new.line with
      | some n, some m => decide (n < m)
      | _, _ => false
    testFile && old.symbol != [] && old.symbol == new.symbol &&
      oldFile == lower (posixText new.file) && later
  | _, _ => false

/-- `ErrorComparator.compare`. -/
def compare (lower : Text → Text) (before after : List RepairError) (afterExitCode : Int) :
    RepairOutcome :=
  if afterExitCode = 0 ∧ after = [] then .solved
  else if before.length < after.length then .worse
  else if after.length < before.length then .improved
  else if (after.map RepairError.signature).isPerm (before.map RepairError.signature) then .unchanged
  else if sameTestAdvanced lower before after then .advanced
  else .different

/-! ## Plans -/

/-- `RepairPlan`. -/
structure RepairPlan where
  rootCause : Text
  targetFile : Text
  search : Text := []
  replacement : Text := []
  fullContent : Text := []
  deriving DecidableEq, Repr

namespace RepairPlan

def hasEdit (p : RepairPlan) : Bool := p.fullContent != [] || p.search != []

def payload (p : RepairPlan) : Text :=
  join '\x00' [p.targetFile, p.search, p.replacement, p.fullContent]

/-- The text that the plan makes of a file, if it applies to it. -/
def newContent (p : RepairPlan) (file : Option Bytes) : Option Text :=
  if p.fullContent ≠ [] then some p.fullContent
  else if p.search ≠ [] then
    match file with
    | none => none
    | some b =>
      let current := readReplace b
      if (find p.search current).isSome then some (replaceOne p.search p.replacement current)
      else none
  else none

end RepairPlan

/-- `_relative_path`: empty when it is outside the workspace. -/
def relativePath (root : Path) (file : Text) : Text :=
  let path := posixText file
  if '\x00' ∈ path ∨ ¬ root <+: locate root path then []
  else posix (relativeTo root (locate root path))

/-- The end of `FileApplier.apply`: the new content is written, if there is any. -/
def writeContent (targetFile : Text) (target : Path) : Option Text → Prog Exn World (List Text)
  | none => pure []
  | some content => do
    onDisk (mkdirP target.parent)
    onDisk (writeText target content)
    pure [targetFile]

/-- `FileApplier.apply`. -/
def applyPlan (root : Path) (plan : RepairPlan) : Prog Exn World (List Text) := do
  let target ← Prog.ofExcept (validate root plan.targetFile)
  let content ← Prog.gets fun w => plan.newContent (w.disk.content target)
  writeContent plan.targetFile target content

/-! ## The loop -/

/-- `PreviousAttempt`. -/
structure PreviousAttempt where
  filesChanged : List Text
  beforeSignature : Text
  afterSignature : Text
  outcome : RepairOutcome
  note : Text
  deriving DecidableEq, Repr

/-- `DebugContext`, with the files that were inspected in place of the snippets. -/
structure DebugContext where
  primaryError : RepairError
  inspected : List Text
  editableFiles : List Text
  previousAttempts : List PreviousAttempt
  deriving DecidableEq, Repr

/-- `RepairAttemptRecord`. The plan of the attempt is remembered with it. -/
structure RepairAttemptRecord where
  index : Nat
  plan : RepairPlan
  filesChanged : List Text
  beforeSignature : Text
  afterSignature : Text
  outcome : RepairOutcome
  kept : Bool
  deriving DecidableEq, Repr

inductive StoppedReason where
  | noRootError
  | noPlan
  | outside (file : Text)
  | uninspected (file : Text)
  | readOnly (file : Text)
  | repeated
  | notApplied
  | exhausted
  deriving DecidableEq, Repr

/-- The loop's arguments. The verifier, with the digest of its output, and the proposer answer as
they like each time. -/
structure RepairLoop where
  engine : Engine
  /-- The id and the time of a new transaction. -/
  newStamp : World → Stamp
  lower : Text → Text
  verify : Nat → FS → ErrorPacket
  propose : Nat → DebugContext → Option RepairPlan
  /-- `_files_to_inspect`. -/
  filesToInspect : FS → RepairError → List Text
  editableFiles : Option (List Text)
  /-- `_plan_relevance_error`, empty when there is none. -/
  relevanceError : RepairError → RepairPlan → Text
  /-- `_deterministic_unique_fixture_plan`: its root cause, what it searches for and what replaces
  that. -/
  deterministicPlan : FS → RepairError → Text → Option (Text × Text × Text)
  maxAttempts : Nat

/-- What the loop remembers from attempt to attempt. -/
structure LoopState where
  attempts : List RepairAttemptRecord := []
  history : List PreviousAttempt := []
  beforeErrors : List RepairError
  /-- The actions that did not help. -/
  failed : List Text := []
  /-- How many verifications there were. -/
  verifications : Nat
  deriving DecidableEq, Repr

/-- `_record`. -/
def LoopState.record (s : LoopState) (a : RepairAttemptRecord) : LoopState :=
  { s with attempts := s.attempts ++ [a] }

/-- An action that did not help is remembered. -/
def LoopState.recordFailure (s : LoopState) (action : Text) : LoopState :=
  { s with failed := action :: s.failed }

def LoopState.remember (s : LoopState) (p : PreviousAttempt) : LoopState :=
  { s with history := s.history ++ [p] }

/-- How an attempt ends. -/
inductive Ending where
  | continues
  | solved
  | stops (reason : StoppedReason)
  deriving DecidableEq, Repr

/-- What an attempt comes to. -/
inductive Decision where
  | stop (reason : StoppedReason)
  | reject (primary : RepairError) (plan : RepairPlan) (error : Text)
  | apply (primary : RepairError) (plan : RepairPlan)
  deriving DecidableEq, Repr

/-- `RepairResult`. -/
structure RepairResult where
  success : Bool
  exitCode : Int
  attempts : List RepairAttemptRecord
  remainingErrors : List RepairError
  stoppedReason : Option StoppedReason
  verifications : Nat
  deriving DecidableEq, Repr

namespace RepairLoop

variable (r : RepairLoop)

/-- `_read_window`: the file, if it can be read. -/
def readWindow (d : FS) (file : Text) : Option Text :=
  let path := locate r.engine.root file
  if '\x00' ∉ file ∧ r.engine.root <+: path ∧ d.isFile path = true then
    some (posix (relativeTo r.engine.root path))
  else none

/-- `_build_context`. -/
def buildContext (d : FS) (primary : RepairError) (history : List PreviousAttempt) :
    DebugContext :=
  let inspected := ((r.filesToInspect d primary).filterMap (r.readWindow d)).dedup
  let editable := match r.editableFiles with
    | none => inspected
    | some files =>
      let files := (files.map (relativePath r.engine.root)).filter fun file => file ≠ []
      inspected.filter fun file => files.contains file
  { primaryError := primary, inspected, editableFiles := editable, previousAttempts := history }

/-- `_packet_signature`. -/
def packetSignature (p : ErrorPacket) : Text :=
  match selectPrimaryError p.errors with
  | some primary => primary.signature
  | none => "exit=".toList ++ (toString p.exitCode).toList

/-- `_failed_plan_note`, not shortened. -/
def failedPlanNote (plan : RepairPlan) : Text :=
  if plan.search ≠ [] then
    "rolled back search ".toList ++ plan.search ++ " -> ".toList ++ plan.replacement
  else "rolled back full_content rewrite for ".toList ++ plan.targetFile

/-- `action_signature`. -/
def actionSignature (plan : RepairPlan) : Text :=
  r.engine.sha256 (encodeUtf8 (posixText plan.targetFile ++ '\x00' :: plan.payload))

/-- A plan is applied in a transaction of its own, verified, and kept or rolled back. -/
def applyAttempt (index : Nat) (primary : RepairError) (plan : RepairPlan) (s : LoopState) :
    Prog Exn World (Ending × LoopState) :=
  let action := r.actionSignature plan
  if s.failed.contains action then pure (.stops .repeated, s)
  else do
    let before := primary.signature
    let stamp ← Prog.gets r.newStamp
    beginTransaction r.engine stamp
      ("RepairLoop attempt ".toList ++ (toString index).toList ++ ": ".toList ++
        plan.rootCause.take 120)
      [{ op := .editFile, path := plan.targetFile, destPath := [], reason := [], content := [] }]
      false
    snapshot r.engine stamp.id plan.targetFile
    let changed ← applyPlan r.engine.root plan
    if changed = [] then do
      let _ ← rollbackTransaction r.engine stamp.id
      pure (.stops .notApplied,
        (s.record ⟨index, plan, [], before, before, .unchanged, false⟩).recordFailure action)
    else do
      Prog.forEach changed (recordAfter r.engine stamp.id)
      let packet ← Prog.gets fun w => r.verify s.verifications w.disk
      let outcome := compare r.lower s.beforeErrors packet.errors packet.exitCode
      let after := packetSignature packet
      let s := { s with verifications := s.verifications + 1 }.record
        ⟨index, plan, changed, before, after, outcome, outcome.isProgress⟩
      if outcome.isProgress then do
        saveVerification stamp.id { ran := true, exitCode := some packet.exitCode }
        let _ ← finalize stamp.id .applied ""
        let s := { s with failed := s.failed.filter fun failed => failed ≠ action }
        if outcome = .solved then pure (.solved, s)
        else pure (.continues, { s with beforeErrors := packet.errors })
      else do
        let _ ← rollbackTransaction r.engine stamp.id
        pure (.continues, (s.recordFailure action).remember
          ⟨changed, before, after, outcome, failedPlanNote plan⟩)

/-- What is to be done next: the checks of an attempt, before anything is applied. -/
def decision (d : FS) (index : Nat) (s : LoopState) : Decision :=
  match selectPrimaryError s.beforeErrors with
  | none => .stop .noRootError
  | some primary =>
    let context := r.buildContext d primary s.history
    match r.propose index context with
    | none => .stop .noPlan
    | some plan =>
      let target := relativePath r.engine.root plan.targetFile
      if plan.hasEdit = false then .stop .noPlan
      else if target = [] then .stop (.outside plan.targetFile)
      else if target ∉ context.inspected then .stop (.uninspected target)
      else if target ∉ context.editableFiles then .stop (.readOnly target)
      else
        let plan := { plan with targetFile := target }
        let error := r.relevanceError primary plan
        if error = [] then .apply primary plan
        else
          match r.deterministicPlan d primary target with
          | some (rootCause, search, replacement) =>
            .apply primary { rootCause, targetFile := target, search, replacement }
          | none => .reject primary plan error

/-- It is done. A rejected plan is recorded and not applied. -/
def carryOut (index : Nat) (s : LoopState) : Decision → Prog Exn World (Ending × LoopState)
  | .stop reason => pure (.stops reason, s)
  | .reject primary plan error =>
    let before := primary.signature
    pure (.continues, (s.record ⟨index, plan, [], before, before, .unchanged, false⟩).remember
      ⟨[], before, before, .unchanged, error⟩)
  | .apply primary plan => r.applyAttempt index primary plan s

/-- One attempt. -/
def attempt (index : Nat) (s : LoopState) : Prog Exn World (Ending × LoopState) := do
  let decision ← Prog.gets fun w => r.decision w.disk index s
  r.carryOut index s decision

/-- The attempts, as many as there are left. -/
def attempts : Nat → Nat → LoopState → Prog Exn World (Ending × LoopState)
  | 0, _, s => pure (.stops .exhausted, s)
  | left + 1, index, s => do
    let (ending, s) ← r.attempt index s
    if ending = .continues then attempts left (index + 1) s else pure (ending, s)

/-- The last verification, unless the last attempt has solved it. -/
def report (s : LoopState) : Ending → Prog Exn World RepairResult
  | .stops reason => do
    let final ← Prog.gets fun w => r.verify s.verifications w.disk
    pure { success := final.passed, exitCode := final.exitCode, attempts := s.attempts
           remainingErrors := final.errors, stoppedReason := some reason
           verifications := s.verifications + 1 }
  | _ =>
    pure { success := true, exitCode := 0, attempts := s.attempts, remainingErrors := []
           stoppedReason := none, verifications := s.verifications }

/-- `RepairLoop.run`. -/
def run : Prog Exn World RepairResult := do
  let before ← Prog.gets fun w => r.verify 0 w.disk
  if before.passed then
    pure { success := true, exitCode := 0, attempts := [], remainingErrors := []
           stoppedReason := none, verifications := 1 }
  else do
    let (ending, s) ←
      r.attempts r.maxAttempts 1 { beforeErrors := before.errors, verifications := 1 }
    r.report s ending

end RepairLoop

end Shamsu.Repair
