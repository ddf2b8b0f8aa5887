import Shamsu.Patch.Transactions

/-!
# File mutations and their rollback

`shamsu/patch/file_mutations.py`, `shamsu/patch/trash.py` and
`shamsu/patch/rollback.py`: the operations that are not diffs, each between a
snapshot of what it touches and a note of what it left, and the rollback that
puts every touched path of a transaction back from its manifest.
-/

namespace Shamsu.Patch

open Shamsu.Lib Shamsu.Py Shamsu.Safety

structure MutationOutcome where
  ok : Bool
  op : OperationKind
  path : Text
  destPath : Text := []
  error : String := ""

/-- `try: ... except MutationSafetyError as exc: return MutationOutcome(False, ...)`
around the path checks. -/
def withTargets (targets : Except Exn α) (refusal : String → MutationOutcome)
    (body : α → Prog Exn World MutationOutcome) : Prog Exn World MutationOutcome :=
  match targets with
  | .ok a => body a
  | .error e => if e.kind = .mutationSafety then pure (refusal e.message) else Prog.raise e

/-- `create_file`. -/
def createFile (engine : Engine) (id relativePath content : Text) :
    Prog Exn World MutationOutcome :=
  let refusal error : MutationOutcome :=
    { ok := false, op := .createFile, path := relativePath, error }
  withTargets (validateMutationPath engine.root relativePath) refusal fun target => do
    if ← Prog.gets fun w => w.disk.present target then
      pure (refusal ("Refusing to overwrite existing file (use edit_file/apply_patch): "
        ++ str relativePath))
    else do
      snapshot engine id relativePath
      onDisk (mkdirP target.parent)
      onDisk (writeText target content)
      recordAfter engine id relativePath
      pure { ok := true, op := .createFile, path := relativePath }

/-- `edit_file`. -/
def editFile (engine : Engine) (id relativePath newContent : Text) :
    Prog Exn World MutationOutcome :=
  let refusal error : MutationOutcome :=
    { ok := false, op := .editFile, path := relativePath, error }
  withTargets (validateMutationPath engine.root relativePath) refusal fun target => do
    if ← Prog.gets fun w => w.disk.isFile target then
      snapshot engine id relativePath
      onDisk (writeText target newContent)
      recordAfter engine id relativePath
      pure { ok := true, op := .editFile, path := relativePath }
    else pure (refusal s!"Cannot edit missing file: {str relativePath}")

/-- `create_directory`. -/
def createDirectory (engine : Engine) (id relativePath : Text) :
    Prog Exn World MutationOutcome :=
  let refusal error : MutationOutcome :=
    { ok := false, op := .createDirectory, path := relativePath, error }
  withTargets (validateMutationPath engine.root relativePath) refusal fun target => do
    snapshot engine id relativePath
    onDisk (mkdirP target)
    recordAfter engine id relativePath
    pure { ok := true, op := .createDirectory, path := relativePath }

/-- `move_to_trash`. -/
def moveToTrash (engine : Engine) (id : Text) (target : Path) (relativePath : Text) :
    Prog Exn World Unit := do
  let destination := trashPath engine.root id relativePath
  if engine.root <+: destination then
    onDisk (mkdirP destination.parent)
    onDisk (move target destination)
  else Prog.raise ⟨.security,
    s!"Access denied: {str destination.text} is outside workspace {str engine.root.text}"⟩

/-- `delete_file`. -/
def deleteFile (engine : Engine) (id relativePath : Text) : Prog Exn World MutationOutcome :=
  let refusal error : MutationOutcome :=
    { ok := false, op := .deleteFile, path := relativePath, error }
  withTargets (validateMutationPath engine.root relativePath) refusal fun target => do
    if ← Prog.gets fun w => w.disk.present target then
      snapshot engine id relativePath
      moveToTrash engine id target relativePath
      recordAfter engine id relativePath
      pure { ok := true, op := .deleteFile, path := relativePath }
    else pure (refusal s!"Cannot delete missing path: {str relativePath}")

/-- `_relocate` past its checks. -/
def relocateTo (engine : Engine) (id relativePath destPath : Text) (source destination : Path) :
    Prog Exn World Unit := do
  snapshot engine id relativePath
  snapshot engine id destPath
  onDisk (mkdirP destination.parent)
  onDisk (move source destination)
  recordAfter engine id relativePath
  recordAfter engine id destPath

/-- `_relocate`, for `rename_file` and `move_file`. -/
def relocate (engine : Engine) (id : Text) (op : OperationKind) (relativePath destPath : Text) :
    Prog Exn World MutationOutcome :=
  let refusal error : MutationOutcome :=
    { ok := false, op, path := relativePath, destPath, error }
  let targets := do
    let source ← validateMutationPath engine.root relativePath
    let destination ← validateMutationPath engine.root destPath
    .ok (source, destination)
  withTargets targets refusal fun (source, destination) => do
    if ← Prog.gets fun w => !w.disk.present source then
      pure (refusal s!"Source does not exist: {str relativePath}")
    else if ← Prog.gets fun w => w.disk.present destination then
      pure (refusal s!"Refusing to overwrite existing destination: {str destPath}")
    else do
      relocateTo engine id relativePath destPath source destination
      pure { ok := true, op, path := relativePath, destPath }

/-- `PatchEngine._run_file_operation`. -/
def runFileOperation (engine : Engine) (id : Text) (op : Operation) :
    Prog Exn World MutationOutcome :=
  match op.op with
  | .createFile => createFile engine id op.path op.content
  | .editFile => editFile engine id op.path op.content
  | .renameFile => relocate engine id .renameFile op.path op.destPath
  | .moveFile => relocate engine id .moveFile op.path op.destPath
  | .deleteFile => deleteFile engine id op.path
  | .createDirectory => createDirectory engine id op.path
  | .applyPatch => Prog.raise ⟨.diffValidation, "Unsupported operation: apply_patch"⟩

/-! ## Rollback -/

/-- `max(candidates, key=lambda item: (item[0], item[1]))`, on the time and the id. -/
def laterOf (a b : Manifest) : Manifest :=
  if a.createdAt < b.createdAt ∨ (a.createdAt = b.createdAt ∧ a.transactionId < b.transactionId)
  then b else a

/-- `latest_undoable_transaction`. -/
def latestUndoable (w : World) : Option Manifest :=
  match w.transactions.filter fun m => m.status ≠ .rolledBack with
  | [] => none
  | m :: ms => some (ms.foldl laterOf m)

/-- A path that was not there before: a create, or where a rename went. A
directory goes when it is empty and stays when it is not. -/
def removeNew (target : Path) : FSProg Unit := fun d =>
  if d.isFile target then unlink target d
  else if d.canRmdir target then rmdir target d
  else (.ok (), d)

/-- A path that was there before. -/
def copyBack (backup target : Path) : FSProg Unit := do
  mkdirP target.parent
  copy2 backup target

/-- One touched path put back: `none` to go on, a message to stop. -/
def rollbackFile (engine : Engine) (m : Manifest) (relativePath : Text) :
    Prog Exn World (Option String) :=
  match validate engine.root relativePath with
  | .error e =>
    if e.kind = .security then
      pure (some s!"Rollback aborted, unsafe path recorded in manifest: {e.message}")
    else Prog.raise e
  | .ok target =>
    if (m.beforeHashes.lookup relativePath).join.isNone then do
      onDisk (removeNew target)
      pure none
    else
      match m.backups.lookup relativePath with
      | none => pure (some s!"Rollback aborted: no backup recorded for {str relativePath}.")
      | some backup => do
        if ← Prog.gets fun w => w.disk.present backup then
          onDisk (copyBack backup target)
          pure none
        else pure (some s!"Rollback aborted: backup file missing for {str relativePath}.")

/-- The loop over `touched_files`. -/
def rollbackFiles (engine : Engine) (m : Manifest) : List Text → Prog Exn World (Option String)
  | [] => pure none
  | relativePath :: rest => do
    match ← rollbackFile engine m relativePath with
    | some message => pure (some message)
    | none => rollbackFiles engine m rest

/-- `rollback_transaction`. -/
def rollbackTransaction (engine : Engine) (id : Text) : Prog Exn World (Bool × String) := do
  match ← Prog.gets fun w => findManifest w id with
  | none => pure (false, s!"Unknown transaction: {str id}")
  | some m =>
    if m.status = .rolledBack then
      pure (false, s!"Transaction {str id} was already rolled back.")
    else do
      match ← rollbackFiles engine m m.touchedFiles with
      | some message => pure (false, message)
      | none => do
        let _ ← finalize id .rolledBack ""
        pure (true, s!"Restored {m.touchedFiles.length} file(s) from transaction {str id}.")

end Shamsu.Patch
