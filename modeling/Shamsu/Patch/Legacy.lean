import Shamsu.Patch.Diff
import Shamsu.Patch.Transactions

/-!
# Applying a diff with `.bak` copies

`PatchEngine.apply_result`: parse, ask, then apply the file patches one after
the other. A file about to be changed is copied to `<path>.bak` once; when a
patch fails the copies are moved back, newest first, and the files the call
created are removed.

`Applying` is the state of that loop. The source keeps `backups` and
`created_files` in local variables that the `except` branch reads, so they are
part of the state that survives an exception. `backups` is the dictionary's
keys in insertion order: the value of a key is always its `backupPath`.
-/

namespace Shamsu.Patch

open Shamsu.Lib Shamsu.Py Shamsu.Safety

structure Applying where
  disk : FS
  backups : List Path
  created : List Path

def Applying.diskPart : Prog.Part Applying FS where
  get := Applying.disk
  set d s := { s with disk := d }
  get_set _ _ := rfl
  set_get _ := rfl

abbrev ApplyProg (α : Type) := Prog Exn Applying α

/-- A file operation, in the loop. -/
def onFiles {α : Type} (x : FSProg α) : ApplyProg α := x.zoom Applying.diskPart

/-- `_backup_path`. -/
def backupPath (target : Path) : Path := target.addSuffix ".bak".toList

/-- `backups[target] = backup`. -/
def noted (backups : List Path) (target : Path) : List Path :=
  if target ∈ backups then backups else backups ++ [target]

/-- `_backup_file`. -/
def backupFile (target : Path) : ApplyProg Unit :=
  Prog.whenever (fun s => target ∉ s.backups) do
    Prog.whenever (fun s => s.disk.present target) (onFiles (copy2 target (backupPath target)))
    Prog.modify fun s => { s with backups := noted s.backups target }

/-- The target of one side of a file patch; `/dev/null` has none. -/
def patchTarget (root : Path) (path : Text) : Except Exn (Option Path) :=
  if path = devNull then .ok none else (validate root path).map some

def createPatched (target : Path) (hunks : List HunkPatch) : ApplyProg Unit := do
  Prog.ensure (fun s => !s.disk.present target)
    (diffError s!"Cannot create existing file: {str target.text}")
  let newLines ← Prog.ofExcept (applyHunks [] hunks)
  onFiles (mkdirP target.parent)
  onFiles (writeLines target newLines)
  Prog.modify fun s => { s with created := s.created ++ [target] }

/-- Back the file up and compute its new lines. -/
def patchedLines (target : Path) (hunks : List HunkPatch) : ApplyProg (List Text) := do
  Prog.ensure (fun s => s.disk.isFile target)
    (diffError s!"Patch target does not exist: {str target.text}")
  backupFile target
  let original ← onFiles (readText target)
  Prog.ofExcept (applyHunks (splitlines original) hunks)

/-- The part of `_apply_file_patch` that writes an edited file, at another path
when the patch renames it. -/
def writePatched (oldTarget newTarget : Path) (newLines : List Text) : ApplyProg Unit :=
  if oldTarget = newTarget then onFiles (writeLines newTarget newLines)
  else do
    backupFile newTarget
    onFiles (mkdirP newTarget.parent)
    onFiles (unlink oldTarget)
    onFiles (writeLines newTarget newLines)

/-- `_apply_file_patch`. -/
def applyFilePatch (root : Path) (patch : FilePatch) : ApplyProg Unit := do
  let oldTarget ← Prog.ofExcept (patchTarget root patch.oldPath)
  let newTarget ← Prog.ofExcept (patchTarget root patch.newPath)
  match oldTarget, newTarget with
  | none, none => Prog.raise (diffError "Create patch is missing target path.")
  | none, some newTarget => createPatched newTarget patch.hunks
  | some oldTarget, none => do
    let _ ← patchedLines oldTarget patch.hunks
    onFiles (unlink oldTarget)
  | some oldTarget, some newTarget => do
    let newLines ← patchedLines oldTarget patch.hunks
    writePatched oldTarget newTarget newLines

/-- `_restore_backups`. -/
def restoreBackups (backups : List Path) : FSProg Unit :=
  Prog.forEach backups.reverse fun target =>
    Prog.whenever (fun d => d.present (backupPath target)) do
      mkdirP target.parent
      move (backupPath target) target

/-- The files the call created go. -/
def removeCreated (created : List Path) : FSProg Unit :=
  Prog.forEach created fun target =>
    Prog.whenever (fun d => d.present target) (unlink target)

/-- The loop and its `except` branch: the exception, if there was one, and
whether a copy was made. -/
def applyPatches (root : Path) (patches : List FilePatch) : FSProg (Option Exn × Bool) :=
  fun d =>
    match Prog.forEach patches (applyFilePatch root) ⟨d, [], []⟩ with
    | (.ok (), s) => (.ok (none, !s.backups.isEmpty), s.disk)
    | (.error e, s) =>
      (do restoreBackups s.backups
          removeCreated s.created
          pure (some e, !s.backups.isEmpty) : FSProg _) s.disk

/-- The approval of `apply_result`. -/
def applyApproval (patches : List FilePatch) : ApprovalRequest where
  actionType := if patches.any FilePatch.isDelete then .fileDelete else .fileEdit
  targetPaths := patchPaths patches

/-- `self.approval_manager.ask(request)`. -/
def askApproval (engine : Engine) (request : ApprovalRequest) : Prog Exn World Bool := fun w =>
  let (approved, memory) := ask engine.prompts w.memory request
  (.ok approved, { w with memory })

/-- Asking changes no file and no manifest. -/
theorem askApproval_world {engine : Engine} {request : ApprovalRequest} {w w' : World}
    {r : Except Exn Bool} (hrun : askApproval engine request w = (r, w')) :
    w'.disk = w.disk ∧ w'.transactions = w.transactions := by
  obtain ⟨_, rfl⟩ := Prod.mk.inj hrun
  exact ⟨rfl, rfl⟩

/-- `PatchEngine.apply_result`. -/
def applyResult (engine : Engine) (diffText : Text) : Prog Exn World MutationResult :=
  let diffText := engine.sanitize diffText
  match parseFilePatches engine.root diffText with
  | .error e =>
    if e.kind = .diffValidation then
      pure {
        ok := false, status := .validationFailed
        error := s!"{e.kind.className}: {e.message}" }
    else Prog.raise e
  | .ok patches => do
    let approved ← askApproval engine (applyApproval patches)
    if !approved then
      pure {
        ok := false, status := .denied, touchedFiles := patchPaths patches
        error := "Patch denied by user." }
    else do
      let (failure, backedUp) ← onDisk (applyPatches engine.root patches)
      match failure with
      | some e =>
        pure {
          ok := false, status := .applyFailed, touchedFiles := patchPaths patches
          error := "Patch application failed after approval: Patch application modifies "
            ++ s!"files inside the selected workspace. {e.kind.className}: {e.message}"
          rollbackAvailable := backedUp }
      | none =>
        pure {
          ok := true, status := .applied, touchedFiles := patchPaths patches
          rollbackAvailable := backedUp }

end Shamsu.Patch
