import Shamsu.Patch.Transactions
import Shamsu.Py.Decode
import Shamsu.Tools.Resolve

/-!
# The write tools

`shamsu/tools/agent_tools.py`: `edit_file`, `append_file`, `write_file`,
`move_file` and `delete_file`. Every tool first looks (`…Plan`): it refuses,
previews, or knows what to write where. Only then is the user asked and the
change made, in a transaction of its own (`commit`).

How a source parses and where `edit_file` finds its text are judgements the
tools act on; they are fields of `Registry`.
-/

namespace Shamsu.Tools

open Shamsu.Lib Shamsu.Py Shamsu.Safety Shamsu.Patch

/-- What the write tools of one session have. -/
structure Registry where
  engine : Engine
  casing : Casing
  readOnly : Bool
  dryRun : Bool
  allowedWritePaths : Option (List Text)
  allowedReadPaths : Option (List Text)
  /-- `_resolved_read_aliases`. -/
  readAliases : List (Text × Text)
  /-- `check_text(text, suffix)`: the detail of the problem, if there is one. -/
  checkText : Text → Text → Option String
  /-- `_gutting_overwrite`, of the old and the new text. -/
  gutting : Text → Text → Option String
  /-- `looks_elided`. -/
  looksElided : Text → Bool
  /-- `_unwrap_serialized_tool_call`. -/
  unwrap : Text → Option Text
  /-- What `edit_file` makes of the content for `old_string`, `new_string` and
  `replace_all`, or why there is nothing to replace. -/
  replaceIn : Text → Text → Text → Bool → Except String Text

structure Reply where
  ok : Bool
  message : String
  filepath : Text := []
  dryRun : Bool := false
  /-- `rolled_back`, where a result has it. -/
  rolledBack : Option Bool := none

/-- What a tool has decided when it has looked. -/
inductive Plan where
  | reply (r : Reply)
  | write (path : Text) (target : Path) (content : Text) (create : Bool)
  | move (source destination : Text) (src dst : Path)
  | delete (path : Text) (target : Path)

namespace Registry

variable (r : Registry)

def root : Path := r.engine.root

/-- `_inside_allowed_read_scope`. -/
def insideAllowedReadScope (path : Text) : Bool :=
  match r.allowedReadPaths with
  | none => true
  | some allowed => allowed.any (covers (scopeKey r.casing r.root path))

/-- `_scoped_write_path`. -/
def scopedWritePath (path : Text) : Text :=
  let normalized := normalizeOr path path
  match r.allowedWritePaths with
  | none => normalized
  | some allowed =>
    if allowed.any (covers (r.casing.lower normalized)) then normalized
    else match allowed with
      | [item] =>
        let root := rstripSlash item
        if r.allowedReadPaths = some [item] then
          root ++ '/' :: normalized.dropWhile (· == '/')
        else
          let short := (r.casing.lower normalized).dropWhile (· == '/')
          if root = short ∨ ('/' :: short).isSuffixOf root then root else normalized
      | _ => normalized

/-- `_allowed_by_unique_basename_scope`. -/
def allowedByUniqueBasenameScope (d : FS) (normalized : Text) (allowed : List Text) : Bool :=
  let name := r.casing.lower (nameOf normalized)
  let bare (item : Text) : Bool :=
    '/' ∉ rstripSlash (item.dropWhile (· == '/')) && r.casing.lower (nameOf item) == name
  let found := (((walkWorkspaceFiles d r.root).map fun p =>
      r.casing.lower (normalizeWorkspacePath (posix (relativeTo r.root p)))).filter
    fun rel => nameOf rel == name && r.insideAllowedReadScope rel).dedup
  name != [] && allowed.any bare && found.length == 1 && r.casing.lower normalized ∈ found

/-- `_outside_allowed_scope`: the refusal, if the path is outside. -/
def outsideAllowedScope (d : FS) (path : Text) : Option Reply :=
  match r.allowedWritePaths with
  | none => none
  | some allowed =>
    let key := scopeKey r.casing r.root path
    if allowed.any (covers key) || r.allowedByUniqueBasenameScope d key allowed then none
    else some { ok := false, filepath := path,
                message := s!"Write rejected: {str path} is outside this task's locked write "
                  ++ "scope. This request allowed changes only to "
                  ++ ", ".intercalate (allowed.map str) ++ ". No file was modified." }

/-- `_resolved_read_path`. -/
def resolvedReadPath (d : FS) (path : Text) : Except Exn Text :=
  let normalized := normalizeOr path path
  match validate r.root normalized with
  | .error e => if e.kind = .security then .ok normalized else .error e
  | .ok requested =>
    if d.present requested then .ok normalized
    else match r.readAliases.lookup (r.casing.lower normalized) with
      | none => .ok normalized
      | some resolved =>
        if resolved = [] ∨ r.insideAllowedReadScope resolved = false then .ok normalized
        else match validate r.root resolved with
          | .error e => if e.kind = .security then .ok normalized else .error e
          | .ok target => .ok (if d.isFile target then resolved else normalized)

/-- `_read_only_refusal`. -/
def readOnlyRefusal (action : String) (path : Text) : Reply where
  ok := false
  filepath := path
  message := s!"Refused to {action} {str path}: this request said not to change files. "
    ++ "No file was modified. Ask again without that restriction if you want the change."

/-- `_planned`. -/
def planned (action : String) (path : Text) : Reply where
  ok := true
  filepath := path
  dryRun := true
  message := s!"[dry run] Would {action} {str path}. Nothing was written. "
    ++ "Continue as though this succeeded."

/-- `except SecurityError as exc: return ToolResult(False, str(exc), …)`. -/
def guarded {α : Type} (path : Text) (target : Except Exn α) (go : α → Except Exn Plan) :
    Except Exn Plan :=
  match target with
  | .ok t => go t
  | .error e =>
    if e.kind = .security then .ok (.reply { ok := false, message := e.message, filepath := path })
    else .error e

/-- `_breaks_a_working_file(target, content)`. -/
def breaksAWorkingFile (d : FS) (target : Path) (content : Text) : Option String :=
  match d.content target with
  | none => none
  | some bytes =>
    let suffix := r.casing.lower (suffixOf target.name)
    match r.checkText (readReplace bytes) suffix, r.checkText content suffix with
    | none, some detail => some s!"the replacement does not parse ({detail})"
    | _, _ => none

/-! ## Looking -/

/-- `edit_file`, up to the approval. -/
def editPlan (d : FS) (filepath old new : Text) (replaceAll : Bool) : Except Exn Plan :=
  if r.readOnly then .ok (.reply (readOnlyRefusal "edit" filepath))
  else do
    let filepath ← r.resolvedReadPath d (r.scopedWritePath filepath)
    match r.outsideAllowedScope d filepath with
    | some refusal => pure (.reply refusal)
    | none =>
      if r.dryRun then pure (.reply (planned "edit" (normalizeOr filepath filepath)))
      else
        let normalized := normalizeWorkspacePath filepath
        if normalized = [] then
          pure (.reply { ok := false, message := "Missing filepath.", filepath })
        else if old = [] then
          pure (.reply { ok := false, filepath := normalized, message :=
            "Missing old_string. Provide the exact text to replace (use write_file to create a new file)." })
        else if r.looksElided old || r.looksElided new then
          pure (.reply { ok := false, filepath := normalized, message :=
            "An argument is a fragment of the conversation history, not file text." })
        else guarded normalized (validate r.root normalized) fun target =>
          if d.isFile target then
            match readTextOf d target with
            | .error e =>
              pure (.reply { ok := false, filepath := normalized,
                             message := s!"Could not read {str normalized}: {e.message}" })
            | .ok content =>
              match r.replaceIn content old new replaceAll with
              | .error why => pure (.reply { ok := false, message := why, filepath := normalized })
              | .ok newContent =>
                match r.breaksAWorkingFile d target newContent with
                | some broken =>
                  pure (.reply { ok := false, filepath := normalized, message :=
                    s!"Refusing to edit {str normalized}: {broken}, but the file on disk "
                      ++ "currently does." })
                | none => pure (.write normalized target newContent false)
          else pure (.reply { ok := false, filepath := normalized, message :=
            s!"Cannot edit: file does not exist: {str normalized}." })

/-- `append_file`, up to the approval. -/
def appendPlan (d : FS) (filepath content : Text) : Except Exn Plan :=
  if r.readOnly then .ok (.reply (readOnlyRefusal "append to" filepath))
  else do
    let filepath ← r.resolvedReadPath d (r.scopedWritePath filepath)
    match r.outsideAllowedScope d filepath with
    | some refusal => pure (.reply refusal)
    | none =>
      let normalized := normalizeWorkspacePath filepath
      if normalized = [] then
        pure (.reply { ok := false, message := "Missing filepath.", filepath })
      else if content = [] then
        pure (.reply { ok := false, filepath := normalized, message :=
          "Missing content. Pass the text to append; the file was NOT changed." })
      else if r.dryRun then pure (.reply (planned "append" normalized))
      else guarded normalized (validate r.root normalized) fun target =>
        if d.isFile target then
          match readTextOf d target with
          | .error e =>
            pure (.reply { ok := false, filepath := normalized,
                           message := s!"Could not read {str normalized}: {e.message}" })
          | .ok old =>
            let isBreak (c : Option Char) : Bool := c == some '\n' || c == some '\r'
            let separator := if old ≠ [] ∧ isBreak old.getLast? = false ∧ isBreak content.head? = false
              then ['\n'] else []
            let newContent := old ++ (separator ++ content)
            match r.breaksAWorkingFile d target newContent with
            | some broken =>
              pure (.reply { ok := false, filepath := normalized, message :=
                s!"Refusing to append to {str normalized}: {broken}, but the file on disk "
                  ++ "currently does." })
            | none => pure (.write normalized target newContent false)
        else pure (.reply { ok := false, filepath := normalized, message :=
          s!"Cannot append: file does not exist: {str normalized}." })

/-- `_strong_path_candidates`. -/
def strongPathCandidates (d : FS) (requested : Text) : List (List Text) :=
  let requested := normalizeWorkspacePath requested
  if requested = [] then []
  else
    let req := r.casing.lower requested
    let all := (walkWorkspaceFiles d r.root).map (relativeTo r.root)
    let low (rel : List Text) := r.casing.lower (posix rel)
    let atKey (key : Text) := (all.reverse.find? fun rel => low rel == key).toList
    ((atKey req ++ all.filter (fun rel => ('/' :: req).isSuffixOf (low rel))
      ++ frontendRoots.flatMap fun pre => atKey (r.casing.lower (pre ++ requested))).reverse.dedup.reverse).take 5

/-- `write_file`, up to the approval. -/
def writePlan (d : FS) (filepath content : Text) (overwrite : Bool) : Except Exn Plan :=
  if r.readOnly then .ok (.reply (readOnlyRefusal "write" filepath))
  else do
    let filepath ← r.resolvedReadPath d (r.scopedWritePath filepath)
    match r.outsideAllowedScope d filepath with
    | some refusal => pure (.reply refusal)
    | none =>
      if r.dryRun then
        let target := normalizeOr filepath filepath
        pure (.reply (planned (if d.isFile (locate r.root target) then "overwrite" else "create")
          target))
      else
        let normalized := normalizeWorkspacePath filepath
        if normalized = [] then
          pure (.reply { ok := false, message := "Missing filepath." })
        else if isBlank content ∧ nameOf normalized ≠ "__init__.py".toList then
          pure (.reply { ok := false, filepath := normalized, message :=
            s!"Refusing an empty write to {str normalized}." })
        else
          let content := (r.unwrap content).getD content
          let place := locate r.root normalized
          match r.breaksAWorkingFile d place content with
          | some broken =>
            pure (.reply { ok := false, filepath := normalized, message :=
              s!"Refusing to overwrite {str normalized}: {broken}, but the file on disk "
                ++ "currently does." })
          | none =>
            match (d.content place).bind fun bytes => r.gutting (readReplace bytes) content with
            | some gutted =>
              pure (.reply { ok := false, filepath := normalized, message :=
                s!"Refusing to overwrite {str normalized}: {gutted}" })
            | none =>
              guarded normalized (validate r.root normalized) fun target =>
                if d.isDir target then
                  pure (.reply { ok := false, filepath := normalized, message :=
                    s!"{str normalized} is a directory, not a file." })
                else if d.isFile target then
                  if overwrite then
                    if (readTextOf d target).toOption.getD [] = content then
                      pure (.reply { ok := false, filepath := normalized, message :=
                        "No change: what you sent is byte-for-byte identical to what "
                          ++ s!"{str normalized} already contains, so nothing was written." })
                    else pure (.write normalized target content false)
                  else pure (.reply { ok := false, filepath := normalized, message :=
                    "File already exists. Set overwrite=true if overwriting is intended." })
                else
                  let strong := (r.strongPathCandidates d normalized).filter
                    fun rel => r.insideAllowedReadScope (posix rel)
                  if strong = [] then pure (.write normalized target content true)
                  else pure (.reply { ok := false, filepath := normalized, message :=
                    s!"Refusing to create {str normalized}: a matching file already exists at a "
                      ++ "different path. Candidates: "
                      ++ ", ".intercalate (strong.map fun rel => str (posix rel)) ++ "." })

/-- `move_file`, up to the approval. -/
def movePlan (d : FS) (source destination : Text) : Except Exn Plan :=
  if r.readOnly then .ok (.reply (readOnlyRefusal "move" source))
  else
    let source := r.scopedWritePath source
    let destination := r.scopedWritePath destination
    match r.outsideAllowedScope d source, r.outsideAllowedScope d destination with
    | some refusal, _ => .ok (.reply refusal)
    | none, some refusal => .ok (.reply refusal)
    | none, none =>
      if r.dryRun then .ok (.reply (planned "move" (normalizeOr source source)))
      else
        let source := normalizeWorkspacePath source
        let destination := normalizeWorkspacePath destination
        if source = [] ∨ destination = [] then
          .ok (.reply { ok := false, message := "move_file needs both source and destination." })
        else if source = destination then
          .ok (.reply { ok := false, message := "Source and destination are the same file.",
                        filepath := source })
        else guarded source (validate r.root source) fun src =>
          guarded source (validate r.root destination) fun dst =>
            if d.isFile src = false then
              .ok (.reply { ok := false, filepath := source, message :=
                s!"Cannot move {str source}: it is not a file in this workspace." })
            else if d.present dst then
              .ok (.reply { ok := false, filepath := destination, message :=
                s!"Refusing to move {str source} onto {str destination}: the destination "
                  ++ "already exists." })
            else .ok (.move source destination src dst)

/-- `delete_file`, up to the approval. -/
def deletePlan (d : FS) (filepath : Text) : Except Exn Plan :=
  if r.readOnly then .ok (.reply (readOnlyRefusal "delete" filepath))
  else
    let filepath := r.scopedWritePath filepath
    match r.outsideAllowedScope d filepath with
    | some refusal => .ok (.reply refusal)
    | none =>
      if r.dryRun then .ok (.reply (planned "delete" (normalizeOr filepath filepath)))
      else
        let normalized := normalizeWorkspacePath filepath
        if normalized = [] then .ok (.reply { ok := false, message := "Missing filepath." })
        else guarded normalized (validate r.root normalized) fun target =>
          if d.isFile target then .ok (.delete normalized target)
          else .ok (.reply { ok := false, filepath := normalized, message :=
            s!"Cannot delete {str normalized}: it is not a file in this workspace." })

/-! ## Changing -/

/-- `approval_manager.ask(request)`. -/
def approved (action : ActionType) (paths : List Text) : Prog Exn World Bool := fun w =>
  let (answer, memory) := ask r.engine.prompts w.memory ⟨action, paths⟩
  (.ok answer, { w with memory })

/-- One operation of a transaction. -/
def operation (kind : OperationKind) (path destPath : Text) : Operation :=
  { op := kind, path, destPath, reason := [], content := [] }

/-- A write in its transaction: the copy is kept first. The directory of a file
that exists is there already. -/
def commitWrite (stamp : Stamp) (path : Text) (target : Path) (content : Text) (create : Bool) :
    Prog Exn World Unit := do
  beginTransaction r.engine stamp ("Agent write_file: ".toList ++ path)
    [operation (if create then .createFile else .editFile) path []] false
  snapshot r.engine stamp.id path
  onDisk (mkdirP target.parent)
  onDisk (writeText target content)
  recordAfter r.engine stamp.id path
  let _ ← finalize stamp.id .applied ""
  pure ()

/-- `except OSError`: the transaction has failed, and so has the tool. -/
def orFailed (stamp : Stamp) (what : String) (path : Text) (x : Prog Exn World Reply) :
    Prog Exn World Reply :=
  Prog.handle x fun e =>
    if e.kind.isOSError then do
      let _ ← finalize stamp.id .failed ""
      pure { ok := false, message := s!"{what} failed: {e.message}", filepath := path }
    else Prog.raise e

/-- Do what was planned, once the user agrees. -/
def carryOut (stamp : Stamp) : Plan → Prog Exn World Reply
  | .reply reply => pure reply
  | .write path target content create => do
    if ← r.approved (if create then .fileWrite else .fileEdit) [path] then
      r.commitWrite stamp path target content create
      pure { ok := true, message := s!"Wrote {str path}.", filepath := path }
    else pure { ok := false, message := "File edit denied by user.", filepath := path }
  | .move source destination src dst => do
    if ← r.approved .fileEdit [source, destination] then
      beginTransaction r.engine stamp ("Agent move_file: ".toList ++ source)
        [operation .moveFile source destination] true
      snapshot r.engine stamp.id source
      orFailed stamp "Move" source do
        onDisk (mkdirP dst.parent)
        onDisk (Py.move src dst)
        recordAfter r.engine stamp.id destination
        let _ ← finalize stamp.id .applied ""
        pure { ok := true, message := s!"Moved {str source} -> {str destination}.",
               filepath := destination }
    else pure { ok := false, message := "Move denied by user.", filepath := source }
  | .delete path target => do
    if ← r.approved .fileDelete [path] then
      beginTransaction r.engine stamp ("Agent delete_file: ".toList ++ path)
        [operation .deleteFile path []] true
      snapshot r.engine stamp.id path
      orFailed stamp "Delete" path do
        onDisk (unlink target)
        let _ ← finalize stamp.id .applied ""
        pure { ok := true, message := s!"Deleted {str path}. Recoverable with /undo.",
               filepath := path }
    else pure { ok := false, message := "Delete denied by user.", filepath := path }

/-- A tool: look, then carry out. -/
def perform (stamp : Stamp) (plan : FS → Except Exn Plan) : Prog Exn World Reply := do
  let plan ← Prog.read fun w => plan w.disk
  r.carryOut stamp plan

def editFile (stamp : Stamp) (filepath old new : Text) (replaceAll : Bool) :
    Prog Exn World Reply :=
  r.perform stamp fun d => r.editPlan d filepath old new replaceAll

def appendFile (stamp : Stamp) (filepath content : Text) : Prog Exn World Reply :=
  r.perform stamp fun d => r.appendPlan d filepath content

def writeFile (stamp : Stamp) (filepath content : Text) (overwrite : Bool) :
    Prog Exn World Reply :=
  r.perform stamp fun d => r.writePlan d filepath content overwrite

def moveFile (stamp : Stamp) (source destination : Text) : Prog Exn World Reply :=
  r.perform stamp fun d => r.movePlan d source destination

def deleteFile (stamp : Stamp) (filepath : Text) : Prog Exn World Reply :=
  r.perform stamp fun d => r.deletePlan d filepath

end Registry

end Shamsu.Tools
