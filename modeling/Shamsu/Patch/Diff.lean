import Shamsu.Safety.Sandbox

/-!
# Unified diffs

The parser and the applier of `shamsu/patch/engine.py`, on the text that
`sanitize_model_diff` returned: `parse_file_patches` with the header and hunk
checks, `_apply_hunks` with the context search of `_locate_hunk`, and
`_write_lines`.

The source parses with one index that three nested loops advance. Every one of
them stops at a `--- ` line, and inside a file everything after the first
`@@ ` line belongs to a hunk, so the model cuts the lines at those marks first
(`sections`) and then checks the pieces in order, with the same first error.
-/

namespace Shamsu.Patch

open Shamsu.Lib Shamsu.Py Shamsu.Safety

/-- `DiffValidationError(message)`. -/
def diffError (message : String) : Exn := ⟨.diffValidation, message⟩

structure HunkPatch where
  oldStart : Nat
  oldCount : Nat
  newStart : Nat
  newCount : Nat
  lines : List Text
  deriving DecidableEq, Repr

structure FilePatch where
  oldPath : Text
  newPath : Text
  hunks : List HunkPatch
  deriving DecidableEq, Repr

def devNull : Text := "/dev/null".toList

namespace FilePatch

def displayPath (patch : FilePatch) : Text :=
  if patch.newPath ≠ devNull then patch.newPath else patch.oldPath

def isCreate (patch : FilePatch) : Bool := patch.oldPath == devNull

def isDelete (patch : FilePatch) : Bool := patch.newPath == devNull

end FilePatch

/-! ## Headers -/

/-- `_clean_header_path`. -/
def cleanHeaderPath (raw : Text) : Text :=
  let path := strip raw
  let path := path.takeWhile (· ≠ '\t')
  let path :=
    if path.head? = some '"' ∧ path.getLast? = some '"' then path.tail.dropLast else path
  if path = devNull ∨ path = devNull.tail then devNull
  else
    let path := if ['a', '/'].isPrefixOf path || ['b', '/'].isPrefixOf path then path.drop 2
      else path
    posixText path

/-- `_reject_unsafe_path`. -/
def rejectUnsafePath (patchPath : Text) : Except Exn Unit :=
  if patchPath = [] then .error (diffError "Patch path is empty.")
  else if isAbsolute patchPath || windowsIsAbsolute patchPath then
    .error (diffError s!"Patch path must be relative: {str patchPath}")
  else if dotDot ∈ parts patchPath ∨ dotDot ∈ windowsParts patchPath then
    .error (diffError s!"Patch path escapes workspace: {str patchPath}")
  else .ok ()

/-- One path of a file header: `/dev/null`, or a relative path of the workspace. -/
def validatePatchPath (root : Path) (patchPath : Text) : Except Exn Unit :=
  if patchPath = devNull then .ok ()
  else do
    rejectUnsafePath patchPath
    match validate root patchPath with
    | .ok _ => .ok ()
    | .error e => .error (if e.kind = .security then diffError e.message else e)

/-- `_validate_patch_paths`. -/
def validatePatchPaths (root : Path) (oldPath newPath : Text) : Except Exn Unit := do
  if oldPath = devNull ∧ newPath = devNull then
    .error (diffError "Patch cannot use /dev/null for both file paths.")
  validatePatchPath root oldPath
  validatePatchPath root newPath

/-! ## Hunks -/

/-- `int(...)` refuses more digits than this. -/
def maxIntDigits : Nat := 4300

def intOf (digits : Text) : Except Exn Nat :=
  if digits.length ≤ maxIntDigits then .ok (digitsValue digits)
  else .error ⟨.value, s!"Exceeds the limit ({maxIntDigits} digits) for integer string "
      ++ s!"conversion: value has {digits.length} digits; "
      ++ "use sys.set_int_max_str_digits() to increase the limit"⟩

/-- `(\d+)(?:,(\d+))?`: the first number's digits and what follows. -/
def headerRange (s : Text) : Option (Text × Text) :=
  let start := s.takeWhile isDigit
  if start = [] then none
  else
    match s.dropWhile isDigit with
    | ',' :: s =>
      if s.takeWhile isDigit = [] then none else some (start, s.dropWhile isDigit)
    | s => some (start, s)

def stripPrefix? (pre s : Text) : Option Text :=
  if pre.isPrefixOf s then some (s.drop pre.length) else none

/-- `HUNK_HEADER_RE`: the digits of the two start lines. -/
def hunkHeader (s : Text) : Option (Text × Text) := do
  let s ← stripPrefix? "@@ -".toList s
  let (oldStart, s) ← headerRange s
  let s ← stripPrefix? " +".toList s
  let (newStart, s) ← headerRange s
  let s ← stripPrefix? " @@".toList s
  if s = [] ∨ s.head? = some ' ' then some (oldStart, newStart) else none

/-- The marker of a hunk line; an empty line is an empty context line. -/
def marker (line : Text) : Char := line.headD ' '

/-- The lines of a hunk: `\ No newline` notes are dropped. -/
def hunkLines : List Text → Except Exn (List Text)
  | [] => .ok []
  | line :: rest =>
    if marker line = '\\' then hunkLines rest
    else if marker line = ' ' ∨ marker line = '+' ∨ marker line = '-' then
      (hunkLines rest).map (line :: ·)
    else .error (diffError s!"Invalid hunk line marker: {str line}")

/-- `_parse_hunk`: the counts are those of the body, not of the header. -/
def parseHunk (header : Text) (body : List Text) : Except Exn HunkPatch :=
  match hunkHeader header with
  | none => .error (diffError s!"Malformed hunk header: {str header}")
  | some (oldStart, newStart) => do
    let lines ← hunkLines body
    let oldStart ← intOf oldStart
    let newStart ← intOf newStart
    .ok {
      oldStart, newStart, lines
      oldCount := lines.countP fun l => marker l = ' ' ∨ marker l = '-'
      newCount := lines.countP fun l => marker l = ' ' ∨ marker l = '+' }

/-! ## Files -/

/-- Cut a list before each element that starts a section: what comes first, and
the sections with their heads. -/
def sections {α : Type} (starts : α → Bool) : List α → List α × List (α × List α)
  | [] => ([], [])
  | a :: l =>
    let (pre, secs) := sections starts l
    if starts a then ([], (a, pre) :: secs) else (a :: pre, secs)

def isFileMark (line : Text) : Bool := "--- ".toList.isPrefixOf line

def isHunkMark (line : Text) : Bool := "@@ ".toList.isPrefixOf line

/-- The lines allowed between a file header and its first hunk. -/
def isFilePreamble (line : Text) : Bool :=
  ["diff --git ", "index ", "new file mode ", "deleted file mode "].any
    (fun s => s.toList.isPrefixOf line) || isBlank line

/-- One `--- ` section of `parse_file_patches`. -/
def parseFilePatch (root : Path) (section_ : Text × List Text) : Except Exn FilePatch :=
  match section_.2 with
  | [] => .error (diffError "Missing +++ header after --- header.")
  | second :: body =>
    if "+++ ".toList.isPrefixOf second = false then
      .error (diffError "Missing +++ header after --- header.")
    else do
      let oldPath := cleanHeaderPath (section_.1.drop 4)
      let newPath := cleanHeaderPath (second.drop 4)
      validatePatchPaths root oldPath newPath
      let (preamble, hunks) := sections isHunkMark body
      match preamble.find? (fun line => !isFilePreamble line) with
      | some line => .error (diffError s!"Unexpected line outside hunk: {str line}")
      | none => do
        let hunks ← hunks.mapM fun (header, lines) => parseHunk header lines
        let patch : FilePatch := { oldPath, newPath, hunks }
        if hunks = [] then
          .error (diffError s!"File patch has no hunks: {str patch.displayPath}")
        else .ok patch

/-- `parse_file_patches`. -/
def parseFilePatches (root : Path) (diffText : Text) : Except Exn (List FilePatch) :=
  if isBlank diffText then .error (diffError "Diff is empty.")
  else do
    let patches ← (sections isFileMark (splitlines diffText)).2.mapM (parseFilePatch root)
    if patches = [] then .error (diffError "No unified diff file headers found.")
    else .ok patches

/-- `_patch_paths`. -/
def patchPaths (patches : List FilePatch) : List Text := patches.map FilePatch.displayPath

/-! ## What the parser accepts -/

/-- A header path of an accepted diff: `/dev/null`, or a relative path without
`..` that leads into the workspace. -/
def IsHeaderPath (root : Path) (path : Text) : Prop :=
  path = devNull ∨ (isAbsolute path = false ∧ dotDot ∉ parts path ∧
    validate root path = .ok (root ++ parts path))

theorem validatePatchPath_ok {root : Path} {path : Text}
    (h : validatePatchPath root path = .ok ()) : IsHeaderPath root path := by
  unfold validatePatchPath at h
  split at h
  next hn => exact Or.inl hn
  next =>
    cases hr : rejectUnsafePath path with
    | error e => rw [hr] at h; simp [bind, Except.bind] at h
    | ok u =>
      rw [hr] at h
      unfold rejectUnsafePath at hr
      split at hr
      · simp at hr
      · split at hr
        · simp at hr
        next ha =>
          split at hr
          · simp at hr
          next hd =>
            simp only [Bool.or_eq_true, not_or, Bool.not_eq_true] at ha
            have hd : dotDot ∉ parts path := fun hm => hd (Or.inl hm)
            cases hv : validate root path with
            | error e => rw [hv] at h; simp [bind, Except.bind] at h
            | ok t => exact Or.inr ⟨ha.1, hd, by rw [hv, validate_relative hv ha.1 hd]⟩

theorem parseFilePatch_ok {root : Path} {section_ : Text × List Text} {patch : FilePatch}
    (h : parseFilePatch root section_ = .ok patch) :
    IsHeaderPath root patch.oldPath ∧ IsHeaderPath root patch.newPath := by
  unfold parseFilePatch at h
  split at h
  · simp at h
  next second body _ =>
    split at h
    · simp at h
    · simp only [bind, Except.bind] at h
      split at h
      · simp at h
      next hpaths =>
        split at h
        · simp at h
        · split at h
          · simp at h
          next hunks _ =>
            split at h
            · simp at h
            · have h := (Except.ok.inj h).symm
              subst h
              unfold validatePatchPaths at hpaths
              simp only [bind, Except.bind] at hpaths
              split at hpaths
              · simp at hpaths
              · split at hpaths
                · simp at hpaths
                next hold => exact ⟨validatePatchPath_ok hold, validatePatchPath_ok hpaths⟩

/-- **What the parser accepts** has header paths of the workspace only. -/
theorem parseFilePatches_ok {root : Path} {diffText : Text} {patches : List FilePatch}
    (h : parseFilePatches root diffText = .ok patches) {patch : FilePatch}
    (hp : patch ∈ patches) :
    IsHeaderPath root patch.oldPath ∧ IsHeaderPath root patch.newPath := by
  unfold parseFilePatches at h
  split at h
  · simp at h
  · simp only [bind, Except.bind] at h
    split at h
    · simp at h
    next r hr =>
      split at h
      · simp at h
      · have h := Except.ok.inj h
        subst h
        obtain ⟨_, _, hs⟩ := of_mem_mapM_ok hr hp
        exact parseFilePatch_ok hs

/-! ## Applying -/

/-- The candidate closest to `anchor`, the first of several. -/
def closest (anchor : Nat) : List Nat → Option Nat
  | [] => none
  | start :: rest =>
    match closest anchor rest with
    | none => some start
    | some other =>
      if (start - anchor) + (anchor - start) ≤ (other - anchor) + (anchor - other) then some start
      else some other

/-- `_locate_hunk`, with the hint `old_start - 1` cut off at 0 (it is compared
with `min_start` before it is used). -/
def locateHunk (originalLines oldBlock : List Text) (hint minStart : Nat) : Option Nat :=
  let span := oldBlock.length
  let anchor := max hint minStart
  if span = 0 then some (min (max anchor minStart) originalLines.length)
  else
    let candidates := (List.range (originalLines.length + 1 - span)).filter fun start =>
      minStart ≤ start && ((originalLines.drop start).take span).map rstrip == oldBlock.map rstrip
    closest anchor candidates

/-- What the file must have: context and deleted lines, without their markers. -/
def oldBlock (lines : List Text) : List Text :=
  (lines.filter fun line => marker line = ' ' ∨ marker line = '-').map List.tail

/-- One line of a hunk, from the output so far and the place in the file. -/
def applyLine (originalLines : List Text) (line : Text) (output : List Text) (cursor : Nat) :
    Except Exn (List Text × Nat) :=
  if marker line = '\\' then .ok (output, cursor)
  else if marker line = ' ' then .ok (output ++ [originalLines.getD cursor line.tail], cursor + 1)
  else if marker line = '-' then .ok (output, cursor + 1)
  else if marker line = '+' then .ok (output ++ [line.tail], cursor)
  else .error (diffError s!"Invalid hunk line marker: {str line}")

/-- One hunk: copy up to its place, then its lines. -/
def applyHunk (originalLines : List Text) (state : List Text × Nat) (hunk : HunkPatch) :
    Except Exn (List Text × Nat) :=
  match locateHunk originalLines (oldBlock hunk.lines) (hunk.oldStart - 1) state.2 with
  | none => .error (diffError "Patch context does not match target file.")
  | some start =>
    hunk.lines.foldlM (fun state line => applyLine originalLines line state.1 state.2)
      (state.1 ++ (originalLines.drop state.2).take (start - state.2), start)

/-- `_apply_hunks`. -/
def applyHunks (originalLines : List Text) (hunks : List HunkPatch) : Except Exn (List Text) := do
  let (output, cursor) ← hunks.foldlM (applyHunk originalLines) ([], 0)
  .ok (output ++ originalLines.drop cursor)

/-- The text `_write_lines` writes. -/
def linesText (lines : List Text) : Text :=
  if lines = [] then [] else join '\n' lines ++ ['\n']

/-- `_write_lines`. -/
def writeLines (target : Path) (lines : List Text) : FSProg Unit :=
  writeText target (linesText lines)

end Shamsu.Patch
