import Shamsu.Py.Decode
import Shamsu.Tools.Resolve

/-!
# The read tools

`shamsu/tools/agent_tools.py`: `list_files`, `read_file`, `file_info`,
`find_file` and `grep_files`, and the read scope a project run sets around
them. A result holds the files of the workspace it names and the file its
content comes from; `ToolResult.disclosed` lists them.
-/

namespace Shamsu.Tools

open Shamsu.Lib Shamsu.Py Shamsu.Safety

/-- A directory of a disk whose names are names. -/
structure Workspace where
  disk : FS
  root : Path
  names : ∀ p, disk.present p = true → ∀ n ∈ p, IsName n
  isDir_root : disk.isDir root = true

/-- A disk whose listed paths are made of names has no others. -/
theorem names_of_support {d : FS} (h : ∀ p ∈ d.support, ∀ n ∈ p, IsName n) :
    ∀ p, d.present p = true → ∀ n ∈ p, IsName n :=
  fun p hp => h p (d.mem_support p hp)

/-- What the read tools of one session see. `documentText` extracts the text of
a document (`parse_prd_file(…).raw_text`). -/
structure AgentTools where
  casing : Casing
  workspace : Workspace
  allowedReadPaths : Option (List Text)
  documentText : Bytes → Except Exn Text

/-- A line `grep_files` found. -/
structure Match where
  file : Path
  line : Nat
  text : Text

structure ToolResult where
  ok : Bool
  message : String
  filepath : Text := []
  resolvedFilepath : Option Path := none
  /-- `resolved_filepath` as a read spells it. -/
  resolvedName : Text := []
  /-- `content`, with the file it was read from. -/
  content : Option (Path × Text) := none
  /-- The files `listing` names. -/
  listing : List Path := []
  candidates : List Path := []
  grepMatches : List Match := []
  kind : String := ""
  sizeBytes : Option Nat := none
  extension : Text := []
  totalLines : Option Nat := none
  startLine : Option Int := none
  endLine : Option Int := none
  truncated : Bool := false
  readScope : List Text := []

/-- Every file whose content or name the tool took from the disk into its result. -/
def ToolResult.disclosed (r : ToolResult) : List Path :=
  r.resolvedFilepath.toList ++ r.content.toList.map Prod.fst ++ r.listing ++ r.candidates
    ++ r.grepMatches.map Match.file

/-- The set `set_allowed_read_paths(paths)` keeps, in sorted order. -/
def allowedSet (c : Casing) (paths : List Text) : List Text :=
  ((paths.map normalizeWorkspacePath).filter (· ≠ [])).map c.lower |>.dedup.mergeSort textLe

namespace AgentTools

variable (t : AgentTools)

def root : Path := t.workspace.root

def disk : FS := t.workspace.disk

/-- `set_allowed_read_paths`. -/
def setAllowedReadPaths (paths : Option (List Text)) : AgentTools :=
  { t with allowedReadPaths := paths.map (allowedSet t.casing) }

/-- `_inside_allowed_read_scope`. -/
def insideAllowedReadScope (path : Text) : Bool :=
  match t.allowedReadPaths with
  | none => true
  | some allowed => allowed.any (covers (scopeKey t.casing t.root path))

/-- `_scoped_read_path`. -/
def scopedReadPath (path : Text) : Text :=
  let normalized := normalizeOr path path
  match t.allowedReadPaths with
  | none => normalized
  | some allowed =>
    if t.insideAllowedReadScope normalized then normalized
    else match allowed with
      | [item] =>
        if normalized = [] ∨ normalized = ['.'] then normalized
        else rstripSlash item ++ '/' :: normalized.dropWhile (· == '/')
      | _ => normalized

/-- `_scoped_candidates`, as whole paths. -/
def scopedCandidates (candidates : List (List Text)) : List Path :=
  (candidates.filter fun rel => t.insideAllowedReadScope (posix rel)).map (t.root ++ ·)

/-! ## `list_files` -/

/-- `is_workspace_path(child, directory)`. -/
def isWorkspaceChild (n : Text) : Bool := n ∉ excludedFiles && n ∉ excludedDirs

/-- The order of `WorkspaceTool.list_files`: directories first, then by name. -/
def entryLe (dir : Path) (a b : Text) : Bool :=
  let fileA := !t.disk.isDir (dir ++ [a])
  let fileB := !t.disk.isDir (dir ++ [b])
  (!fileA && fileB) || (fileA == fileB && textLe (t.casing.lower a) (t.casing.lower b))

/-- The entries `WorkspaceTool(dir).list_files().render()` shows. -/
def directoryListing (dir : Path) : List Path :=
  ((((children t.disk dir).filter isWorkspaceChild).mergeSort (t.entryLe dir)).take 30).map
    fun n => dir ++ [n]

/-- The files `list_files(".")` shows for one root of the scope. -/
def rootListing (item : Text) : Except Exn (List Path) := do
  let target ← validate t.root item
  pure (if t.disk.isDir target then (walkWorkspaceFiles t.disk target).take 120 else [])

/-- `list_files(path)`. -/
def listFiles (path : Text) : Except Exn ToolResult :=
  let normalized := normalizeOr path ['.']
  match t.allowedReadPaths, normalized == ['.'] with
  | some allowed, true => do
    let listings ← allowed.mapM t.rootListing
    pure { ok := true, message := "Listed files inside the active project scope.",
           filepath := ['.'], listing := listings.flatten, readScope := allowed }
  | _, _ =>
    let normalized := t.scopedReadPath normalized
    if t.insideAllowedReadScope normalized then do
      let target ← validate t.root normalized
      if t.disk.isDir target then
        pure { ok := true, message := "Listed files.", filepath := normalized,
               listing := t.directoryListing target }
      else pure { ok := false, message := s!"Not a directory: {str normalized}",
                  filepath := normalized }
    else pure { ok := false, filepath := path, readScope := t.allowedReadPaths.getD [],
                message :=
                  s!"Refused to list {str path}: it is outside the active project read scope." }

/-! ## `read_file` -/

/-- `MAX_READ_CHARS`. -/
def maxReadChars : Nat := 24000

/-- The content a read returns, cut to `MAX_READ_CHARS`. -/
def cutContent (content : Text) : Text :=
  if maxReadChars < content.length then
    content.take maxReadChars
      ++ s!"\n... [truncated {content.length - maxReadChars} chars]".toList
  else content

/-- `_READABLE_TEXT_EXTENSIONS`, with the `TEXT_EXTENSIONS` and
`SOURCE_SUFFIXES` it is made of. -/
def readableTextExtensions : List Text :=
  [".c", ".cc", ".cfg", ".cjs", ".conf", ".cpp", ".cs", ".css", ".env", ".go", ".gql",
    ".gradle", ".graphql", ".h", ".hpp", ".html", ".ini", ".java", ".js", ".json", ".jsonc",
    ".jsx", ".kt", ".less", ".lock", ".md", ".mjs", ".php", ".prisma", ".properties", ".proto",
    ".py", ".rb", ".rs", ".rst", ".sass", ".scss", ".sh", ".sql", ".svelte", ".svg", ".toml",
    ".ts", ".tsx", ".txt", ".vue", ".xml", ".yaml", ".yml"].map String.toList

/-- `TEXT_FILENAMES` and `_READABLE_FILENAMES`. -/
def readableFilenames : List Text :=
  [".babelrc", ".dockerignore", ".editorconfig", ".env", ".envrc", ".eslintrc",
    ".gitattributes", ".gitignore", ".npmrc", ".nvmrc", ".prettierrc", "Dockerfile",
    "LICENSE", "Makefile", "Procfile"].map String.toList

/-- `TEXT_FILENAME_PREFIXES`. -/
def readableFilenamePrefixes : List Text :=
  ["Dockerfile.", "Makefile.", ".env."].map String.toList

/-- `_is_readable_text`. -/
def isReadableText (p : Path) : Bool :=
  t.casing.lower (suffixOf p.name) ∈ readableTextExtensions || p.name ∈ readableFilenames
    || readableFilenamePrefixes.any fun pre => pre.isPrefixOf p.name

/-- `DOCUMENT_EXTENSIONS`. -/
def documentExtensions : List Text := [".pdf", ".docx"].map String.toList

/-- `_refuse_impossible_range`. -/
def refuseImpossibleRange (asked : Text) (start stop : Int) (total : Nat) : Option ToolResult :=
  if stop < start then
    let suggested := if 1 ≤ stop then start + max stop 1 - 1 else start + 19
    some { ok := false, filepath := asked, totalLines := some total, startLine := some start,
           endLine := some stop,
           message := s!"end_line ({stop}) is before start_line ({start}), so that range is "
            ++ s!"empty and {str asked} was NOT read. end_line is a line NUMBER, not a count. "
            ++ s!"For the {max stop 1} lines starting at {start}, call read_file with "
            ++ s!"start_line={start} and end_line={suggested}." }
  else if (total : Int) < start then
    some { ok := false, filepath := asked, totalLines := some total, startLine := some start,
           message := s!"start_line {start} is past the end of {str asked}, which has {total} "
            ++ "line(s), so nothing was read." }
  else none

/-- `_read_existing_file`; the lines asked for are numbers by now. -/
def readExistingFile (asked resolved : Text) (target : Path) (startLine endLine : Option Int) :
    Except Exn ToolResult :=
  if t.isReadableText target then
    match readBytesOf t.disk target with
    | .error e =>
      if e.kind.isOSError then
        .ok { ok := false, message := s!"Could not read {str resolved}: {e.message}",
              filepath := asked, resolvedFilepath := some target }
      else .error e
    | .ok bytes =>
      let text := readReplace bytes
      let lines := splitlines text
      let message := if resolved = asked then "Read file."
        else s!"Read file (resolved '{str asked}' -> '{str resolved}')."
      if startLine = none ∧ endLine = none then
        .ok { ok := true, message, filepath := asked, resolvedFilepath := some target,
              resolvedName := resolved,
              totalLines := some lines.length, content := some (target, cutContent text),
              truncated := maxReadChars < text.length }
      else
        let start := max 1 (startLine.getD 1)
        let stop := endLine.getD lines.length
        match refuseImpossibleRange asked start stop lines.length with
        | some refused => .ok refused
        | none =>
          let stop := min (lines.length : Int) stop
          let selected := (lines.take stop.toNat).drop (start.toNat - 1)
          .ok { ok := true, message, filepath := asked, resolvedFilepath := some target,
                resolvedName := resolved,
                totalLines := some lines.length, startLine := some start, endLine := some stop,
                content := some (target, cutContent (join '\n' selected)),
                truncated := 1 < start || stop < (lines.length : Int) }
  else .ok { ok := false, message := s!"Not a supported text file: {str resolved}",
             filepath := asked, resolvedFilepath := some target }

/-- The refusal of a missing file, with the candidates it lists. -/
def notAFile (normalized : Text) (candidates : List Path) (hint : String) : ToolResult :=
  let names := candidates.map fun p => str (posix (relativeTo t.root p))
  { ok := false, filepath := normalized, candidates,
    message := s!"Not a file: {str normalized}."
      ++ if candidates.isEmpty then hint else " Candidates: " ++ ", ".intercalate names }

/-- `_read_pdf`. -/
def readPdf (normalized : Text) : Except Exn ToolResult :=
  match validate t.root normalized with
  | .error e =>
    if e.kind = .security then .ok { ok := false, message := e.message, filepath := normalized }
    else .error e
  | .ok target =>
    if t.disk.isFile target then do
      let bytes ← readBytesOf t.disk target
      let text ← t.documentText bytes
      pure { ok := true, message := "Read file.", filepath := normalized,
             resolvedFilepath := some target, resolvedName := normalized,
             content := some (target, cutContent text) }
    else
      .ok (t.notAFile normalized
        ((findPathCandidates t.casing t.disk t.root normalized).map (t.root ++ ·)) "")

/-- `read_file(filepath, start_line, end_line)`. -/
def readFile (filepath : Text) (startLine endLine : Option Int) : Except Exn ToolResult :=
  if normalizeWorkspacePath filepath = [] then
    .ok { ok := false, message := "Missing filepath.", filepath }
  else
    let normalized := t.scopedReadPath (normalizeWorkspacePath filepath)
    if t.insideAllowedReadScope normalized then
      if t.casing.lower (suffixOf (nameOf normalized)) ∈ documentExtensions then
        t.readPdf normalized
      else match validate t.root normalized with
        | .error e =>
          if e.kind = .security then
            .ok { ok := false, message := e.message, filepath := normalized }
          else .error e
        | .ok target =>
          if t.disk.isDir target then
            .ok { ok := false, filepath := normalized, kind := "directory",
                  listing := t.directoryListing target,
                  message := s!"Not a file: {str normalized} is a directory. "
                    ++ "Pass a file path inside it." }
          else if t.disk.isFile target then
            t.readExistingFile normalized normalized target startLine endLine
          else match (pathExistsCaseInsensitive t.casing t.disk t.root normalized).filter
              t.disk.isFile with
            | some ci =>
              t.readExistingFile normalized (posix (relativeTo t.root ci)) ci startLine endLine
            | none =>
              -- one candidate left is read in place of the missing file
              match t.scopedCandidates (findPathCandidates t.casing t.disk t.root normalized) with
              | [candidate] => t.readExistingFile normalized
                  (posix (relativeTo t.root candidate)) candidate startLine endLine
              | candidates => .ok (t.notAFile normalized candidates
                  " No similar files found. Use find_file or grep_files to locate it.")
    else .ok { ok := false, filepath, readScope := t.allowedReadPaths.getD [],
               message :=
                s!"Refused to read {str filepath}: it is outside the active project read scope." }

/-- A result with the content of `file`: a document, a text file, or lines of one. -/
inductive ReadOf (file : Path) (body : Text) (result : ToolResult) : Prop where
  | document (bytes : Bytes) (text : Text) (content : t.disk.content file = some bytes)
      (extracted : t.documentText bytes = .ok text) (body : body = cutContent text)
      (startLine : result.startLine = none) (endLine : result.endLine = none)
      (totalLines : result.totalLines = none) (truncated : result.truncated = false)
  | text (bytes : Bytes) (content : t.disk.content file = some bytes)
      (body : body = cutContent (readReplace bytes))
      (startLine : result.startLine = none) (endLine : result.endLine = none)
      (totalLines : result.totalLines = some (splitlines (readReplace bytes)).length)
      (truncated : result.truncated = decide (maxReadChars < (readReplace bytes).length))
  | range (bytes : Bytes) (start stop : Nat) (content : t.disk.content file = some bytes)
      (body : body = cutContent
        (join '\n' (((splitlines (readReplace bytes)).take stop).drop (start - 1))))
      (startLine : result.startLine = some (start : Int))
      (endLine : result.endLine = some (stop : Int))
      (totalLines : result.totalLines = some (splitlines (readReplace bytes)).length)
      (one_le : 1 ≤ start) (le : start ≤ stop)
      (le_total : stop ≤ (splitlines (readReplace bytes)).length)

variable {t}

/-- What `read_file` has: a refusal without content, or the content of a file. -/
def Reads (result : ToolResult) : Prop :=
  result.ok = false ∧ result.content = none ∨
    ∃ file body, result.ok = true ∧ result.content = some (file, body) ∧ t.ReadOf file body result

theorem readExistingFile_reads {asked resolved : Text} {target : Path}
    {startLine endLine : Option Int} {result : ToolResult}
    (h : t.readExistingFile asked resolved target startLine endLine = .ok result) :
    t.Reads result := by
  unfold readExistingFile at h
  split at h
  · split at h
    next e he =>
      split at h
      · obtain rfl := Except.ok.inj h
        exact .inl ⟨rfl, rfl⟩
      · cases h
    next bytes hb =>
      have hcontent := readBytesOf_ok.mp hb
      dsimp only at h
      split at h
      · obtain rfl := Except.ok.inj h
        exact .inr ⟨_, _, rfl, rfl, .text bytes hcontent rfl rfl rfl rfl rfl⟩
      · split at h
        next refused hr =>
          obtain rfl := Except.ok.inj h
          unfold refuseImpossibleRange at hr
          split at hr
          · obtain rfl := Option.some.inj hr
            exact .inl ⟨rfl, rfl⟩
          · split at hr
            · obtain rfl := Option.some.inj hr
              exact .inl ⟨rfl, rfl⟩
            · cases hr
        next hr =>
          unfold refuseImpossibleRange at hr
          split at hr
          · cases hr
          · rename_i horder
            split at hr
            · cases hr
            · rename_i hpast
              obtain rfl := Except.ok.inj h
              -- both ends are positive by now
              refine .inr ⟨_, _, rfl, rfl, .range bytes (max 1 (startLine.getD 1)).toNat
                (min (splitlines (readReplace bytes)).length
                  (endLine.getD (splitlines (readReplace bytes)).length) : Int).toNat hcontent rfl
                ?_ ?_ rfl ?_ ?_ ?_⟩
              · exact congrArg some (by omega)
              · exact congrArg some (by omega)
              · omega
              · omega
              · omega
  · obtain rfl := Except.ok.inj h
    exact .inl ⟨rfl, rfl⟩

theorem readPdf_reads {normalized : Text} {result : ToolResult}
    (h : t.readPdf normalized = .ok result) : t.Reads result := by
  unfold readPdf at h
  split at h
  next e he =>
    split at h
    · obtain rfl := Except.ok.inj h
      exact .inl ⟨rfl, rfl⟩
    · cases h
  next target hv =>
    split at h
    next hf =>
      obtain ⟨bytes, hb, h⟩ := result_bind_ok.mp h
      obtain ⟨text, ht, h⟩ := result_bind_ok.mp h
      obtain rfl := Except.ok.inj h
      exact .inr ⟨_, _, rfl, rfl, .document bytes text (readBytesOf_ok.mp hb) ht rfl rfl rfl rfl rfl⟩
    next hf =>
      obtain rfl := Except.ok.inj h
      exact .inl ⟨rfl, rfl⟩

theorem readFile_reads {filepath : Text} {startLine endLine : Option Int} {result : ToolResult}
    (h : t.readFile filepath startLine endLine = .ok result) : t.Reads result := by
  unfold readFile at h
  split at h
  · obtain rfl := Except.ok.inj h
    exact .inl ⟨rfl, rfl⟩
  · dsimp only at h
    split at h
    · split at h
      · exact readPdf_reads h
      · split at h
        · split at h
          · obtain rfl := Except.ok.inj h
            exact .inl ⟨rfl, rfl⟩
          · cases h
        · split at h
          · obtain rfl := Except.ok.inj h
            exact .inl ⟨rfl, rfl⟩
          · split at h
            · exact readExistingFile_reads h
            · split at h
              · exact readExistingFile_reads h
              · split at h
                · exact readExistingFile_reads h
                · obtain rfl := Except.ok.inj h
                  exact .inl ⟨rfl, rfl⟩
    · obtain rfl := Except.ok.inj h
      exact .inl ⟨rfl, rfl⟩

variable (t)

/-! ## `file_info` -/

/-- `file_info(filepath)`. -/
def fileInfo (filepath : Text) : Except Exn ToolResult :=
  if normalizeWorkspacePath filepath = [] then
    .ok { ok := false, message := "Missing filepath.", filepath }
  else
    let normalized := t.scopedReadPath (normalizeWorkspacePath filepath)
    if t.insideAllowedReadScope normalized then
      match validate t.root normalized with
      | .error e =>
        if e.kind = .security then
          .ok { ok := false, message := e.message, filepath := normalized }
        else .error e
      | .ok target =>
        match t.disk.get target with
        | some (.file bytes) =>
          .ok { ok := true, message := s!"{str normalized} is a file ({bytes.length} bytes).",
                filepath := normalized, kind := "file", resolvedFilepath := some target,
                sizeBytes := some bytes.length, extension := suffixOf target.name }
        | some .dir =>
          .ok { ok := true, message := s!"{str normalized} is a directory.",
                filepath := normalized, kind := "directory", resolvedFilepath := some target }
        | none =>
          let ci := pathExistsCaseInsensitive t.casing t.disk t.root normalized
          let candidates := t.scopedCandidates
            (findPathCandidates t.casing t.disk t.root normalized)
          let more := match ci with
            | some p => s!" A case-insensitive match exists: {str (posix (relativeTo t.root p))}."
            | none =>
              if candidates.isEmpty then ""
              else
                let names := candidates.map fun p => str (posix (relativeTo t.root p))
                " Candidates: " ++ ", ".intercalate names
          .ok { ok := true, message := s!"No file or directory at {str normalized}." ++ more,
                filepath := normalized, kind := "missing", resolvedFilepath := ci, candidates,
                extension := suffixOf (nameOf normalized) }
    else .ok { ok := false, filepath,
               message := s!"Refused to inspect {str filepath}: it is outside the active "
                ++ "project read scope." }

/-! ## `find_file` -/

/-- `_PLACEHOLDER_QUERY_TOKENS`. -/
def placeholderQueryTokens : List Text :=
  ["?", "??", "???", "...", "\u2026", "*", "**", "<query>", "<text>", "<pattern>", "<symbol>",
    "<term>", "<file>", "<name>", "query", "search", "text", "pattern", "symbol", "term",
    "keyword", "todo", "tbd", "xxx", "n/a", "na", "none", "null", "placeholder", "your_query",
    "your query", "example", "filename", "file"].map String.toList

/-- `_is_placeholder_query`. -/
def isPlaceholderQuery (query : Text) : Bool :=
  strip query == [] || t.casing.lower (strip query) ∈ placeholderQueryTokens

/-- `find_file(query, limit)`. -/
def findFile (query : Text) (limit : Int) : Except Exn ToolResult :=
  if t.isPlaceholderQuery query then
    .ok { ok := false, filepath := query,
          message := s!"Missing or placeholder query \"{str (strip query)}\". "
            ++ "Pass a real file name to find_file." }
  else
    let normalized := normalizeWorkspacePath query
    if normalized = [] then .ok { ok := false, message := "Missing query.", filepath := query }
    else
      let found := t.scopedCandidates
        (findFilesByQuery t.casing t.disk t.root normalized limit)
      let message := if found.isEmpty then
          s!"No files matched '{str normalized}'. Try a shorter query or grep_files."
        else s!"Found {found.length} file(s) matching '{str normalized}'."
      .ok { ok := true, message, filepath := normalized, candidates := found }

/-! ## `grep_files` -/

/-- `_parse_extensions`. -/
def parseExtensions (value : Text) : List Text :=
  (((value.filter (· ≠ ' ')).splitOn ',').map fun item => t.casing.lower (strip item)).filterMap
    fun item => if item = [] then none
      else if item.head? = some '.' then some item else some ('.' :: item)

/-- The lines a text file iterates over, each with its line end. -/
def fileLines : Text → Text → List Text
  | acc, [] => if acc.isEmpty then [] else [acc.reverse]
  | acc, '\n' :: s => ('\n' :: acc).reverse :: fileLines [] s
  | acc, c :: s => fileLines (c :: acc) s

/-- The matching lines of one file. -/
def grepFile (query : Text) (p : Path) : List Match :=
  match t.disk.content p with
  | none => []
  | some bytes =>
    (((fileLines [] (translateNewlines (decodeIgnore bytes))).zipIdx 1).filter
      fun line => (find query line.1).isSome).map
        fun line => ⟨p, line.2, (line.1.rdropWhile (· == '\n')).take 200⟩

/-- The loop of `grep_files` over the walked files: it stops when a match
reaches `limit`, which is looked at after a match is taken. -/
def grepLoop (query : Text) (extensions : List Text) (limit : Nat) :
    List Path → List Match × Nat × Bool
  | [] => ([], 0, false)
  | p :: rest =>
    if (extensions ≠ [] ∧ t.casing.lower (suffixOf p.name) ∉ extensions)
        ∨ t.isReadableText p = false then grepLoop query extensions limit rest
    else
      let here := t.grepFile query p
      if limit ≤ here.length ∧ here ≠ [] then (here.take limit, 1, true)
      else
        let (more, scanned, truncated) := grepLoop query extensions (limit - here.length) rest
        (here ++ more, scanned + 1, truncated)

/-- The path `grep_files` searches for `.` when the scope has one root. -/
def grepPath (path : Text) : Option Text :=
  let normalized := normalizeOr path ['.']
  match t.allowedReadPaths, normalized == ['.'] with
  | some [item], true => some (t.scopedReadPath item)
  | some _, true => none
  | _, _ => some (t.scopedReadPath normalized)

/-- `grep_files(query, path, extensions, limit)`. -/
def grepFiles (query path extensions : Text) (limit : Int) : Except Exn ToolResult :=
  if t.isPlaceholderQuery query then
    .ok { ok := false, filepath := query,
          message := s!"Missing or placeholder query \"{str (strip query)}\". "
            ++ "Pass a concrete symbol or text string to grep_files." }
  else match t.grepPath path with
    | none => .ok { ok := false, message := "Pass one active project root as the grep path.",
                    filepath := query, readScope := t.allowedReadPaths.getD [] }
    | some normalized =>
      if t.insideAllowedReadScope normalized then
        match validate t.root normalized with
        | .error e =>
          if e.kind = .security then .ok { ok := false, message := e.message, filepath := query }
          else .error e
        | .ok target =>
          if t.disk.present target then
            -- a file is searched through its directory
            let base := if t.disk.isDir target then target else target.parent
            let (found, scanned, truncated) := t.grepLoop query (t.parseExtensions extensions)
              (max limit.toNat 1) (walkWorkspaceFiles t.disk base)
            .ok { ok := true, filepath := query, grepMatches := found, truncated,
                  message := s!"Found {found.length} match(es) for '{str query}' across "
                    ++ s!"{scanned} file(s)."
                    ++ if truncated then s!" Output capped at {limit} matches; narrow the "
                        ++ "query or set extensions." else "" }
          else .ok { ok := false, filepath := query,
                     message := s!"Search path not found: {str path}" }
      else .ok { ok := false, filepath := query,
                 message := s!"Refused to search {str path}: it is outside the active project "
                  ++ "read scope." }

end AgentTools

/-- A call of a read tool. -/
inductive ReadCall where
  | listFiles (path : Text)
  | readFile (filepath : Text) (startLine endLine : Option Int)
  | fileInfo (filepath : Text)
  | findFile (query : Text) (limit : Int)
  | grepFiles (query path extensions : Text) (limit : Int)

/-- The result of a call, or the exception it ends with. -/
def ReadCall.run (t : AgentTools) : ReadCall → Except Exn ToolResult
  | .listFiles path => t.listFiles path
  | .readFile filepath startLine endLine => t.readFile filepath startLine endLine
  | .fileInfo filepath => t.fileInfo filepath
  | .findFile query limit => t.findFile query limit
  | .grepFiles query path extensions limit => t.grepFiles query path extensions limit

/-- The files a result discloses; an exception shows none. -/
def disclosedBy : Except Exn ToolResult → List Path
  | .ok r => r.disclosed
  | .error _ => []

end Shamsu.Tools
