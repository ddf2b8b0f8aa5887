import Shamsu.Session.Messages
import Shamsu.Tools.CodeChunks
import Shamsu.Tools.EditPlace
import Shamsu.Tools.Logical

/-!
# Code blocks that become files

`shamsu/agents/markdown_fallback.py`: an answer that shows a file in a fence, where a tool call
was due, is written to the file. There are three ways to a target and a content: blocks that are
introduced by a path, blocks that begin with a path in a comment, and one block for the file that
the user named. Each has its own checks before `write_file` is called.

`maybeWrite_guarded_iff`: what is overwritten keeps the promise of the module (no shorter than
half, Python that does something, JSON that parses) exactly if in the last of these ways a `.json`
file gets JSON and a `.py` file still is Python when its end is trimmed, and `write_file`, where it
writes to another file or another text, happens to keep it. With `read_only` nothing is called.
-/

namespace Shamsu.Tools

open Shamsu.Lib Shamsu.Py Shamsu.Safety Shamsu.Patch Shamsu.Llm Shamsu.Llm.Salvagers

/-- What the fallback has: the tools, and what it asks of Python. -/
structure Fallback where
  registry : Registry
  /-- `\w`. -/
  isWord : Char → Bool
  /-- `is_tool_allowed`. -/
  isToolAllowed : String → Bool
  /-- `ast.parse`: of each statement of the module, whether it is only a literal, a name or a
  display; nothing for a `SyntaxError`. -/
  statements : Text → Option (List Bool)

namespace Fallback

variable (f : Fallback)

/-! ## Patterns -/

/-- `[A-Za-z0-9_]`. -/
def isExt (c : Char) : Bool := c.isAlphanum || c == '_'

/-- The same without case: four letters more. -/
def isExtAnyCase (c : Char) : Bool :=
  isExt c || c == '\u0130' || c == '\u0131' || c == '\u017F' || c == '\u212A'

/-- A block in a fence, with the length of the match. -/
structure Block where
  lang : Text
  code : Text
  length : Nat
  deriving DecidableEq, Repr

/-- `CODE_BLOCK_RE`. -/
def codeBlock (s : Text) : Matches Block :=
  (literal threeTicks s).flatMap fun a =>
    (greedy (fun c => f.isWord c || c == '.' || c == '+' || c == '-') a.2).flatMap fun lang =>
      (greedy isBlankChar lang.2).flatMap fun b =>
        (literal ['\n'] b.2).flatMap fun c =>
          (lazily anyChar c.2).flatMap fun code =>
            (literal threeTicks code.2).map fun close =>
              (⟨lang.1, code.1, s.length - close.2.length⟩, close.2)

/-- Some of `name`, a dot, and some of `ext`. -/
def dotted (name ext : Char → Bool) (s : Text) : Ways :=
  ((greedy name s).filter fun way => !way.1.isEmpty).flatMap fun a =>
    (literal ['.'] a.2).flatMap fun b =>
      ((greedy ext b.2).filter fun way => !way.1.isEmpty).map fun c => (a.1 ++ '.' :: c.1, c.2)

/-- `[\w./\\-]`. -/
def isPathChar (c : Char) : Bool := f.isWord c || c == '.' || c == '/' || c == '\\' || c == '-'

/-- `FILE_TOKEN_RE`. -/
def fileToken : Text → Matches Text
  | [] => []
  | c :: s =>
    if f.isWord c then
      (greedy f.isPathChar s).flatMap fun a =>
        (literal ['.'] a.2).flatMap fun b =>
          ((greedy isExt b.2).filter fun way => decide (1 ≤ way.1.length ∧ way.1.length ≤ 8)).map
            fun d => (c :: (a.1 ++ '.' :: d.1), d.2)
    else []

/-- What is left after one of several words, in any case. -/
def anyTag (tags : List String) (s : Text) : List Text :=
  tags.flatMap fun t => (anyCase t s).map Prod.snd

/-- `["']?`. -/
def maybeQuote : Text → List Text
  | [] => [[]]
  | c :: s => if c == '"' || c == '\x27' then [s, c :: s] else [c :: s]

/-- `PATH_RE`. -/
def pathPhrase (s : Text) : Matches Text :=
  (anyTag ["create", "write", "save", "make", "generate", "add", "edit", "update", "fix"]
      s).flatMap fun a =>
    ((someSpace a).flatMap (fun b => anyTag ["a", "the", "file", "script", "component", "module",
        "test", "tests"] b.2) ++ [a]).flatMap fun c =>
      (someSpace c).flatMap fun d =>
        ((anyTag ["as", "to", "at", "in"] d.2).flatMap (fun e => (someSpace e).map Prod.snd) ++
            [d.2]).flatMap fun g =>
          (maybeQuote g).flatMap fun h =>
            (dotted f.isPathChar isExtAnyCase h).flatMap fun path =>
              (maybeQuote path.2).map fun rest => (path.1, rest)

/-- `(?:\#+|//+|--|<!--|/\*)?`. -/
def maybeComment (s : Text) : Ways :=
  atLeast 1 '#' s ++ atLeast 2 '/' s ++ literal "--".toList s ++ literal "<!--".toList s ++
    literal "/*".toList s ++ [([], s)]

/-- `_TOOL_HEADER_RE`: the path. -/
def headerPath (s : Text) : Matches Text :=
  (greedy isSpace s).flatMap fun a =>
    (maybeComment a.2).flatMap fun b =>
      (greedy isSpace b.2).flatMap fun c =>
        (toolName c.2).flatMap fun d =>
          (greedy isSpace d.2).flatMap fun e =>
            (separator e.2).flatMap fun g =>
              (greedy isSpace g.2).flatMap fun h =>
                (greedy (fun c => !isSpace c) h.2).filter fun path => !path.1.isEmpty

/-- `\s*(?://|#|/\*)\s*`, then the path. -/
def commentedPath (s : Text) : Matches Text :=
  (greedy isSpace s).flatMap fun a =>
    (literal "//".toList a.2 ++ literal "#".toList a.2 ++ literal "/*".toList a.2).flatMap fun b =>
      (greedy isSpace b.2).flatMap fun c =>
        dotted (fun c => f.isPathChar c || c == ' ') isExt c.2

/-- `_path_from_comment`. -/
def pathFromComment (line : Text) : Text :=
  match (headerPath line).head?, (f.commentedPath line).head? with
  | some (path, _), _ => posixText (strip path)
  | none, some (path, _) => posixText (strip path)
  | none, none => []

/-! ## Blocks -/

/-- The blocks of the answer, each with the text before it. -/
def codeBlocks (content : Text) : List (Text × Block) := findAll f.codeBlock content

/-- The `(lang, code)` pairs. -/
def blocks (content : Text) : List (Text × Text) :=
  (f.codeBlocks content).map fun b => (f.registry.casing.lower (strip b.2.lang), b.2.code)

/-- `_RUN_COMMAND_LINE_RE.match`. -/
def isRunCommandLine (line : Text) : Bool :=
  let s := line.dropWhile isSpace
  let s := match s with
    | '$' :: s => s.dropWhile isSpace
    | '>' :: s => s.dropWhile isSpace
    | s => s
  (anyTag ["python3", "python", "node", "npm", "npx", "pip3", "pip", "pytest", "bash", "sh", "cmd",
    "powershell"] s).any fun rest => !(rest.head?.map f.isWord).getD false

/-- `_is_run_command_block`. -/
def isRunCommandBlock (code : Text) : Bool :=
  let lines := (splitlines (strip code)).filter fun line => strip line != []
  lines != [] && decide (lines.length ≤ 3) && lines.all f.isRunCommandLine

/-- `_infer_block_paths`. -/
def inferBlockPaths (blocks : List Text) : List (Text × Text) :=
  blocks.filterMap fun block =>
    match splitlines (strip block) with
    | [] => none
    | first :: rest =>
      if f.pathFromComment first = [] ∨ strip (join '\n' rest) = [] then none
      else some (f.pathFromComment first, join '\n' rest)

/-- The last of the paths in the 500 characters before a block. -/
def introducedPath (introduction : Text) : Text :=
  let tokens := findAll f.fileToken (introduction.drop (introduction.length - 500))
  ((tokens.map fun m => posixText m.2).getLast?).getD []

/-- `_infer_named_blocks`, from where the block before ended. -/
def namedFrom : Nat → List (Text × Block) → List (Text × Text)
  | _, [] => []
  | previousEnd, (before, b) :: blocks =>
    let rest := namedFrom (before.length + b.length) blocks
    match splitlines (strip b.code) with
    | [] => rest
    | first :: lines =>
      if f.isRunCommandBlock b.code then rest
      else
        let commented := f.pathFromComment first
        let code := if commented = [] then strip b.code else join '\n' lines
        let path := if commented = [] then f.introducedPath (before.drop previousEnd) else commented
        if path = [] ∨ strip code = [] then rest else (path, code) :: rest

def inferNamedBlocks (content : Text) : List (Text × Text) := f.namedFrom 0 (f.codeBlocks content)

/-- `Path(path).suffix.lower()`. -/
def extension (path : Text) : Text := f.registry.casing.lower (suffixOf (nameOf path))

/-- `_parses_as_python`. -/
def parsesAsPython (code : Text) : Bool :=
  match f.statements code with
  | none => false
  | some body => body != [] && !body.all id

/-- `_valid_source_for_path`. -/
def validSourceForPath (path code : Text) : Bool :=
  if f.extension path = ".py".toList then f.parsesAsPython code
  else if f.extension path = ".json".toList ∧ Session.loads code = none then false
  else strip code != []

/-- `_USAGE_LANGS`. -/
def usageLangs : List Text :=
  (["bash", "sh", "shell", "console", "cmd", "powershell", "text", "output", ""] :
    List String).map String.toList

/-- `_EXT_LANGS`. -/
def extLangs (extension : Text) : List Text :=
  ((([(".py", ["python", "py", "python3"]), (".js", ["javascript", "js"]),
    (".jsx", ["jsx", "javascript"]), (".ts", ["typescript", "ts"]),
    (".tsx", ["tsx", "typescript"]), (".html", ["html"]), (".css", ["css"]),
    (".json", ["json"]), (".md", ["markdown", "md"])] :
    List (String × List String)).lookup (str extension)).getD []).map String.toList

/-- `_content_blocks_for`. -/
def contentBlocksFor (path : Text) (blocks : List (Text × Text)) : List (Text × Text) :=
  let candidates := blocks.filter fun b => !f.isRunCommandBlock b.2
  let tagged := candidates.filter fun b => (extLangs (f.extension path)).contains b.1
  let nonUsage := candidates.filter fun b => !usageLangs.contains b.1
  let candidates :=
    if candidates.length ≤ 1 then candidates
    else if tagged.length = 1 then tagged
    else if nonUsage.length = 1 then nonUsage
    else candidates
  if f.extension path = ".py".toList then candidates.filter fun b => f.parsesAsPython b.2
  else candidates

/-- `_only_empty_package_marker_blocks`. -/
def onlyEmptyPackageMarkerBlocks (blocks : List (Text × Text)) (target : Text) : Bool :=
  let target := posixText target
  blocks.all fun b =>
    match (splitlines b.2).filterMap fun line =>
        if strip line = [] then none else some (strip line) with
    | [] => true
    | [line] =>
      let path := f.pathFromComment line
      path != [] && (target == path || ('/' :: path).isSuffixOf target)
    | _ => false

/-! ## Targets -/

/-- `_resolve`. -/
def resolve (relative : Text) : Option Path := (validate f.registry.root relative).toOption

/-- `target is not None and target.is_file()`. -/
def isFile (d : FS) (path : Text) : Bool := (f.resolve path).any d.isFile

/-- `_plausible_replacement`. -/
def plausibleReplacement (d : FS) (target : Path) (code : Text) : Bool :=
  match readTextOf d target with
  | .ok current => decide ((splitlines current).length ≤ (splitlines code).length * 2)
  | .error _ => false

/-- `sole_allowed_write_path`. -/
def soleAllowedWritePath : Text :=
  match f.registry.allowedWritePaths with
  | some [path] => path
  | _ => []

/-- `_existing_file_mentioned`. -/
def existingFileMentioned (d : FS) (userInput : Text) : Text :=
  let candidates := (findAll f.fileToken userInput).map fun m => dropDotSlash (posixText m.2)
  match (candidates.filter (f.isFile d)).dedup with
  | [path] => path
  | _ => []

/-- `_infer_path`. -/
def inferPath (userInput : Text) : Text :=
  let tokens := ((findAll f.fileToken userInput).map fun m => posixText m.2).dedup
  if tokens.length > 1 then []
  else match (findAll f.pathPhrase userInput).head? with
    | some (_, path) => posixText (strip path)
    | none => []

/-- The target of the turn. -/
def target (d : FS) (userInput : Text) : Text :=
  if f.soleAllowedWritePath ≠ [] then f.soleAllowedWritePath
  else if f.existingFileMentioned d userInput ≠ [] then f.existingFileMentioned d userInput
  else f.inferPath userInput

/-! ## Writing -/

inductive Route where
  /-- A block with a path in the text before it, or in its first line. -/
  | named
  /-- A block with a path in its first line, where there is no target. -/
  | headed
  /-- The one block for the target. -/
  | single
  /-- An empty `__init__.py`. -/
  | marker
  deriving DecidableEq, Repr

/-- A call of `write_file`, with its transaction and the disk before and after it. -/
structure Call where
  id : Text
  before : FS
  after : FS
  route : Route
  path : Text
  content : Text
  overwrite : Bool

/-- The world, with the calls that were made. -/
structure Observed where
  world : World
  calls : List Call

/-- `FallbackResult`. -/
structure Result where
  handled : Bool
  summary : String := ""
  toolResults : List Reply := []

/-- `self.tools.write_file`. -/
def write (stamps : Nat → Stamp) (route : Route) (path content : Text) (overwrite : Bool) :
    Prog Exn Observed Reply := fun s =>
  let stamp := stamps s.calls.length
  let (reply, world) := f.registry.writeFile stamp path content overwrite s.world
  (reply, ⟨world,
    s.calls ++ [⟨stamp.id, s.world.disk, world.disk, route, path, content, overwrite⟩]⟩)

/-- `block.rstrip() + "\n"`. -/
def trimmedEnd (block : Text) : Text := rstrip block ++ ['\n']

/-- One of several blocks, unless it is unsafe or incomplete. -/
def writeBlock (stamps : Nat → Stamp) (route : Route) (path block : Text) :
    Prog Exn Observed (Option Reply) := fun s =>
  let code := trimmedEnd block
  match f.resolve path with
  | none => (.ok none, s)
  | some target =>
    if f.validSourceForPath path code = false then (.ok none, s)
    else if s.world.disk.isFile target ∧ plausibleReplacement s.world.disk target code = false then
      (.ok none, s)
    else (f.write stamps route path code (s.world.disk.isFile target) >>= fun reply =>
      pure (some reply)) s

def writeBlocks (stamps : Nat → Stamp) (route : Route) :
    List (Text × Text) → Prog Exn Observed (List Reply)
  | [] => pure []
  | (path, block) :: blocks => do
    let reply ← f.writeBlock stamps route path block
    let replies ← writeBlocks stamps route blocks
    pure (reply.toList ++ replies)

/-- The one block for a target. -/
def writeSingle (stamps : Nat → Stamp) (path lang block : Text) : Prog Exn Observed Result := fun s =>
  let code := trimmedEnd block
  match (f.resolve path).filter s.world.disk.isFile with
  | some target =>
    if lang ∈ usageLangs ∧ (splitlines (strip code)).length ≤ 1 then (.ok ⟨false, "", []⟩, s)
    else if plausibleReplacement s.world.disk target code = false then
      (.ok ⟨true, s!"The code block does not look like a COMPLETE replacement for {str path} "
        ++ "(it is much shorter than the current file). Apply the change with "
        ++ "edit_file instead of rewriting the whole file.", []⟩, s)
    else (f.write stamps .single path code true >>= fun reply =>
      pure ⟨true, reply.message, [reply]⟩) s
  | none => (f.write stamps .single path code false >>= fun reply =>
      pure ⟨true, reply.message, [reply]⟩) s

/-- `maybe_write`, where no block was written under a path of its own. -/
def writeTarget (stamps : Nat → Stamp) (path : Text) (blocks : List (Text × Text)) :
    Prog Exn Observed Result :=
  if path = [] ∨ blocks = [] then do
    let replies ← f.writeBlocks stamps .headed (f.inferBlockPaths (blocks.map Prod.snd))
    if replies = [] then pure ⟨false, "", []⟩
    else pure ⟨true, s!"Markdown fallback wrote {replies.countP Reply.ok}/{replies.length} file(s).",
      replies⟩
  else
    match f.contentBlocksFor path blocks with
    | [] =>
      if f.soleAllowedWritePath ≠ [] ∧ nameOf path = "__init__.py".toList ∧
          f.onlyEmptyPackageMarkerBlocks blocks path then do
        let reply ← f.write stamps .marker path [] false
        pure ⟨true, reply.message, [reply]⟩
      else pure ⟨false, "", []⟩
    | [(lang, block)] => f.writeSingle stamps path lang block
    | _ => pure ⟨true,
        "I found multiple code blocks and need a single target before writing a file.", []⟩

/-- Why nothing is written where `write_file` is not allowed. -/
def unavailable : String :=
  if f.soleAllowedWritePath ≠ [] ∧ f.isToolAllowed "append_file" ∧
      f.isToolAllowed "edit_file" = false then
    "Do not show the source as a code block. Your NEXT response must call "
      ++ s!"append_file with filepath=\x27{str f.soleAllowedWritePath}\x27 and content containing "
      ++ "only the required new declarations. Do not call run_command before append_file "
      ++ "returns ok; the harness runs verification afterward."
  else "write_file is unavailable for this focused repair. Read the target and use "
    ++ "edit_file or append_file so unrelated content is preserved."

/-- `maybe_write`. -/
def maybeWrite (stamps : Nat → Stamp) (userInput content : Text) (readOnly : Bool) :
    Prog Exn Observed Result :=
  if readOnly then pure ⟨false, "", []⟩
  else if f.blocks content ≠ [] ∧ f.isToolAllowed "write_file" = false then
    pure ⟨true, f.unavailable, []⟩
  else do
    let path ← Prog.gets fun s => f.target s.world.disk userInput
    let named := f.inferNamedBlocks content
    if named ≠ [] ∧ (path = [] ∨ suffixOf (nameOf path) = [] ∨ 1 < named.length) then
      let replies ← f.writeBlocks stamps .named named
      if replies ≠ [] then
        let skipped := named.length - replies.length
        pure ⟨true, s!"Markdown fallback applied {replies.countP Reply.ok}/{replies.length} "
          ++ "explicit file block(s)"
          ++ (if skipped = 0 then "." else s!" and skipped {skipped} unsafe/incomplete block(s)."),
          replies⟩
      else f.writeTarget stamps path (f.blocks content)
    else f.writeTarget stamps path (f.blocks content)

/-! ## What is promised -/

/-- A file that was there has another content, and is not the copy that the transaction keeps. -/
def Overwrites (c : Call) (p : Path) (new : Bytes) : Prop :=
  (∃ old, c.before.content p = some old ∧ old ≠ new) ∧ c.after.content p = some new ∧
    ∀ x, f.registry.resolvedReadPath c.before (f.registry.scopedWritePath c.path) = .ok x →
      locate f.registry.root (normalizeWorkspacePath x) = p ∨
        ¬ transactionBackup f.registry.root c.id (normalizeWorkspacePath x) <+: p

/-- Python that does something for `.py`, and JSON for `.json`. -/
def IsSource (extension text : Text) : Prop :=
  (extension = ".py".toList → f.parsesAsPython text = true) ∧
    (extension = ".json".toList → Session.loads text ≠ none)

/-- The promise of the module about the new content of a file. -/
def Promised (d : FS) (p : Path) (new : Bytes) : Prop :=
  ∃ current text, readTextOf d p = .ok current ∧ new = encodeUtf8 text ∧
    (splitlines current).length ≤ (splitlines text).length * 2 ∧
    f.IsSource (f.registry.casing.lower (suffixOf p.name)) text

/-- What the call overwrites keeps the promise. -/
def Guarded (c : Call) : Prop :=
  ∀ p new, f.Overwrites c p new → f.Promised c.before p new

/-- `write_file` takes the text as it is, for the file that the fallback looked at, which has
the name that it looked at. -/
structure Direct (c : Call) : Prop where
  asSent : f.registry.unwrap c.content = none
  there : ∀ x, f.registry.resolvedReadPath c.before (f.registry.scopedWritePath c.path) = .ok x →
    locate f.registry.root (normalizeWorkspacePath x) = locate f.registry.root c.path
  named : (locate f.registry.root c.path).name = nameOf c.path

/-- Of one call: what the checks before it have found. -/
structure Vetted (path : Text) (blocks : List (Text × Text)) (c : Call) : Prop where
  made : ∃ stamp w, stamp.id = c.id ∧ w.disk = c.before ∧
    (f.registry.writeFile stamp c.path c.content c.overwrite w).2.disk = c.after
  suits : c.overwrite = true → ∃ target, f.resolve c.path = some target ∧
    plausibleReplacement c.before target c.content = true
  valid : c.overwrite = true → c.route ≠ .single → f.validSourceForPath c.path c.content = true
  single : c.route = .single → c.path = path ∧
    ∃ lang block, f.contentBlocksFor path blocks = [(lang, block)] ∧ c.content = trimmedEnd block

/-! ## One call -/

variable {f} {path : Text} {blocks : List (Text × Text)} {c : Call} {p : Path} {new : Bytes}

/-- A write changes its file, and the copy that is kept of it. -/
theorem commitWrite_changes {r : Registry} {stamp : Stamp} {key text : Text} {target : Path}
    {create : Bool} :
    DiskKeeps (Only fun p => target <+: p ∨ transactionBackup r.root stamp.id key <+: p)
      (r.commitWrite stamp key target text create) :=
  DiskKeeps.bind Registry.beginTransaction_only fun _ =>
  DiskKeeps.bind (snapshot_diskKeeps (mkdirP_only _) fun _ =>
    copy2_only fun s => Or.inr (List.prefix_append _ s)) fun _ =>
  DiskKeeps.bind (DiskKeeps.disk (mkdirP_only _)) fun _ =>
  DiskKeeps.bind (DiskKeeps.disk (writeText_only (Or.inl (List.prefix_refl _)))) fun _ =>
  DiskKeeps.bind (DiskKeeps.recordAfter _ _ _) fun _ =>
  DiskKeeps.bind Registry.finalize_diskKeeps fun _ => DiskKeeps.pure _

/-- `write_file` overwrites a file only where its plan is to replace it. -/
theorem replaces_of_overwrites {stamp : Stamp} {w : World} (hid : stamp.id = c.id)
    (hbefore : w.disk = c.before)
    (hafter : (f.registry.writeFile stamp c.path c.content c.overwrite w).2.disk = c.after)
    (h : f.Overwrites c p new) :
    c.overwrite = true ∧ ∃ key text,
      f.registry.Replaces c.before c.path c.content key p text ∧ new = encodeUtf8 text := by
  obtain ⟨⟨old, hold, hne⟩, hnew, hcopy⟩ := h
  have hchanged : c.after.content p ≠ w.disk.content p := by
    rw [hnew, hbefore, hold]
    exact fun heq => hne (Option.some.inj heq).symm
  -- where nothing is written there is nothing to show
  have hsame : ¬ SameFiles w.disk c.after := fun hsame => hchanged (hsame p)
  have hcall : f.registry.writeFile stamp c.path c.content c.overwrite w
      = f.registry.call stamp (.writeFile c.path c.content c.overwrite) w := rfl
  cases hplan : f.registry.plan w.disk (.writeFile c.path c.content c.overwrite) with
  | error e =>
    rw [hcall, Registry.call_of_error hplan] at hafter
    exact absurd (fun q => by rw [← hafter]) hsame
  | ok plan =>
  rw [hcall, Registry.call_of_ok hplan] at hafter
  have honly := Registry.writePlan_onlyWrites hplan
  cases plan with
  | reply reply => exact absurd (fun q => by rw [← hafter]; rfl) hsame
  | move => exact honly.elim
  | delete => exact honly.elim
  | write key target text create =>
  have hv := Registry.Checked.target honly
  cases hrun : f.registry.carryOut stamp (.write key target text create) w with
  | mk res w' =>
  rw [hrun] at hafter
  unfold Registry.carryOut at hrun
  rcases Prog.bind_cases hrun with ⟨_, ha, _⟩ | ⟨answer, w₁, ha, hrun⟩
  · cases ha
  have hdisk : w₁.disk = w.disk := by cases ha; rfl
  cases answer with
  | false =>
    cases hrun
    exact absurd (fun q => by rw [← hafter, ← hdisk]) hsame
  | true =>
  rcases Prog.bind_cases hrun with ⟨e, hcommit, _⟩ | ⟨_, w₂, hcommit, hrun⟩
  · rw [← hdisk, ← hafter] at hsame
    exact absurd (commitWrite_error hv hcommit) hsame
  cases hrun
  obtain ⟨⟨x, hx, rfl⟩, hhow⟩ := Registry.writePlan_write hplan
  -- the write changes its target, and `p` is below no file
  have hp : target = p := by
    rcases hcopy x (hbefore ▸ hx) with hp | hcopy
    · rw [← hp, (validate_ok.mp hv).2.2]
    rcases commitWrite_changes.of_run hcommit p (by rw [hafter, hdisk]; exact hchanged) with
      hbelow | hbelow
    · by_contra hpq
      have hdir := Disk.isDir_above hbelow hpq
        (Disk.present_of_isFile (d := c.before) (by simp [Disk.isFile, hold]))
      rcases hhow with ⟨_, _, hno⟩ | ⟨_, _, hreplaces⟩
      · rw [hbefore, hdir] at hno
        cases hno
      · have hfile := hreplaces.file
        rw [hbefore, Disk.isFile_eq_false_of_isDir hdir] at hfile
        cases hfile
    · exact absurd (hid ▸ hbelow) hcopy
  subst hp
  have hwrote := commitWrite_content hcommit
  rw [hafter, hnew] at hwrote
  rcases hhow with ⟨_, hno, _⟩ | ⟨_, how, hreplaces⟩
  · rw [hbefore, Disk.isFile, hold] at hno
    cases hno
  · exact ⟨how, _, text, hbefore ▸ hreplaces, Option.some.inj hwrote⟩

/-- A direct call brings the text and the name that were checked. -/
theorem Vetted.overwrites (h : f.Vetted path blocks c) (hd : f.Direct c)
    (ho : f.Overwrites c p new) :
    c.overwrite = true ∧ new = encodeUtf8 c.content ∧
      f.registry.casing.lower (suffixOf p.name) = f.extension c.path ∧
      ∃ current, readTextOf c.before p = .ok current ∧
        (splitlines current).length ≤ (splitlines c.content).length * 2 := by
  obtain ⟨stamp, w, hid, hbefore, hafter⟩ := h.made
  obtain ⟨how, key, text, hreplaces, rfl⟩ := replaces_of_overwrites hid hbefore hafter ho
  obtain ⟨target, htarget, hsuits⟩ := h.suits how
  obtain ⟨x, hx, -, rfl, -⟩ := hreplaces.resolved
  -- where the fallback looked is where `write_file` writes
  have hp : locate f.registry.root c.path = p := by
    rw [← hd.there x hx]
    exact (validate_ok.mp hreplaces.inside).2.2
  have hplace : target = p := by
    unfold resolve at htarget
    cases hv : validate f.registry.root c.path with
    | error e =>
      rw [hv] at htarget
      cases htarget
    | ok t =>
      rw [hv] at htarget
      cases htarget
      rw [← hp, (validate_ok.mp hv).2.2]
  subst hplace
  have htext : text = c.content := by
    rw [hreplaces.unwrapped, hd.asSent]
    rfl
  refine ⟨how, by rw [htext], ?_, ?_⟩
  · unfold extension
    rw [← hd.named, hp]
  · unfold plausibleReplacement at hsuits
    split at hsuits
    next current hcurrent => exact ⟨current, hcurrent, of_decide_eq_true hsuits⟩
    next => cases hsuits

/-- `_valid_source_for_path` sees to the Python and the JSON. -/
theorem isSource_of_valid {path code : Text} (h : f.validSourceForPath path code = true) :
    f.IsSource (f.extension path) code := by
  unfold validSourceForPath at h
  split at h
  next hpy => exact ⟨fun _ => h, fun hjson => absurd (hpy.symm.trans hjson) (by decide)⟩
  next hpy =>
    refine ⟨fun he => absurd he hpy, fun hjson hnone => ?_⟩
    rw [if_pos ⟨hjson, hnone⟩] at h
    cases h

/-- What a direct call overwrites keeps the promise if the text is source. -/
theorem Vetted.promised_iff (h : f.Vetted path blocks c) (hd : f.Direct c)
    (ho : f.Overwrites c p new) :
    f.Promised c.before p new ↔ (c.route = .single → f.IsSource (f.extension c.path) c.content) := by
  obtain ⟨how, rfl, hext, current, hcurrent, hlines⟩ := h.overwrites hd ho
  constructor
  · rintro ⟨_, text, _, heq, _, hsource⟩ _
    rw [← hext, encodeUtf8_injective heq]
    exact hsource
  · intro hsource
    refine ⟨current, c.content, hcurrent, rfl, hlines, ?_⟩
    rw [hext]
    by_cases hroute : c.route = .single
    · exact hsource hroute
    · exact isSource_of_valid (h.valid how hroute)

/-! ## All calls -/

variable (f path blocks) in
/-- Calls are only added, and each of them is vetted. -/
def Logged (s s' : Observed) : Prop :=
  ∃ more, s'.calls = s.calls ++ more ∧ ∀ c ∈ more, f.Vetted path blocks c

theorem Logged.refl (s : Observed) : f.Logged path blocks s s := ⟨[], by simp⟩

theorem Logged.trans (a b c : Observed) (hab : f.Logged path blocks a b)
    (hbc : f.Logged path blocks b c) : f.Logged path blocks a c := by
  obtain ⟨l, hl, hvet⟩ := hab
  obtain ⟨m, hm, hvet'⟩ := hbc
  refine ⟨l ++ m, by rw [hm, hl, List.append_assoc], fun c hc => ?_⟩
  rcases List.mem_append.mp hc with hc | hc
  · exact hvet c hc
  · exact hvet' c hc

variable {stamps : Nat → Stamp}

/-- The step: a call of `write_file` is logged if it is vetted. -/
theorem write_logged {route : Route} {key code : Text} {overwrite : Bool} {s : Observed}
    (hsuits : overwrite = true → ∃ target, f.resolve key = some target ∧
      plausibleReplacement s.world.disk target code = true)
    (hvalid : overwrite = true → route ≠ .single → f.validSourceForPath key code = true)
    (hsingle : route = .single → key = path ∧ ∃ lang block,
      f.contentBlocksFor path blocks = [(lang, block)] ∧ code = trimmedEnd block) :
    f.Logged path blocks s (f.write stamps route key code overwrite s).2 := by
  refine ⟨_, rfl, fun c hc => ?_⟩
  rw [List.mem_singleton] at hc
  subst hc
  exact ⟨⟨stamps s.calls.length, s.world, rfl, rfl, rfl⟩, hsuits, hvalid, hsingle⟩

/-- What follows a call that is logged adds nothing. -/
theorem logged_bind_pure {α β : Type} {x : Prog Exn Observed α} {g : α → β} {s : Observed}
    (h : f.Logged path blocks s (x s).2) :
    f.Logged path blocks s ((x >>= fun a => pure (g a)) s).2 := by
  rw [Prog.bind_apply]
  cases hx : x s with
  | mk r s' =>
    rw [hx] at h
    cases r <;> exact h

theorem writeBlock_logged {route : Route} (hroute : route ≠ .single) (key block : Text) :
    Prog.Keeps (f.Logged path blocks) (f.writeBlock stamps route key block) := by
  intro s
  unfold writeBlock
  dsimp only
  cases htarget : f.resolve key with
  | none => exact Logged.refl s
  | some target =>
    dsimp only
    by_cases hvalid : f.validSourceForPath key (trimmedEnd block) = false
    · rw [if_pos hvalid]
      exact Logged.refl s
    rw [if_neg hvalid]
    by_cases hshort : s.world.disk.isFile target = true ∧
        plausibleReplacement s.world.disk target (trimmedEnd block) = false
    · rw [if_pos hshort]
      exact Logged.refl s
    rw [if_neg hshort]
    apply logged_bind_pure
    apply write_logged
    · intro hfile
      refine ⟨target, htarget, ?_⟩
      by_contra hno
      exact hshort ⟨hfile, eq_false_of_ne_true hno⟩
    · exact fun _ _ => eq_true_of_ne_false hvalid
    · exact fun h => absurd h hroute

theorem writeBlocks_logged {route : Route} (hroute : route ≠ .single) :
    ∀ named, Prog.Keeps (f.Logged path blocks) (f.writeBlocks stamps route named)
  | [] => Prog.Keeps.pure Logged.refl _
  | (key, block) :: named =>
    Prog.Keeps.bind Logged.trans (writeBlock_logged hroute key block) fun _ =>
      Prog.Keeps.bind Logged.trans (writeBlocks_logged hroute named) fun _ =>
        Prog.Keeps.pure Logged.refl _

theorem writeSingle_logged {lang block : Text}
    (hblock : f.contentBlocksFor path blocks = [(lang, block)]) :
    Prog.Keeps (f.Logged path blocks) (f.writeSingle stamps path lang block) := by
  intro s
  unfold writeSingle
  dsimp only
  cases htarget : (f.resolve path).filter s.world.disk.isFile with
  | none =>
    apply logged_bind_pure
    exact write_logged (fun h => by cases h) (fun h => by cases h)
      fun _ => ⟨rfl, lang, block, hblock, rfl⟩
  | some target =>
    dsimp only
    split
    · exact Logged.refl s
    · by_cases hshort : plausibleReplacement s.world.disk target (trimmedEnd block) = false
      · rw [if_pos hshort]
        exact Logged.refl s
      rw [if_neg hshort]
      apply logged_bind_pure
      exact write_logged
        (fun _ => ⟨target, (Option.filter_eq_some_iff.mp htarget).1, eq_true_of_ne_false hshort⟩)
        (fun _ h => absurd rfl h) fun _ => ⟨rfl, lang, block, hblock, rfl⟩

theorem writeTarget_logged :
    Prog.Keeps (f.Logged path blocks) (f.writeTarget stamps path blocks) := by
  unfold writeTarget
  split
  · refine Prog.Keeps.bind Logged.trans (writeBlocks_logged (by decide) _) fun replies => ?_
    split
    · exact Prog.Keeps.pure Logged.refl _
    · exact Prog.Keeps.pure Logged.refl _
  · split
    · split
      · exact fun s => logged_bind_pure
          (write_logged (fun h => by cases h) (fun h => by cases h) (fun h => by cases h))
      · exact Prog.Keeps.pure Logged.refl _
    next lang block hblock => exact writeSingle_logged hblock
    · exact Prog.Keeps.pure Logged.refl _

/-- The run: every call that `maybe_write` makes is vetted. -/
theorem maybeWrite_logged (userInput content : Text) (readOnly : Bool) (s : Observed) :
    f.Logged (f.target s.world.disk userInput) (f.blocks content) s
      (f.maybeWrite stamps userInput content readOnly s).2 := by
  unfold maybeWrite
  split
  · exact Logged.refl s
  · split
    · exact Logged.refl s
    · rw [Prog.bind_of_ok (Prog.gets_apply _ s)]
      dsimp only
      split
      · refine Prog.Keeps.bind Logged.trans (writeBlocks_logged (by decide) _)
          (fun replies => ?_) s
        split
        · exact Prog.Keeps.pure Logged.refl _
        · exact writeTarget_logged
      · exact writeTarget_logged s

/-- For one concrete run: a workspace without locks, where JSON that does not parse breaks it. -/
def unlocked : Fallback where
  registry :=
    { engine := Engine.agreeable
      casing := Casing.ascii
      readOnly := false
      dryRun := false
      allowedWritePaths := none
      allowedReadPaths := none
      readAliases := []
      checkText := fun text suffix =>
        if suffix = ".json".toList ∧ Session.loads text = none then some "JSONDecodeError" else none
      gutting := fun _ _ => none
      looksElided := fun _ => false
      unwrap := fun _ => none
      replaceIn := fun _ _ _ _ => .error "old_string not found." }
  isWord := isExt
  isToolAllowed := fun _ => true
  statements := fun _ => none

end Fallback

end Shamsu.Tools
