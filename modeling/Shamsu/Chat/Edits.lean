import Shamsu.Tools.Writing

/-!
# The edits of a chat turn

`shamsu/agents/simple_chat.py`: `SimpleChatLoop._execute` for `patch_file`,
`read_and_patch`, `write_file`, `append_file` and `replace_symbol`. The first
three go to the write tools and are judged when the file is on disk; the last
two write it themselves. An edit that is judged bad is taken back by writing the
text the file was read as.
-/

namespace Shamsu.Chat

open Shamsu.Lib Shamsu.Py Shamsu.Safety Shamsu.Patch Shamsu.Tools

/-- A chat loop, with the parsers it asks. -/
structure Loop where
  registry : Registry
  /-- `check_file`: the problem of a file with these bytes. -/
  checkFile : Path → Bytes → Option String
  /-- `unfinished_blocks(text, suffix)`. -/
  unfinishedBlocks : Text → Text → Bool
  /-- The names `outline(text, suffix)` declares, without what they are in. -/
  outline : Text → Text → List Text
  outline_nil : ∀ suffix, outline [] suffix = []
  /-- `_strip_line_numbers`, of one argument. -/
  stripLineNumbers : Text → Text
  /-- `_refuse_blind_overwrite` and `_prefer_patch_over_rewrite`, as the loop's
  memory stands. -/
  refuseRewrite : FS → Text → Option String
  /-- The text `replace_symbol` makes of the file, from its text, its suffix, the
  symbol and the content; or why it is not applied. -/
  replaceSymbol : Text → Text → Text → Text → Except String Text

/-- A call that edits a file. -/
inductive EditCall where
  | patchFile (filepath old new : Text) (replaceAll : Bool)
  | readAndPatch (filepath old new : Text)
  | writeFile (filepath content : Text)
  | appendFile (filepath content : Text)
  | replaceSymbol (filepath symbol content : Text)

def EditCall.filepath : EditCall → Text
  | .patchFile filepath .. | .readAndPatch filepath .. | .writeFile filepath ..
  | .appendFile filepath .. | .replaceSymbol filepath .. => filepath

namespace Loop

variable (c : Loop)

def root : Path := c.registry.engine.root

/-- `target.read_text(encoding="utf-8", errors="replace")`. -/
def textAt (d : FS) (p : Path) : Option Text := (d.content p).map readReplace

/-- `_snapshot`: a path that cannot be read is an empty text. -/
def snapshotText (filepath : Text) : Prog Exn World Text := Prog.read fun w =>
  if strip filepath = [] then .ok []
  else if '\x00' ∈ strip filepath then .error ⟨.value, "embedded null byte"⟩
  else .ok ((textAt w.disk (locate c.root (strip filepath))).getD [])

/-- `_symbols_erased`. -/
def symbolsErased (before after suffix : Text) : List Text :=
  (c.outline before suffix).filter (· ∉ c.outline after suffix)

/-- `OSError`s of `x` do not matter, or matter to `otherwise`. -/
def catchOSError {α : Type} (x : Prog Exn World α) (otherwise : Exn → Prog Exn World α) :
    Prog Exn World α :=
  Prog.handle x fun e => if e.kind.isOSError then otherwise e else Prog.raise e

/-- The refusal of an edit that removed the last definition of `erased`. -/
def notApplied (path : Text) (erased : List Text) : Reply where
  ok := false
  filepath := path
  rolledBack := some true
  message := s!"NOT APPLIED - {str path} is back as it was. That edit removed the last "
    ++ "definition of: " ++ ", ".intercalate (erased.map str) ++ "."

/-- The same, where the file could not be put back. -/
def notRestored (path : Text) (erased : List Text) : Reply where
  ok := false
  filepath := path
  rolledBack := some false
  message := s!"{str path} lost " ++ ", ".intercalate (erased.map str)
    ++ " and could NOT be restored. Check the file before going further."

/-- `_erased_a_definition`: put the file back if the edit removed the last of
something. -/
def erasedADefinition (filepath before : Text) : Prog Exn World (Option Reply) := fun w =>
  match validate c.root (strip filepath) with
  | .error _ => (.ok none, w)
  | .ok target =>
    match textAt w.disk target with
    | none => (.ok none, w)
    | some after =>
      match c.symbolsErased before after (suffixOf target.name) with
      | [] => (.ok none, w)
      | erased =>
        (catchOSError (do
          onDisk (writeText target before)
          pure (some (notApplied (strip filepath) erased))) fun _ =>
            pure (some (notRestored (strip filepath) erased))) w

/-- A mutating tool of the registry, judged when it is done. -/
def judged (filepath : Text) (tool : Prog Exn World Reply) : Prog Exn World Reply := do
  let before ← c.snapshotText filepath
  let reply ← Prog.handle tool fun e =>
    pure { ok := false, message := s!"{e.kind.className}: {e.message}" }
  if reply.ok && strip filepath ≠ [] then
    match ← c.erasedADefinition filepath before with
    | some refusal => pure refusal
    | none => pure reply
  else pure reply

/-- The text of a file with `content` at its end, on a line of its own. -/
def appendedText (before content : Text) : Text :=
  before ++ (if before = [] ∨ before.getLast? = some '\n' then [] else ['\n']) ++ content

/-- `_append_broke_it`, for a file that was healthy. -/
def appendBrokeIt (d : FS) (target : Path) : Option String :=
  match d.content target with
  | none => none
  | some bytes =>
    match c.checkFile target bytes with
    | none => none
    | some detail =>
      if c.unfinishedBlocks (readReplace bytes) (suffixOf target.name) then none else some detail

/-- `_append_file`. -/
def appendFile (filepath content : Text) : Prog Exn World Reply := fun w =>
  let path := strip filepath
  if path = [] ∨ content = [] then
    (.ok { ok := false, message := "append_file needs a filepath and content." }, w)
  else match validate c.root path with
    | .error e => (.ok { ok := false, message := e.message, filepath := path }, w)
    | .ok target =>
      match (if w.disk.present target then
          (readBytesOf w.disk target).map readReplace else .ok []) with
      | .error e => (.ok { ok := false, message := s!"Could not read {str path}: {e.message}",
                           filepath := path }, w)
      | .ok before =>
        let healthy := w.disk.present target && !isBlank before
          && ((w.disk.content target).bind (c.checkFile target)).isNone
        catchOSError (do
          onDisk (mkdirP target.parent)
          onDisk (writeText target (appendedText before content))
          let broke ← Prog.gets fun w => if healthy then c.appendBrokeIt w.disk target else none
          match broke with
          | some why => do
            -- the file goes back as it was read
            catchOSError (onDisk (writeText target before)) fun _ => pure ()
            pure { ok := false, filepath := path, rolledBack := some true,
                   message := s!"NOT APPENDED - {str path} is back as it was. Adding that to "
                    ++ s!"the END of the file broke it: {why}" }
          | none => pure { ok := true, message := s!"Appended to {str path}.", filepath := path })
          (fun e => pure { ok := false, message := s!"Could not write {str path}: {e.message}",
                           filepath := path }) w

/-- `_replace_symbol`: every judgement comes before the write. -/
def replaceSymbolIn (filepath symbol content : Text) : Prog Exn World Reply := fun w =>
  let path := strip filepath
  if path = [] ∨ strip symbol = [] then
    (.ok { ok := false, message := "replace_symbol needs a filepath, a symbol and content." }, w)
  else match validate c.root path with
    | .error e => (.ok { ok := false, message := e.message, filepath := path }, w)
    | .ok target =>
      match textAt w.disk target with
      | none => (.ok { ok := false, filepath := path, message :=
          s!"Not a file: {str path}. Use find_files to locate it." }, w)
      | some original =>
        match c.replaceSymbol original (suffixOf target.name) (strip symbol) content with
        | .error why => (.ok { ok := false, message := why, filepath := path }, w)
        | .ok body =>
          catchOSError (do
            onDisk (writeText target body)
            pure { ok := true, message := s!"Replaced {str (strip symbol)} in {str path}.",
                   filepath := path })
            (fun e => pure { ok := false, message := s!"Could not write {str path}: {e.message}",
                             filepath := path }) w

/-- `patch_file`. -/
def patchFile (stamp : Stamp) (filepath old new : Text) (replaceAll : Bool) :
    Prog Exn World Reply :=
  c.judged filepath (c.registry.editFile stamp filepath (c.stripLineNumbers old)
    (c.stripLineNumbers new) replaceAll)

/-- `_execute`, for the calls that edit a file. What `read_and_patch` reads when
its patch misses is only shown. -/
def execute (stamp : Stamp) : EditCall → Prog Exn World Reply
  | .patchFile filepath old new replaceAll => c.patchFile stamp filepath old new replaceAll
  | .readAndPatch filepath old new => c.patchFile stamp filepath old new false
  | .writeFile filepath content => do
    let refusal ← Prog.gets fun w => c.refuseRewrite w.disk (strip filepath)
    match refusal with
    | some why => pure { ok := false, message := why, filepath := strip filepath }
    | none => c.judged filepath (c.registry.writeFile stamp filepath content true)
  | .appendFile filepath content => c.appendFile filepath content
  | .replaceSymbol filepath symbol content => c.replaceSymbolIn filepath symbol content

end Loop

end Shamsu.Chat
