import Shamsu.Tools.Reading

/-!
# The reads of a chat session

`shamsu/agents/simple_chat.py`: what `SimpleChatLoop._execute` puts around
`read_file`, what `_run_tools` does with the result, and the guard in front of
`write_file`. The loop remembers reads in four places:

- `_partial_reads`, of the session: the files the model has seen only part of;
- `_seen_ranges`: the ranges read of them so far;
- `_ranges_sent` and `_read_digests`: what need not be sent again.

A dictionary of lists is a function, with `[]` where it has no key. What a call
does to files is for the tools to say: here it is any change.
-/

namespace Shamsu.Chat

open Shamsu.Lib Shamsu.Py Shamsu.Safety Shamsu.Tools

/-! ## Ranges -/

/-- The order `sorted(ranges)` uses. -/
def rangeLe (a b : Int × Int) : Bool := a.1 < b.1 || (a.1 == b.1 && a.2 ≤ b.2)

/-- The loop of `_covers`: how far the ranges reach without a gap. -/
def reachFrom : Int → List (Int × Int) → Option Int
  | reach, [] => some reach
  | reach, (start, stop) :: ranges =>
    if reach + 1 < start then none else reachFrom (max reach stop) ranges

/-- `_covers`. -/
def covers (ranges : List (Int × Int)) (totalLines : Int) : Bool :=
  if totalLines ≤ 0 then false
  else match reachFrom 0 (ranges.mergeSort rangeLe) with
    | none => false
    | some reach => totalLines ≤ reach

/-- `i` is in one of the ranges. -/
def InRanges (ranges : List (Int × Int)) (i : Int) : Prop :=
  ∃ r ∈ ranges, r.1 ≤ i ∧ i ≤ r.2

instance (ranges : List (Int × Int)) (i : Int) : Decidable (InRanges ranges i) :=
  inferInstanceAs (Decidable (∃ r ∈ ranges, r.1 ≤ i ∧ i ≤ r.2))

/-- The lines `range(start, end + 1)`. -/
def linesOf (start stop : Int) : List Int :=
  (List.range (stop + 1 - start).toNat).map fun n => start + n

/-- `_covered_fraction(wanted, seen) >= RANGE_ALREADY_SEEN_FRACTION`, in whole
numbers. -/
def mostlyCovered (start stop : Int) (seen : List (Int × Int)) : Bool :=
  let requested := linesOf start stop
  let covered := requested.filter fun i => InRanges seen i
  requested ≠ [] && 9 * requested.length ≤ 10 * covered.length

theorem not_inRanges_nil {i : Int} : ¬ InRanges [] i := by
  intro h
  obtain ⟨r, hr, _⟩ := h
  cases hr

theorem inRanges_append {ranges : List (Int × Int)} {start stop i : Int} :
    InRanges (ranges ++ [(start, stop)]) i ↔ InRanges ranges i ∨ start ≤ i ∧ i ≤ stop := by
  simp only [InRanges, List.mem_append, List.mem_singleton]
  constructor
  · intro hsome
    obtain ⟨r, hr | rfl, h⟩ := hsome
    · exact .inl ⟨r, hr, h⟩
    · exact .inr h
  · intro hcase
    rcases hcase with ⟨r, hr, h⟩ | h
    · exact ⟨r, .inl hr, h⟩
    · exact ⟨_, .inr rfl, h⟩

theorem reachFrom_sound {ranges : List (Int × Int)} {reach stop : Int}
    (h : reachFrom reach ranges = some stop) {i : Int} (hi : reach < i) (his : i ≤ stop) :
    InRanges ranges i := by
  induction ranges generalizing reach with
  | nil =>
    obtain rfl : reach = stop := Option.some.inj h
    omega
  | cons r ranges ih =>
    obtain ⟨start, last⟩ := r
    unfold reachFrom at h
    split at h
    · cases h
    · rename_i hgap
      by_cases hlast : i ≤ last
      · exact ⟨(start, last), List.mem_cons_self, by show start ≤ i; omega, hlast⟩
      · obtain ⟨r, hr, hin⟩ := ih h (by omega)
        exact ⟨r, List.mem_cons_of_mem _ hr, hin⟩

/-- Ranges that `_covers` takes for the whole file have every line of it. -/
theorem inRanges_of_covers {ranges : List (Int × Int)} {total i : Int}
    (h : covers ranges total = true) (hi : 1 ≤ i) (hit : i ≤ total) : InRanges ranges i := by
  unfold covers at h
  split at h
  · cases h
  · split at h
    · cases h
    · rename_i reach hreach
      have htotal : total ≤ reach := by simpa using h
      obtain ⟨r, hr, hin⟩ := reachFrom_sound hreach (i := i) (by omega) (by omega)
      exact ⟨r, (List.mem_mergeSort).mp hr, hin⟩

/-! ## The memory of a loop -/

/-- A line argument of a call: none, a number, or another text, with what
`int(str(value).strip())` makes of it. -/
inductive LineArg where
  | missing
  | number (n : Int)
  | text (value : Option Int)

/-- `_coerce_optional_int`. -/
def LineArg.value : LineArg → Option Int
  | .missing => none
  | .number n => some n
  | .text value => value

/-- Whether the argument counts as true. -/
def LineArg.truthy : LineArg → Bool
  | .missing => false
  | .number n => n ≠ 0
  | .text _ => true

/-- The arguments of `read_file`. -/
structure ReadArgs where
  filepath : Text
  startLine : LineArg := .missing
  endLine : LineArg := .missing

/-- `arguments.get("start_line") or arguments.get("end_line")`. -/
def ReadArgs.asksForPart (args : ReadArgs) : Bool :=
  args.startLine.truthy || args.endLine.truthy

/-- A read whose content the conversation holds: the file, and the lines of it
that the content has, numbered. -/
structure Sent where
  file : Path
  rows : List (Nat × Text)
  elided : Bool := false

structure Session where
  workspace : Workspace
  partialReads : List Text := []
  seenRanges : Text → List (Int × Int) := fun _ => []
  rangesSent : Text → List (Int × Int) := fun _ => []
  readDigests : Text → Option Bytes := fun _ => none
  blockedReads : Text → Nat := fun _ => 0
  readWithdrawn : List Text := []
  /-- The tool results with lines of files, oldest first. -/
  sent : List Sent := []

/-- What the loop reads with. -/
structure Reader where
  casing : Casing
  allowedReadPaths : Option (List Text)
  documentText : Bytes → Except Exn Text
  sha256 : Bytes → Bytes
  /-- `can_outline(suffix)`. -/
  canOutline : Text → Bool
  /-- `render_outline(relative, body, suffix)`. -/
  renderOutline : Text → Text → Text → Text

namespace Reader

variable (r : Reader)

/-- The read tools, on the files as they are. -/
def tools (workspace : Workspace) : AgentTools where
  casing := r.casing
  workspace := workspace
  allowedReadPaths := r.allowedReadPaths
  documentText := r.documentText

/-- The text the read tools take a file for. -/
def textOf (p : Path) (bytes : Bytes) : Text :=
  if r.casing.lower (suffixOf p.name) ∈ AgentTools.documentExtensions then
    (r.documentText bytes).toOption.getD []
  else readReplace bytes

/-- The lines a file has. -/
def fileLines (workspace : Workspace) (p : Path) : List Text :=
  ((workspace.disk.content p).map fun bytes => splitlines (r.textOf p bytes)).getD []

/-- The key under which the loop files what it knows of a path. -/
def keyOf (path : Text) : Text := r.casing.lower (strip path)

end Reader

/-! ## What an answer holds -/

/-- A result of `read_file` on its way to the model. -/
structure Answer where
  result : ToolResult
  outlined : Bool := false
  headAndTail : Bool := false
  unchanged : Bool := false
  alreadySent : Bool := false

namespace Answer

/-- `str(data.get("content") or "")`. -/
def body (a : Answer) : Text := (a.result.content.map Prod.snd).getD []

/-- `str(data.get("resolved_filepath") or arguments.get("filepath") or "")`. -/
def name (a : Answer) (args : ReadArgs) : Text :=
  if a.result.resolvedName = [] then args.filepath else a.result.resolvedName

end Answer

/-- What `_budgeted` keeps of a result: all of it, the first rows of its
content, or a preview that has no content. -/
inductive Kept where
  | whole
  | rows (n : Nat)
  | preview
  deriving DecidableEq

/-- The rows of a text: `text.split("\n")`. -/
def rowsOf : Text → List Text
  | [] => [[]]
  | c :: s =>
    if c = '\n' then [] :: rowsOf s
    else match rowsOf s with
      | [] => [[c]]
      | row :: rows => (c :: row) :: rows

/-- Lines with their numbers, from `n`. -/
def numbered : Nat → List Text → List (Nat × Text)
  | _, [] => []
  | n, line :: lines => (n, line) :: numbered (n + 1) lines

/-- `HEAD_TAIL_LINES`. -/
def headTailLines : Nat := 60

/-- The rows of a head-and-tail answer: three rows of it are of no line. -/
def headAndTailRows (lines : List Text) : List (Option (Nat × Text)) :=
  (numbered 1 (lines.take headTailLines)).map some ++ [none, none, none]
    ++ (numbered (lines.length - headTailLines + 1)
      (lines.drop (lines.length - headTailLines))).map some

/-- The part of a body that comes from the file. -/
def uncut (body : Text) : Text := body.take AgentTools.maxReadChars

/-- The lines of the file that the model is shown, of an answer made from
`body` and kept as `kept`. -/
def shownRows (a : Answer) (body : Text) (kept : Kept) : List (Nat × Text) :=
  if a.outlined || a.unchanged || a.alreadySent then []
  else if a.headAndTail then
    match kept with
    | .whole => (headAndTailRows (splitlines body)).filterMap id
    | .rows n => ((headAndTailRows (splitlines body)).take n).filterMap id
    | .preview => []
  else match a.result.startLine, kept with
    | _, .preview => []
    | some first, .whole => numbered first.toNat (rowsOf (uncut body))
    | some first, .rows n => numbered first.toNat ((rowsOf (uncut body)).take n)
    | none, .whole => numbered 1 (splitlines (uncut body))
    | none, .rows n =>
      numbered 1 (splitlines (((rowsOf (uncut body)).take n).flatMap (· ++ ['\n'])))

/-! ## `read_file`, as the loop answers it -/

namespace Reader

variable (r : Reader)

/-- `_read_is_withdrawn`. -/
def readIsWithdrawn (s : Session) (args : ReadArgs) : Option Answer :=
  let path := strip args.filepath
  if path ≠ [] ∧ r.casing.lower path ∈ s.readWithdrawn then
    some { result := { ok := false, filepath := path, message :=
      s!"read_file has been withdrawn for {str path}. You have already been given every part "
        ++ "of it you asked for, three times over, and reading it again cannot tell you "
        ++ "anything new." } }
  else none

/-- `BLOCKED_READS_BEFORE_WITHDRAWING`. -/
def blockedReadsBeforeWithdrawing : Nat := 3

/-- `_already_sent_this_range`. -/
def alreadySentThisRange (s : Session) (args : ReadArgs) : Option (Answer × Session) :=
  match args.startLine, args.endLine with
  | .number start, .number stop =>
    let path := strip args.filepath
    let key := r.casing.lower path
    let seen := s.rangesSent key
    if path = [] ∨ seen = [] ∨ mostlyCovered start stop seen = false then none
    else
      let blocked := s.blockedReads key + 1
      some (
        { alreadySent := true
          result := { ok := true, filepath := path, resolvedName := path, startLine := some start,
                      endLine := some stop, message :=
                        s!"You already have lines {start}-{stop} of {str path}." } },
        { s with
          blockedReads := Function.update s.blockedReads key blocked
          readWithdrawn := if blockedReadsBeforeWithdrawing ≤ blocked
            then key :: s.readWithdrawn else s.readWithdrawn })
  | _, _ => none

/-- `OUTLINE_OVER_LINES`. -/
def outlineOverLines : Nat := 200

/-- `_head_and_tail`. -/
def headAndTail (relative body : Text) (total : Nat) (result : ToolResult) : Answer :=
  let lines := splitlines body
  if lines.length ≤ headTailLines * 2 + 10 then
    { result := { result with message := s!"{str relative} ({total} lines)." } }
  else
    let hidden := lines.length - headTailLines * 2
    let shown := join '\n' (lines.take headTailLines)
      ++ (s!"\n\n... [{hidden} lines not shown - read_file with start_line and end_line for "
        ++ "any of them] ...\n\n").toList
      ++ join '\n' (lines.drop (lines.length - headTailLines))
    { headAndTail := true
      result := { result with content := result.content.map fun c => (c.1, shown),
                              truncated := true } }

/-- `int(data.get("total_lines") or (body.count("\n") + 1))`. -/
def totalLinesOf (result : ToolResult) (body : Text) : Nat :=
  match result.totalLines with
  | some (n + 1) => n + 1
  | _ => (rowsOf body).length

/-- `_outline_instead_of_body`. -/
def outlineInsteadOfBody (args : ReadArgs) (result : ToolResult) : Answer :=
  let plain : Answer := { result }
  let body := plain.body
  let relative := plain.name args
  if result.ok = false ∨ args.asksForPart = true ∨ body = [] ∨ relative = [] then plain
  else
    let total := totalLinesOf result body
    if total ≤ outlineOverLines then plain
    else
      let suffix := suffixOf (nameOf relative)
      if r.canOutline suffix = false then headAndTail relative body total result
      else
        let rendered := r.renderOutline relative body suffix
        if rendered = [] then plain
        else
          { outlined := true
            result := { result with
              content := result.content.map fun c => (c.1, rendered), truncated := true
              message := s!"{str relative} is {total} lines, so this is its outline rather than "
                ++ "its contents." } }

/-- `_note_unchanged_since_last_read`. -/
def noteUnchangedSinceLastRead (s : Session) (args : ReadArgs) (a : Answer) : Answer × Session :=
  let path := a.name args
  let key := r.casing.lower path
  let digest := r.sha256 (encodeUtf8 a.body)
  if a.result.ok = false ∨ args.asksForPart = true ∨ path = [] ∨ a.body = [] then (a, s)
  else if s.readDigests key = some digest then
    ({ a with
       unchanged := true
       result := { a.result with
         content := a.result.content.map fun c => (c.1, [])
         message := s!"{str path} is unchanged since you last read it." } }, s)
  else (a, { s with readDigests := Function.update s.readDigests key (some digest) })

/-- `_note_partial_read`. -/
def notePartialRead (s : Session) (args : ReadArgs) (a : Answer) : Session :=
  if a.result.ok = false ∨ strip (a.name args) = [] then s
  else
    let key := r.keyOf (a.name args)
    match a.result.startLine, a.result.endLine with
    | some start, some stop =>
      let seen := s.seenRanges key ++ [(start, stop)]
      if a.result.totalLines.any fun total : Nat => covers seen total then
        { s with
          seenRanges := Function.update s.seenRanges key []
          partialReads := s.partialReads.filter (· ≠ key) }
      else
        { s with
          seenRanges := Function.update s.seenRanges key seen
          partialReads := key :: s.partialReads }
    | _, _ =>
      if a.result.truncated then { s with partialReads := key :: s.partialReads }
      else
        { s with
          seenRanges := Function.update s.seenRanges key []
          partialReads := s.partialReads.filter (· ≠ key) }

/-- `_record_range_sent`. -/
def recordRangeSent (s : Session) (args : ReadArgs) (a : Answer) : Session :=
  if a.result.ok = false ∨ strip (a.name args) = [] then s
  else match a.result.startLine, a.result.endLine with
    | some start, some stop =>
      let key := r.keyOf (a.name args)
      { s with rangesSent := Function.update s.rangesSent key (s.rangesSent key ++ [(start, stop)]) }
    | _, _ => s

/-- The tool's result, or the exception as one. -/
def toolResult (s : Session) (args : ReadArgs) : ToolResult :=
  match (r.tools s.workspace).readFile args.filepath args.startLine.value args.endLine.value with
  | .ok result => result
  | .error e => { ok := false, message := e.message, filepath := args.filepath }

/-- What `_execute` makes of the tool's result. -/
def noted (s : Session) (args : ReadArgs) (result : ToolResult) : Answer × Session :=
  let (a, s) := r.noteUnchangedSinceLastRead s args (r.outlineInsteadOfBody args result)
  (a, r.recordRangeSent (r.notePartialRead s args a) args a)

/-- `_execute("read_file", arguments)`. -/
def execute (s : Session) (args : ReadArgs) : Answer × Session :=
  match r.readIsWithdrawn s args with
  | some withdrawn => (withdrawn, s)
  | none =>
    match r.alreadySentThisRange s args with
    | some already => already
    | none => r.noted s args (r.toolResult s args)

/-- What `_run_tools` does with an answer the budget has clipped. -/
def noteClipped (s : Session) (args : ReadArgs) (a : Answer) : Kept → Session
  | .rows _ =>
    if strip (a.name args) = [] then s
    else { s with partialReads := r.keyOf (a.name args) :: s.partialReads }
  | _ => s

/-- The tool result with its lines joins the conversation. -/
def appendTool (s : Session) (a : Answer) (body : Text) (kept : Kept) : Session :=
  match a.result.ok, a.result.content with
  | true, some (file, _) => { s with sent := s.sent ++ [{ file, rows := shownRows a body kept }] }
  | _, _ => s

/-- `read_file` in a chat turn. `composite`: inside `find_and_read`,
`search_and_read` or `read_and_patch`, whose results `_run_tools` does not take
for a read. -/
def read (s : Session) (args : ReadArgs) (composite : Bool) (kept : Kept) : Answer × Session :=
  let body := ({ result := r.toolResult s args } : Answer).body
  let (a, s) := r.execute s args
  let s := if composite then s else r.noteClipped s args a kept
  (a, appendTool s a body kept)

/-! ## The other calls -/

/-- `_refuse_blind_overwrite`, but for what it asks of the size of the file. -/
def refuseBlindOverwrite (s : Session) (filepath : Text) : Option ToolResult :=
  let path := strip filepath
  if path = [] then none
  else if r.casing.lower path ∈ s.partialReads then
    some { ok := false, filepath := path, message :=
      s!"You have only seen part of {str path}, so writing it whole would delete the rest. "
        ++ "Either call patch_file to change just the part you need, or read the remainder "
        ++ "first with read_file(start_line=..., end_line=...)." }
  else none

/-- A writing tool has run: the files are `after`. -/
def wrote (s : Session) (filepath : Text) (after : Workspace) (ok : Bool) : Session :=
  let path := strip filepath
  if ok = true ∧ path ≠ [] then
    { s with
      workspace := after
      readDigests := Function.update s.readDigests (r.casing.lower path) none
      blockedReads := fun _ => 0
      readWithdrawn := [] }
  else { s with workspace := after }

end Reader

/-- Results are elided, and the loop forgets what it has sent. -/
def Session.swept (s : Session) (elide : Nat → Bool) : Session :=
  { s with
    sent := s.sent.zipIdx.map fun e => { e.1 with elided := e.1.elided || elide e.2 }
    rangesSent := fun _ => []
    readDigests := fun _ => none }

/-- Another user message: a fresh loop, in the same session. -/
def Session.newMessage (s : Session) : Session where
  workspace := s.workspace
  partialReads := s.partialReads
  sent := s.sent

/-- What happens in a session. -/
inductive Act where
  | read (args : ReadArgs) (composite : Bool) (kept : Kept)
  /-- `write_file`, also inside `create_and_run`. The spelling leads the tool to
  `target`; unless the guard refuses, the files are then `after`. -/
  | write (filepath : Text) (target : Path) (after : Workspace) (ok : Bool)
  /-- Another writing tool. -/
  | edit (filepath : Text) (after : Workspace) (ok : Bool)
  /-- Anything else that may change files. -/
  | other (after : Workspace)
  /-- `_elide_under_pressure`, when it has elided something. -/
  | sweep (elide : Nat → Bool)
  /-- A prompt is assembled: of some results it has a stub, or nothing. -/
  | prompt (left : Nat → Bool)
  | message

/-- One step of a session. -/
def Reader.step (r : Reader) (s : Session) : Act → Session
  | .read args composite kept => (r.read s args composite kept).2
  | .write filepath _ after ok =>
    match r.refuseBlindOverwrite s filepath with
    | some _ => s
    | none => r.wrote s filepath after ok
  | .edit filepath after ok => r.wrote s filepath after ok
  | .other after => { s with workspace := after }
  | .sweep elide => s.swept elide
  | .prompt _ => s
  | .message => s.newMessage

end Shamsu.Chat
