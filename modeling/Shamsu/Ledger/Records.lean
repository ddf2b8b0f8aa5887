import Shamsu.Ledger.Manifest
import Shamsu.Ledger.Names

/-!
# The records of a run

`shamsu/action_ledger/ledger.py`: what the calls of an `ActionLedger` write into the
directory of its run. `State` is the object and that directory; opening a run again
(`State.reopen`) makes a new object, whose counters are what is found in the directory.
-/

namespace Shamsu.Ledger

open Shamsu.Py

/-- The keys that `_correlation` gives a record. -/
def correlationKeys : List String :=
  ["schema_version", "session_id", "turn_id", "run_id", "operation_id", "parent_operation_id",
    "timestamp", "sequence"]

/-- A row: its keys, what it has of the correlation, its id, and what is read of it
again. Of an event `type` and the fields after it, of tool and model calls `phase`. -/
structure Record where
  keys : List String
  runId : Text
  sequence : Int
  id : Text := []
  type : Text := []
  cmdId : Text := []
  badRequest : Bool := false
  phase : Text := []
  role : Text := []
  model : Text := []
  modelCallId : Text := []
  diagnosticsPath : Text := []
  tracebackPath : Text := []
  artifactPath : Text := []
  deriving DecidableEq, Inhabited, Repr

/-- The groups of records: the five files of rows, and the contexts. -/
inductive Group where
  | events | decisions | tools | models | mutations | contexts
  deriving DecidableEq, Repr

/-- The five files. -/
def Group.files : List Group := [.events, .decisions, .tools, .models, .mutations]

/-- Where the records with the ids of a counter are. -/
def Counter.group : Counter → Group
  | .event => .events
  | .decision => .decisions
  | .tool => .tools
  | .model => .models
  | .context => .contexts

/-- The phase they are written in. -/
def Counter.phase : Counter → Text
  | .tool => "called".toList
  | .model => "started".toList
  | .event | .decision | .context => []

@[simp] theorem phase_tool : Counter.phase .tool = "called".toList := rfl

@[simp] theorem phase_model : Counter.phase .model = "started".toList := rfl

/-- The directory of a run. Of its history it has the ids that `log_command_start`
gave, and the files of evidence in the order they were written. -/
structure RunFiles where
  records : Group → List Record
  attachments : List Text
  manifest : Manifest
  finalOutput : Option Text
  summary : Bool
  commands : List Text
  evidence : List Text

namespace RunFiles

def empty : RunFiles := ⟨fun _ => [], [], none, none, false, [], []⟩

/-- `_append_jsonl`. -/
def append (f : RunFiles) (g : Group) (r : Record) : RunFiles :=
  { f with records := fun g' => if g' = g then f.records g' ++ [r] else f.records g' }

/-- `_write_text` and `_write_json` of an attachment. -/
def write (f : RunFiles) (name : Text) : RunFiles :=
  { f with attachments := if name ∈ f.attachments then f.attachments else f.attachments ++ [name] }

/-- The same of a file of evidence. -/
def writeEvidence (f : RunFiles) (name : Text) : RunFiles :=
  { f.write name with evidence := f.evidence ++ [name] }

/-- `_count_glob`, for a pattern with one star. -/
def countGlob (f : RunFiles) (before after : String) : Nat :=
  f.attachments.countP fun name =>
    before.toList.isPrefixOf name && after.toList.isSuffixOf name &&
      decide (before.length + after.length ≤ name.length)

/-- The ids that were given. -/
def issued (f : RunFiles) : Counter → List Text
  | .event => (f.records .events).map Record.id
  | .decision => (f.records .decisions).map Record.id
  | .tool => ((f.records .tools).filter fun r => r.phase == "called".toList).map Record.id
  | .model => ((f.records .models).filter fun r => r.phase == "started".toList).map Record.id
  | .context => (f.records .contexts).map Record.id

/-- What `__init__` sets the counters to: `_count_lines`, `_count_records` and
`_count_glob`. -/
def recount (f : RunFiles) : Counter → Nat
  | .event => (f.records .events).length
  | .decision => (f.records .decisions).length
  | .tool => (f.records .tools).countP fun r => r.phase == "called".toList
  | .model => (f.records .models).countP fun r => r.phase == "started".toList
  | .context => f.countGlob "context_" ".json"

/-- The sequence numbers of some groups. -/
def sequencesOf (f : RunFiles) (groups : List Group) : List Int :=
  groups.flatMap fun g => (f.records g).map Record.sequence

/-- `_max_sequence`. -/
def maxSequence (f : RunFiles) : Int := (f.sequencesOf Group.files).max?.getD 0

/-- The sequence numbers of all records. -/
def sequences (f : RunFiles) : List Int := f.sequencesOf (.contexts :: Group.files)

end RunFiles

/-- What the calls look up in the configuration. With it `readBack`, what is read of a
text that was written (redacted, its newlines translated), and Python's `isalnum` and
`lower`. -/
structure Config where
  enabled : Bool
  fullArtifacts : Bool
  logContextPreview : Bool
  readBack : Text → Text
  isAlnum : Char → Bool
  lower : Text → Text

/-- What may stand in a file name. -/
def Config.safe (config : Config) (t : Text) (otherwise : String) : Text :=
  let kept := t.filter fun c => config.isAlnum c || c == '-' || c == '_'
  if kept.isEmpty then otherwise.toList else kept

/-- The object: the run and its counters. -/
structure ActionLedger where
  runId : Text
  config : Config
  counters : Counter → Nat
  commandSeq : Nat
  diagnosticsSeq : Nat
  sequence : Int

/-- `__init__`. -/
def openLedger (runId : Text) (config : Config) (f : RunFiles) : ActionLedger :=
  { runId, config
    counters := f.recount
    commandSeq := f.countGlob "cmd_" ".stdout.log"
    diagnosticsSeq := f.countGlob "error_packet_" ".json"
    sequence := f.maxSequence }

structure State where
  ledger : ActionLedger
  files : RunFiles

/-- What the fields that a caller gives an event or a context override, and what is
read of them again. `badRequest`: `request` is neither empty nor a dictionary, and
there is no `action_type`. -/
structure Fields where
  keys : List String := []
  id : Option Text := none
  runId : Option Text := none
  sequence : Option Int := none
  type : Option Text := none
  cmdId : Text := []
  badRequest : Bool := false
  modelCallId : Text := []
  diagnosticsPath : Text := []
  deriving DecidableEq, Repr

/-- The arguments of `log_tool_result`; `spilled` when the result is truncated or
over the threshold. -/
structure ToolResult where
  callId : Text
  diagnosticsPath : Text := []
  tracebackPath : Text := []
  artifactPath : Text := []
  spilled : Bool := false
  deriving DecidableEq, Repr

/-- `COMMAND_INLINE_CHARS`. -/
def commandInlineChars : Nat := 4000

/-- `keep_output_files`. -/
def keepOutput (config : Config) (exitCode : Int) (stdout stderr : Text) : Bool :=
  config.fullArtifacts || exitCode != 0 ||
    [stdout, stderr].any fun text => decide (commandInlineChars < text.length)

/-- The path of an attachment, from the directory of the run. -/
def attachmentPath (name : Text) : Text := ".evidence/attachments/".toList ++ name

namespace State

/-- A new run. -/
def first (runId : Text) (config : Config) : State := ⟨openLedger runId config .empty, .empty⟩

/-- A new object for the run. -/
def reopen (s : State) (config : Config) : State :=
  { s with ledger := openLedger s.ledger.runId config s.files }

/-- `_correlation`, as far as it changes the object. -/
def correlated (s : State) : State :=
  { s with ledger := { s.ledger with sequence := s.ledger.sequence + 1 } }

/-- What it gives a record then. -/
def correlation (s : State) : Record :=
  { keys := correlationKeys, runId := s.ledger.runId, sequence := s.ledger.sequence }

/-- `_correlation`, and `_append_jsonl` of the record with it. -/
def appendRecord (s : State) (g : Group) (r : Record → Record) : State :=
  let s := s.correlated
  { s with files := s.files.append g (r s.correlation) }

/-- `_next_id`, and the record with that id and these fields. -/
def issueRecord (s : State) (k : Counter) (fields : Fields) (r : Record → Record) : State :=
  let id := k.idAt (s.ledger.counters k)
  let counters := fun k' => if k' = k then s.ledger.counters k' + 1 else s.ledger.counters k'
  { s with ledger := { s.ledger with counters } }.appendRecord k.group fun c =>
    { r c with
      keys := (r c).keys ++ fields.keys
      id := fields.id.getD id
      runId := fields.runId.getD c.runId
      sequence := fields.sequence.getD c.sequence
      phase := k.phase }

/-- `log_event`. -/
def logEvent (s : State) (type : Text) (fields : Fields) : State :=
  if s.ledger.config.enabled then
    s.issueRecord .event fields fun c =>
      { c with
        keys := c.keys ++ ["event_id", "run_id", "type", "timestamp"]
        type := fields.type.getD type
        cmdId := fields.cmdId
        badRequest := fields.badRequest
        diagnosticsPath := fields.diagnosticsPath }
  else s

/-- `log_decision`. -/
def logDecision (s : State) : State :=
  if s.ledger.config.enabled then
    (s.issueRecord .decision { keys := ["decision_id", "decision"] } id).logEvent
      "decision_recorded".toList {}
  else s

/-- `log_tool_call`. -/
def logToolCall (s : State) : State :=
  if s.ledger.config.enabled then
    (s.issueRecord .tool { keys := ["tool_call_id", "phase"] } id).logEvent
      "tool_called".toList {}
  else s

/-- `_write_tool_result_artifact`. -/
def toolArtifact (s : State) (r : ToolResult) : Text :=
  s.ledger.config.safe r.callId "tool_result" ++ ".json".toList

/-- `log_tool_result`. -/
def logToolResult (s : State) (r : ToolResult) : State :=
  if s.ledger.config.enabled then
    let spills := r.artifactPath.isEmpty && r.spilled
    let artifactPath := if spills then attachmentPath (s.toolArtifact r) else r.artifactPath
    let s := if spills then { s with files := s.files.write (s.toolArtifact r) } else s
    (s.appendRecord .tools fun c =>
      { c with
        keys := c.keys ++ ["tool_call_id", "phase"]
        id := r.callId
        phase := "finished".toList
        diagnosticsPath := r.diagnosticsPath
        tracebackPath := r.tracebackPath
        artifactPath }).logEvent "tool_finished".toList {}
  else s

/-- `log_model_call_started`. -/
def logModelCallStarted (s : State) (role model : Text) : State :=
  if s.ledger.config.enabled then
    (s.issueRecord .model { keys := ["model_call_id", "phase"] } fun c =>
      { c with role, model }).logEvent (role ++ "_model_called".toList) {}
  else s

/-- What closes a model call. -/
def closesModel (r : Record) : Bool :=
  r.phase == "finished".toList || r.phase == "failed".toList

/-- `_latest_open_model_call`. -/
def latestOpenModelCall (s : State) (role model : Text) : Text :=
  let models := s.files.records .models
  let closed := (models.filter closesModel).map Record.id
  let found := models.reverse.find? fun r =>
    r.phase == "started".toList && !closed.contains r.id && r.role == role && r.model == model
  (found.map Record.id).getD []

/-- The next number of `_diagnostics_seq`, and the file that is named after it. -/
def numberedEvidence (s : State) (name : Nat → Text) : State :=
  { ledger := { s.ledger with diagnosticsSeq := s.ledger.diagnosticsSeq + 1 }
    files := s.files.writeEvidence (name s.ledger.diagnosticsSeq) }

/-- The path that `record_exception` returns. -/
def exceptionPath (s : State) (phase : Text) : Text :=
  if s.ledger.config.enabled then
    attachmentPath (exceptionName s.ledger.diagnosticsSeq
      (s.ledger.config.safe (s.ledger.config.lower phase) "runtime"))
  else []

/-- `record_exception`. -/
def recordException (s : State) (phase : Text) : State :=
  if s.ledger.config.enabled then
    let tag := s.ledger.config.safe (s.ledger.config.lower phase) "runtime"
    (s.numberedEvidence fun n => exceptionName n tag).logEvent "exception_recorded".toList {}
  else s

/-- `record_unparsed_response`. -/
def recordUnparsedResponse (s : State) (reason : Text) : State :=
  if s.ledger.config.enabled then
    let tag := s.ledger.config.safe (s.ledger.config.lower reason) "unknown"
    (s.numberedEvidence fun n => unparsedName n tag).logEvent "unparsed_model_response".toList {}
  else s

/-- `log_diagnostics`. -/
def logDiagnostics (s : State) (actionable : Bool) : State :=
  if s.ledger.config.enabled then
    (s.numberedEvidence (packetName actionable)).logEvent "diagnostics_parsed".toList
      { diagnosticsPath := attachmentPath (packetName actionable s.ledger.diagnosticsSeq) }
  else s

/-- `log_model_call_finished`. -/
def logModelCallFinished (s : State) (role model callId error : Text) : State :=
  if s.ledger.config.enabled then
    let callId := if callId.isEmpty then s.latestOpenModelCall role model else callId
    let failed := !error.isEmpty
    let tracebackPath := if failed then s.exceptionPath "model".toList else []
    let s := if failed then s.recordException "model".toList else s
    (s.appendRecord .models fun c =>
      { c with
        keys := c.keys ++ ["model_call_id", "phase"]
        id := callId
        phase := if failed then "failed".toList else "finished".toList
        role, model, tracebackPath }).logEvent
      (if failed then "model_call_failed" else "model_response_received").toList {}
  else s

/-- `log_model_thinking`. -/
def logModelThinking (s : State) (callId role model thinking : Text) : State :=
  if s.ledger.config.enabled && !isBlank thinking then
    (s.appendRecord .models fun c =>
      { c with
        keys := c.keys ++ ["model_call_id", "phase"]
        id := callId
        phase := "thinking".toList
        role, model }).logEvent "model_thinking_captured".toList {}
  else s

/-- `log_command_start`. -/
def logCommandStart (s : State) : State :=
  if s.ledger.config.enabled then
    let cmdId := commandId s.ledger.commandSeq
    ({ ledger := { s.ledger with commandSeq := s.ledger.commandSeq + 1 }
       files := { s.files with commands := s.files.commands ++ [cmdId] } } : State).logEvent
      "command_started".toList { cmdId }
  else s

/-- `log_command_finish`. -/
def logCommandFinish (s : State) (cmdId : Text) (exitCode : Int) (stdout stderr : Text) : State :=
  if s.ledger.config.enabled && !cmdId.isEmpty then
    let s :=
      if keepOutput s.ledger.config exitCode stdout stderr then
        { s with
          files := (s.files.writeEvidence (stdoutName cmdId)).writeEvidence (stderrName cmdId) }
      else s
    s.logEvent "command_finished".toList { cmdId }
  else s

/-- `log_mutation_finished`. -/
def logMutationFinished (s : State) (transactionId : Text) (applied : Bool) : State :=
  if s.ledger.config.enabled then
    (s.appendRecord .mutations fun c =>
      { c with keys := c.keys ++ ["transaction_id", "status"], id := transactionId }).logEvent
      (if applied then "mutation_finished" else "mutation_failed").toList {}
  else s

/-- `log_context_preview`. -/
def logContextPreview (s : State) (fields : Fields) : State :=
  if s.ledger.config.enabled && s.ledger.config.logContextPreview then
    let name := Counter.idAt .context (s.ledger.counters .context) ++ ".json".toList
    let s := s.issueRecord .context fields fun c =>
      { c with keys := c.keys ++ ["context_id", "model_call_id"], modelCallId := fields.modelCallId }
    let s := if s.ledger.config.fullArtifacts then { s with files := s.files.write name } else s
    s.logEvent "context_pack_built".toList {}
  else s

/-- `start`. -/
def start (s : State) : State :=
  if s.ledger.config.enabled then
    let s := s.correlated
    let s : State := { s with files := { s.files with manifest := some .running } }
    (s.logEvent "run_started".toList {}).logEvent "user_prompt_received".toList {}
  else s

/-- `record_final_response`. -/
def recordFinalResponse (s : State) (finalOutput : Text) : State :=
  if s.ledger.config.enabled then
    let stored := s.ledger.config.readBack finalOutput
    ({ s with files := { s.files with finalOutput := some stored } } : State).logEvent
      "final_response_written".toList {}
  else s

/-- The records of a phase that no record closes. -/
def openRecords (records : List Record) (phase : String) (closes : Record → Bool) : List Record :=
  let closed := (records.filter closes).map Record.id
  records.filter fun r => r.phase == phase.toList && !closed.contains r.id

/-- What closes a tool call. -/
def closesTool (r : Record) : Bool := r.phase == "finished".toList

/-- The first loop of `_close_open_records`. -/
def closeTools (s : State) : State :=
  (openRecords (s.files.records .tools) "called" closesTool).foldl
    (fun s r => s.logToolResult { callId := r.id }) s

/-- The second. -/
def closeModels (s : State) : State :=
  (openRecords (s.files.records .models) "started" closesModel).foldl
    (fun s r => s.logModelCallFinished r.role r.model r.id
      "Run ended before the model call returned.".toList) s

/-- The summary can be made of the events: it asks the `request` of an approval for its
`action_type`. -/
def summarizes (f : RunFiles) : Bool :=
  (f.records .events).all fun e => !("approval_".toList.isPrefixOf e.type && e.badRequest)

/-- `finish`: it raises for a status that is not terminal, and a run that is closed
stays as it is. -/
def finish (s : State) (finalOutput : Text) (status : RunStatus) : State :=
  if !s.ledger.config.enabled || !terminalOutcomes.contains status || s.files.manifest.isTerminal
  then s
  else
    let s := s.closeTools.closeModels
    let s := if s.files.finalOutput = some finalOutput then s else s.recordFinalResponse finalOutput
    let s := if s.files.manifest.isNone then s.correlated else s
    let s : State := { s with files := { s.files with manifest := some status } }
    let succeeded := status == .success || status == .successUnverified
    let s := s.logEvent (if succeeded then "run_finished" else "run_failed").toList {}
    let s := s.correlated
    if summarizes s.files then { s with files := { s.files with summary := true } } else s

end State

/-- The calls; the other methods are events with their own types and fields. -/
inductive Call where
  | reopen (config : Config)
  | start
  | logEvent (type : Text) (fields : Fields)
  | logDecision
  | logToolCall
  | logToolResult (result : ToolResult)
  | logModelCallStarted (role model : Text)
  | logModelCallFinished (role model callId error : Text)
  | logModelThinking (callId role model thinking : Text)
  | logCommandStart
  | logCommandFinish (cmdId : Text) (exitCode : Int) (stdout stderr : Text)
  | logDiagnostics (actionable : Bool)
  | recordException (phase : Text)
  | recordUnparsedResponse (reason : Text)
  | logMutationFinished (transactionId : Text) (applied : Bool)
  | logContextPreview (fields : Fields)
  | recordFinalResponse (finalOutput : Text)
  | finish (finalOutput : Text) (status : RunStatus)

def State.step (s : State) : Call → State
  | .reopen config => s.reopen config
  | .start => s.start
  | .logEvent type fields => s.logEvent type fields
  | .logDecision => s.logDecision
  | .logToolCall => s.logToolCall
  | .logToolResult result => s.logToolResult result
  | .logModelCallStarted role model => s.logModelCallStarted role model
  | .logModelCallFinished role model callId error => s.logModelCallFinished role model callId error
  | .logModelThinking callId role model thinking => s.logModelThinking callId role model thinking
  | .logCommandStart => s.logCommandStart
  | .logCommandFinish cmdId exitCode stdout stderr => s.logCommandFinish cmdId exitCode stdout stderr
  | .logDiagnostics actionable => s.logDiagnostics actionable
  | .recordException phase => s.recordException phase
  | .recordUnparsedResponse reason => s.recordUnparsedResponse reason
  | .logMutationFinished transactionId applied => s.logMutationFinished transactionId applied
  | .logContextPreview fields => s.logContextPreview fields
  | .recordFinalResponse finalOutput => s.recordFinalResponse finalOutput
  | .finish finalOutput status => s.finish finalOutput status

end Shamsu.Ledger
