import Shamsu.Ledger.Records

/-!
# Validating a run

`shamsu/action_ledger/store.py`: `validate_run`, which reads the directory of a run and
lists what is wrong with it.
-/

namespace Shamsu.Ledger

open Shamsu.Py

/-- A packet, as far as it names others. -/
structure Packet where
  operationId : Text
  rawLogPath : Text
  tracebackPath : Text
  deriving DecidableEq, Repr

/-- What else there is when a run is validated: the files that the calls do not write,
and what `json.loads` makes of a file. -/
structure RunDir where
  isFile : Text → Bool
  packetOf : Text → Option Packet

namespace RunFiles

/-- `load_context_records`: the contexts that were kept, or else the last one. -/
def loadContexts (f : RunFiles) : List Record :=
  let kept := (f.records .contexts).filter fun r => (r.id ++ ".json".toList) ∈ f.attachments
  if kept.isEmpty then (f.records .contexts).getLast?.toList else kept

def load (f : RunFiles) : Group → List Record
  | .contexts => f.loadContexts
  | g => f.records g

/-- `(run_dir / path).is_file()`. -/
def isFile (f : RunFiles) (dir : RunDir) (path : Text) : Bool :=
  f.attachments.any (fun name => attachmentPath name == path) || dir.isFile path

/-- A path that is given and leads nowhere. -/
def isMissing (f : RunFiles) (dir : RunDir) (path : Text) : Bool :=
  !path.isEmpty && !f.isFile dir path

end RunFiles

/-- The groups in the order of `validate_run`, with their names. -/
def namedGroups : List (String × Group) :=
  [("events", .events), ("decisions", .decisions), ("tools", .tools), ("models", .models),
    ("mutations", .mutations), ("contexts", .contexts)]

/-- `required`, sorted. -/
def requiredKeys : List String :=
  ["operation_id", "parent_operation_id", "run_id", "schema_version", "sequence", "session_id",
    "timestamp", "turn_id"]

/-- The errors of one record of a group. -/
def recordErrors (runId : Text) (name : String) (r : Record) (index : Nat) : List Text :=
  let at_ := name.toList ++ '[' :: (Nat.toDigits 10 index ++ [']'])
  let missing := requiredKeys.filter fun key => !r.keys.contains key
  (if missing.isEmpty then []
    else [at_ ++ " missing: ".toList ++ ", ".toList.intercalate (missing.map String.toList)]) ++
  if r.runId = runId then [] else [at_ ++ " has the wrong run_id".toList]

/-- The errors of the records of all groups. -/
def groupErrors (runId : Text) (f : RunFiles) : List Text :=
  namedGroups.flatMap fun (name, g) =>
    (f.load g).zipIdx.flatMap fun (r, index) => recordErrors runId name r index

/-- The errors of the documents of a run. -/
def documentErrors (f : RunFiles) : List Text :=
  let terminal := f.manifest != some .running
  (if f.manifest.isNone then ["manifest.json is missing or invalid".toList] else []) ++
  (if terminal && !f.summary then ["terminal run is missing summary.json".toList] else []) ++
  if terminal && f.finalOutput.isNone then ["terminal run is missing final-output.md".toList] else []

def sequenceErrors (f : RunFiles) : List Text :=
  let sequences := namedGroups.flatMap fun (_, g) => (f.load g).map Record.sequence
  (if sequences.any (· ≤ 0) then ["v2 records contain a non-positive sequence".toList] else []) ++
  if sequences.Nodup then [] else ["v2 record sequences are not unique".toList]

/-- The ids of the records that meet a condition. -/
def idsWhere (records : List Record) (p : Record → Bool) : List Text :=
  (records.filter p).map Record.id

/-- `sorted(ids - others)`. -/
def sortedWithout (ids others : List Text) : List Text :=
  (ids.filter fun id => !others.contains id).dedup.mergeSort

/-- A record of this phase. -/
def inPhase (phase : String) (r : Record) : Bool := r.phase == phase.toList

/-- The errors of the calls: each that was made has a result, and the other way round. -/
def callErrors (f : RunFiles) : List Text :=
  let called := idsWhere (f.load .tools) (inPhase "called")
  let finished := idsWhere (f.load .tools) State.closesTool
  let started := idsWhere (f.load .models) (inPhase "started")
  let closed := idsWhere (f.load .models) State.closesModel
  (sortedWithout called finished).map (fun id =>
    "tool call ".toList ++ id ++ " has no finished record".toList) ++
  (sortedWithout finished called).map (fun id =>
    "tool result ".toList ++ id ++ " has no called record".toList) ++
  (sortedWithout started closed).map (fun id =>
    "model call ".toList ++ id ++ " has no terminal record".toList) ++
  (f.load .contexts).flatMap fun c =>
    if !c.modelCallId.isEmpty && !started.contains c.modelCallId then
      ["context ".toList ++ c.id ++ " references unknown model call ".toList ++ c.modelCallId]
    else []

/-- The ids of the commands that were started. -/
def RunFiles.commandIds (f : RunFiles) : List Text :=
  ((f.load .events).filter fun e => e.type == "command_started".toList).map Record.cmdId

/-- `Path(path).is_absolute()`. -/
def isAbsolute (path : Text) : Bool := path.head? == some '/'

/-- The errors of a packet. -/
def packetErrors (f : RunFiles) (dir : RunDir) (relative : Text) (packet : Packet) : List Text :=
  let about := "diagnostic ".toList ++ relative
  (if !packet.operationId.isEmpty && !f.commandIds.contains packet.operationId then
    [about ++ " references unknown command ".toList ++ packet.operationId] else []) ++
  (if !isAbsolute packet.rawLogPath && f.isMissing dir packet.rawLogPath then
    [about ++ " references missing raw log ".toList ++ packet.rawLogPath] else []) ++
  if !isAbsolute packet.tracebackPath && f.isMissing dir packet.tracebackPath then
    [about ++ " references missing traceback ".toList ++ packet.tracebackPath] else []

/-- The errors of the event of a packet. -/
def diagnosticErrors (f : RunFiles) (dir : RunDir) (e : Record) : List Text :=
  let relative := e.diagnosticsPath
  if relative.isEmpty || !f.isFile dir relative then
    ["diagnostic artifact is missing: ".toList ++
      if relative.isEmpty then "(empty path)".toList else relative]
  else
    match dir.packetOf relative with
    | none => ["diagnostic artifact is invalid JSON: ".toList ++ relative]
    | some packet => packetErrors f dir relative packet

/-- The error of a path in a record. -/
def pathErrors (f : RunFiles) (dir : RunDir) (call : String) (id : Text) (what : String)
    (path : Text) : List Text :=
  if f.isMissing dir path then
    [call.toList ++ id ++ " references missing ".toList ++ what.toList ++ ' ' :: path]
  else []

/-- The errors of the files that records name. -/
def artifactErrors (f : RunFiles) (dir : RunDir) : List Text :=
  ((f.load .events).filter fun e => e.type == "diagnostics_parsed".toList).flatMap
    (diagnosticErrors f dir) ++
  ((f.load .tools).flatMap fun r =>
    pathErrors f dir "tool call " r.id "diagnostics" r.diagnosticsPath ++
    pathErrors f dir "tool call " r.id "traceback" r.tracebackPath ++
    pathErrors f dir "tool call " r.id "artifact" r.artifactPath) ++
  (f.load .models).flatMap fun r =>
    pathErrors f dir "model call " r.id "traceback" r.tracebackPath

structure Validation where
  errors : List Text
  warnings : List Text
  counts : List (String × Nat)
  deriving DecidableEq, Repr

/-- `ok`. -/
def Validation.ok (v : Validation) : Bool := v.errors.isEmpty

/-- `validate_run`. -/
def validateRun (runId : Text) (f : RunFiles) (dir : RunDir) : Validation :=
  { errors := documentErrors f ++ groupErrors runId f ++ sequenceErrors f ++ callErrors f ++
      artifactErrors f dir
    warnings :=
      if f.manifest != some .running && (f.load .decisions).isEmpty then
        ["run has no structured decision records".toList]
      else []
    counts := namedGroups.map fun (name, g) => (name, (f.load g).length) }

end Shamsu.Ledger
