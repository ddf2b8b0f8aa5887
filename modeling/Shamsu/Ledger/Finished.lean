import Shamsu.Ledger.Reopened
import Shamsu.Ledger.Validate

/-!
# Finished runs validate

What the calls of one object write is what `validate_run` asks for
(`finished_runs_validate`): the invariant `Valid` is about one record at a time
(`Sound`), and `finish` closes the calls that are open (`Valid.closeTools`, `Valid.closeModels`).
What callers name, `validate_run` looks for: the paths in a tool result have to be
there, and so has the packet of an event of the type `diagnostics_parsed`.
-/

namespace Shamsu.Ledger

open Shamsu.Py Shamsu.Lib

/-- The type of an event with these fields. -/
def Fields.typeOf (fields : Fields) (type : Text) : Text := fields.type.getD type

/-- A path leads to a packet, and all that the packet names is there. -/
def PacketThere (dir : RunDir) (f : RunFiles) (path : Text) : Prop :=
  path ≠ [] ∧ f.isFile dir path = true ∧ ∃ packet, dir.packetOf path = some packet ∧
    (packet.operationId = [] ∨ packet.operationId ∈ f.commandIds) ∧
    (isAbsolute packet.rawLogPath = true ∨ f.isMissing dir packet.rawLogPath = false) ∧
    (isAbsolute packet.tracebackPath = true ∨ f.isMissing dir packet.tracebackPath = false)

/-- The calls of a run that is going on, with what they name: fields do not override
the correlation, ids are ones that were returned, and paths lead somewhere. -/
def Fits (dir : RunDir) (s : State) : Call → Prop
  | .logEvent type fields =>
    fields.runId = none ∧ fields.sequence = none ∧
      (fields.typeOf type = "diagnostics_parsed".toList →
        PacketThere dir s.files fields.diagnosticsPath) ∧
      ("approval_".toList.isPrefixOf (fields.typeOf type) && fields.badRequest) = false
  | .logToolResult r =>
    r.callId ∈ s.files.issued .tool ∧
      ∀ path ∈ [r.diagnosticsPath, r.tracebackPath, r.artifactPath], s.files.isMissing dir path = false
  | .logModelCallFinished _ _ callId _ => callId ∈ s.files.issued .model
  | .logDecision | .logToolCall | .logModelCallStarted .. | .logModelThinking .. | .logCommandStart
  | .logCommandFinish .. | .recordException _ | .recordUnparsedResponse _ | .logMutationFinished ..
  | .recordFinalResponse _ => True
  | .reopen _ | .start | .logDiagnostics _ | .logContextPreview _ | .finish .. => False

/-! ## The invariant -/

/-- What `validate_run` asks of one record. -/
structure Sound (dir : RunDir) (runId : Text) (s : State) (g : Group) (r : Record) : Prop where
  keys : ∀ key ∈ requiredKeys, key ∈ r.keys
  runId : r.runId = runId
  packet : g = .events → r.type = "diagnostics_parsed".toList →
    PacketThere dir s.files r.diagnosticsPath
  request : g = .events → ("approval_".toList.isPrefixOf r.type && r.badRequest) = false
  paths : g ≠ .events → ∀ path ∈ [r.diagnosticsPath, r.tracebackPath, r.artifactPath],
    s.files.isMissing dir path = false
  finished : g = .tools → State.closesTool r = true → r.id ∈ s.files.issued .tool
  started : g = .models → inPhase "started" r = true → r.id ≠ []

/-- A run that is going on, as one object has written it. -/
structure Valid (dir : RunDir) (runId : Text) (m : Manifest) (s : State) : Prop where
  owner : s.ledger.runId = runId
  enabled : s.ledger.config.enabled = true
  manifest : s.files.manifest = m
  contexts : s.files.records .contexts = []
  sequences : s.files.sequences.Nodup
  bounded : ∀ n ∈ s.files.sequences, 0 < n ∧ n ≤ s.ledger.sequence
  nonneg : 0 ≤ s.ledger.sequence
  sound : ∀ g, ∀ r ∈ s.files.records g, Sound dir runId s g r

variable {dir : RunDir} {runId : Text} {m : Manifest} {s s' : State} {g : Group}

theorem isFile_mono {f f' : RunFiles} (h : f.attachments ⊆ f'.attachments) {path : Text}
    (hpath : f.isFile dir path = true) : f'.isFile dir path = true := by
  unfold RunFiles.isFile at hpath ⊢
  rw [Bool.or_eq_true, List.any_eq_true] at hpath ⊢
  exact hpath.imp_left fun ⟨name, hname, heq⟩ => ⟨name, h hname, heq⟩

theorem isMissing_eq_false_iff {f : RunFiles} {path : Text} :
    f.isMissing dir path = false ↔ path = [] ∨ f.isFile dir path = true := by
  unfold RunFiles.isMissing
  cases path <;> cases f.isFile dir _ <;> simp

theorem isMissing_mono {f f' : RunFiles} (h : f.attachments ⊆ f'.attachments) {path : Text}
    (hpath : f.isMissing dir path = false) : f'.isMissing dir path = false :=
  isMissing_eq_false_iff.mpr ((isMissing_eq_false_iff.mp hpath).imp_right (isFile_mono h))

theorem PacketThere.mono {f f' : RunFiles} {path : Text} (h : PacketThere dir f path)
    (hattachments : f.attachments ⊆ f'.attachments) (hcommands : f.commandIds ⊆ f'.commandIds) :
    PacketThere dir f' path := by
  obtain ⟨hpath, hfile, packet, hpacket, hoperation, hlog, htraceback⟩ := h
  exact ⟨hpath, isFile_mono hattachments hfile, packet, hpacket,
    hoperation.imp_right fun hmem => hcommands hmem,
    hlog.imp_right (isMissing_mono hattachments), htraceback.imp_right (isMissing_mono hattachments)⟩

theorem Sound.mono {r : Record} (h : Sound dir runId s g r)
    (hattachments : s.files.attachments ⊆ s'.files.attachments)
    (hissued : s.files.issued .tool ⊆ s'.files.issued .tool)
    (hcommands : s.files.commandIds ⊆ s'.files.commandIds) : Sound dir runId s' g r where
  keys := h.keys
  runId := h.runId
  packet := fun hg htype => (h.packet hg htype).mono hattachments hcommands
  request := h.request
  paths := fun hg path hpath => isMissing_mono hattachments (h.paths hg path hpath)
  finished := fun hg hr => hissued (h.finished hg hr)
  started := h.started

/-- What adds attachments at most. -/
theorem Valid.congr (h : Valid dir runId m s) (hrecords : s'.files.records = s.files.records)
    (hmanifest : s'.files.manifest = s.files.manifest)
    (hattachments : s.files.attachments ⊆ s'.files.attachments)
    (hrunId : s'.ledger.runId = s.ledger.runId) (hconfig : s'.ledger.config = s.ledger.config)
    (hsequence : s.ledger.sequence ≤ s'.ledger.sequence) : Valid dir runId m s' := by
  have hsequences : s'.files.sequences = s.files.sequences := by
    simp only [RunFiles.sequences, RunFiles.sequencesOf, hrecords]
  have hissued : s'.files.issued .tool = s.files.issued .tool := by
    simp only [RunFiles.issued, hrecords]
  have hcommands : s'.files.commandIds = s.files.commandIds := by
    simp only [RunFiles.commandIds, RunFiles.load, hrecords]
  constructor
  · rw [hrunId]
    exact h.owner
  · rw [hconfig]
    exact h.enabled
  · rw [hmanifest]
    exact h.manifest
  · rw [hrecords]
    exact h.contexts
  · rw [hsequences]
    exact h.sequences
  · intro n hn
    rw [hsequences] at hn
    have := h.bounded n hn
    omega
  · have := h.nonneg
    omega
  · intro g r hr
    rw [hrecords] at hr
    exact (h.sound g r hr).mono hattachments (hissued ▸ List.Subset.refl _)
      (hcommands ▸ List.Subset.refl _)

theorem Valid.counters (h : Valid dir runId m s) (counters : Counter → Nat) :
    Valid dir runId m { s with ledger := { s.ledger with counters } } :=
  h.congr rfl rfl (List.Subset.refl _) rfl rfl (Int.le_refl _)

theorem Valid.correlated (h : Valid dir runId m s) : Valid dir runId m s.correlated :=
  h.congr rfl rfl (List.Subset.refl _) rfl rfl (by show s.ledger.sequence ≤ s.ledger.sequence + 1; omega)

theorem subset_write (f : RunFiles) (name : Text) : f.attachments ⊆ (f.write name).attachments := by
  intro x hx
  unfold RunFiles.write
  dsimp only
  split
  · exact hx
  · exact List.mem_append_left _ hx

theorem mem_write (f : RunFiles) (name : Text) : name ∈ (f.write name).attachments := by
  unfold RunFiles.write
  dsimp only
  split
  next h => exact h
  next => exact List.mem_append_right _ (List.mem_singleton_self _)

/-- A file that was written is not missing. -/
theorem isMissing_attachmentPath {f : RunFiles} {name : Text} (h : name ∈ f.attachments) :
    f.isMissing dir (attachmentPath name) = false := by
  refine isMissing_eq_false_iff.mpr (Or.inr ?_)
  unfold RunFiles.isFile
  rw [Bool.or_eq_true, List.any_eq_true]
  exact Or.inl ⟨name, h, beq_self_eq_true _⟩

@[simp] theorem isMissing_nil (f : RunFiles) : f.isMissing dir [] = false := rfl

theorem subset_issued_append (f : RunFiles) (g : Group) (r : Record) :
    f.issued .tool ⊆ (f.append g r).issued .tool := by
  unfold RunFiles.issued RunFiles.append
  dsimp only
  split
  · rw [List.filter_append, List.map_append]
    exact List.subset_append_left _ _
  · exact List.Subset.refl _

theorem subset_commandIds_append (f : RunFiles) (g : Group) (r : Record) :
    f.commandIds ⊆ (f.append g r).commandIds := by
  unfold RunFiles.commandIds RunFiles.load RunFiles.append
  dsimp only
  split
  · rw [List.filter_append, List.map_append]
    exact List.subset_append_left _ _
  · exact List.Subset.refl _

/-- **A record more** that is sound. -/
theorem Valid.appendRecord (h : Valid dir runId m s) (hg : g ≠ .contexts) {r : Record → Record}
    (hr : (r s.correlated.correlation).sequence = s.ledger.sequence + 1)
    (hsound : Sound dir runId (s.appendRecord g r) g (r s.correlated.correlation)) :
    Valid dir runId m (s.appendRecord g r) := by
  have hnonneg := h.nonneg
  have hnext := sequences_append_next h.sequences (fun n hn => (h.bounded n hn).2) g hr
  refine ⟨h.owner, h.enabled, h.manifest, ?_, ?_, ?_, ?_, ?_⟩
  · show (if Group.contexts = g then _ else s.files.records .contexts) = []
    rw [if_neg (Ne.symm hg)]
    exact h.contexts
  · exact hnext.1
  · intro n hn
    show 0 < n ∧ n ≤ s.ledger.sequence + 1
    rcases hnext.2 n hn with rfl | hold
    · omega
    · have := h.bounded n hold
      omega
  · show 0 ≤ s.ledger.sequence + 1
    omega
  · intro g' r' hr'
    have hold : r' ∈ s.files.records g' → Sound dir runId (s.appendRecord g r) g' r' := fun hmem =>
      (h.sound g' r' hmem).mono (List.Subset.refl _) (subset_issued_append _ _ _)
        (subset_commandIds_append _ _ _)
    have hr' : r' ∈ (if g' = g then s.files.records g' ++ [r s.correlated.correlation]
        else s.files.records g') := hr'
    split at hr'
    next heq =>
      rcases List.mem_append.mp hr' with hmem | hmem
      · exact hold hmem
      · rw [List.mem_singleton.mp hmem, heq]
        exact hsound
    next => exact hold hr'

/-- The keys of the correlation are the ones that are required. -/
theorem required_mem_correlation {key : String} (h : key ∈ requiredKeys) :
    key ∈ correlationKeys := by
  simp only [requiredKeys, List.mem_cons, List.not_mem_nil, or_false] at h
  rcases h with rfl | rfl | rfl | rfl | rfl | rfl | rfl | rfl <;> simp [correlationKeys]

/-- A record that is no event and has no paths but these. -/
theorem sound_of_paths (hevents : g ≠ .events) {r : Record} (hkeys : ∀ key ∈ requiredKeys, key ∈ r.keys)
    (hrunId : r.runId = runId)
    (hpaths : ∀ path ∈ [r.diagnosticsPath, r.tracebackPath, r.artifactPath],
      s.files.isMissing dir path = false)
    (hfinished : g = .tools → State.closesTool r = true → r.id ∈ s.files.issued .tool)
    (hstarted : g = .models → inPhase "started" r = true → r.id ≠ []) : Sound dir runId s g r :=
  ⟨hkeys, hrunId, fun h _ => absurd h hevents, fun h => absurd h hevents, fun _ => hpaths, hfinished,
    hstarted⟩

/-- Of none of the three paths anything is missing. -/
theorem no_paths {f : RunFiles} : ∀ path ∈ [([] : Text), [], []], f.isMissing dir path = false := by
  intro path hpath
  simp only [List.mem_cons, List.not_mem_nil, or_false, or_self] at hpath
  rw [hpath]
  exact isMissing_nil f

theorem Valid.logEvent (h : Valid dir runId m s) {type : Text} {fields : Fields} (hrunId : fields.runId = none)
    (hsequence : fields.sequence = none)
    (htype : fields.typeOf type = "diagnostics_parsed".toList →
      PacketThere dir s.files fields.diagnosticsPath)
    (hrequest : ("approval_".toList.isPrefixOf (fields.typeOf type) && fields.badRequest) = false) :
    Valid dir runId m (s.logEvent type fields) := by
  unfold State.logEvent
  rw [if_pos h.enabled]
  unfold State.issueRecord
  dsimp only
  refine Valid.appendRecord (h.counters _) ?_ ?_ ⟨?_, ?_, ?_, ?_, ?_, ?_, ?_⟩
  · exact fun hg => by cases hg
  · show fields.sequence.getD (s.ledger.sequence + 1) = s.ledger.sequence + 1
    rw [hsequence]
    rfl
  · intro key hkey
    show key ∈ correlationKeys ++ _ ++ fields.keys
    exact List.mem_append_left _ (List.mem_append_left _ (required_mem_correlation hkey))
  · show fields.runId.getD s.ledger.runId = runId
    rw [hrunId]
    exact h.owner
  · exact fun _ heq => (htype heq).mono (List.Subset.refl _) (subset_commandIds_append _ _ _)
  · exact fun _ => hrequest
  · exact fun hne => absurd rfl hne
  · exact fun hg => by cases hg
  · exact fun hg => by cases hg

/-- An event of the ledger's own. -/
theorem Valid.logOwn (h : Valid dir runId m s) {type : Text} (htype : type ≠ "diagnostics_parsed".toList)
    {cmdId : Text} : Valid dir runId m (s.logEvent type { cmdId }) :=
  h.logEvent rfl rfl (fun heq => absurd heq htype) (Bool.and_false _)

/-- A record with a new id that is no event. -/
theorem Valid.issueOwn (h : Valid dir runId m s) {k : Counter} (hcontext : k ≠ .context) (hevent : k ≠ .event)
    (keys : List String) (role model : Record → Text) :
    Valid dir runId m (s.issueRecord k { keys } fun c => { c with role := role c, model := model c }) := by
  unfold State.issueRecord
  dsimp only
  refine Valid.appendRecord (h.counters _) ?_ ?_ (sound_of_paths ?_ ?_ ?_ ?_ ?_ ?_)
  · intro hg
    cases k <;> cases hg
    exact hcontext rfl
  · rfl
  · intro hg
    cases k <;> cases hg
    exact hevent rfl
  · exact fun key hkey => List.mem_append_left _ (required_mem_correlation hkey)
  · exact h.owner
  · exact no_paths
  · intro _ hcloses
    have hphase : (k.phase == "finished".toList) = true := hcloses
    cases k <;> exact absurd hphase (by decide)
  · intro _ _
    cases k <;> simp [Counter.idAt, Counter.stem]

theorem Valid.logDecision (h : Valid dir runId m s) : Valid dir runId m s.logDecision := by
  unfold State.logDecision
  rw [if_pos h.enabled]
  refine Valid.logOwn ?_ (by decide)
  exact h.issueOwn (k := .decision) (by decide) (by decide) _ Record.role Record.model

theorem Valid.logToolCall (h : Valid dir runId m s) : Valid dir runId m s.logToolCall := by
  unfold State.logToolCall
  rw [if_pos h.enabled]
  refine Valid.logOwn ?_ (by decide)
  exact h.issueOwn (k := .tool) (by decide) (by decide) _ Record.role Record.model

/-- No role makes it the event of a packet: that type has another end. -/
theorem model_called_ne (role : Text) :
    role ++ "_model_called".toList ≠ "diagnostics_parsed".toList := by
  intro heq
  have hend := congrArg ending heq
  rw [ending_append _ (by decide)] at hend
  exact absurd hend (by decide)

theorem Valid.logModelCallStarted (h : Valid dir runId m s) (role model : Text) :
    Valid dir runId m (s.logModelCallStarted role model) := by
  unfold State.logModelCallStarted
  rw [if_pos h.enabled]
  refine Valid.logOwn ?_ (model_called_ne role)
  exact h.issueOwn (k := .model) (by decide) (by decide) _ (fun _ => role) fun _ => model

theorem Valid.write (h : Valid dir runId m s) (name : Text) :
    Valid dir runId m { s with files := s.files.write name } :=
  h.congr rfl rfl (subset_write _ _) rfl rfl (Int.le_refl _)

theorem Valid.numberedEvidence (h : Valid dir runId m s) (name : Nat → Text) :
    Valid dir runId m (s.numberedEvidence name) :=
  h.congr rfl rfl (subset_write _ _) rfl rfl (Int.le_refl _)

theorem Valid.recordException (h : Valid dir runId m s) (phase : Text) :
    Valid dir runId m (s.recordException phase) := by
  unfold State.recordException
  rw [if_pos h.enabled]
  exact (h.numberedEvidence _).logOwn (by decide)

theorem Valid.recordUnparsedResponse (h : Valid dir runId m s) (reason : Text) :
    Valid dir runId m (s.recordUnparsedResponse reason) := by
  unfold State.recordUnparsedResponse
  rw [if_pos h.enabled]
  exact (h.numberedEvidence _).logOwn (by decide)

theorem Valid.logCommandStart (h : Valid dir runId m s) : Valid dir runId m s.logCommandStart := by
  unfold State.logCommandStart
  rw [if_pos h.enabled]
  dsimp only
  refine Valid.logOwn ?_ ?_
  · exact h.congr rfl rfl (List.Subset.refl _) rfl rfl (Int.le_refl _)
  · decide

theorem Valid.logCommandFinish (h : Valid dir runId m s) (cmdId : Text) (exitCode : Int)
    (stdout stderr : Text) : Valid dir runId m (s.logCommandFinish cmdId exitCode stdout stderr) := by
  unfold State.logCommandFinish
  split
  · dsimp only
    refine Valid.logOwn ?_ ?_
    · split
      · exact h.congr rfl rfl (List.Subset.trans (subset_write _ _) (subset_write _ _)) rfl rfl (Int.le_refl _)
      · exact h
    · decide
  · exact h

theorem Valid.logMutationFinished (h : Valid dir runId m s) (transactionId : Text) (applied : Bool) :
    Valid dir runId m (s.logMutationFinished transactionId applied) := by
  unfold State.logMutationFinished
  rw [if_pos h.enabled]
  refine Valid.logOwn (Valid.appendRecord h ?_ rfl (sound_of_paths ?_ ?_ h.owner no_paths ?_ ?_)) ?_
  · exact fun hg => by cases hg
  · exact fun hg => by cases hg
  · exact fun key hkey => List.mem_append_left _ (required_mem_correlation hkey)
  · exact fun hg => by cases hg
  · exact fun hg => by cases hg
  · cases applied <;> decide

theorem Valid.logModelThinking (h : Valid dir runId m s) (callId role model thinking : Text) :
    Valid dir runId m (s.logModelThinking callId role model thinking) := by
  unfold State.logModelThinking
  split
  · refine Valid.logOwn (Valid.appendRecord h ?_ rfl (sound_of_paths ?_ ?_ h.owner no_paths ?_ ?_))
      (by decide)
    · exact fun hg => by cases hg
    · exact fun hg => by cases hg
    · exact fun key hkey => List.mem_append_left _ (required_mem_correlation hkey)
    · exact fun hg => by cases hg
    · exact fun _ hstarted => absurd hstarted (by simp [inPhase])
  · exact h

/-- The record of a model call that is over. -/
theorem Valid.appendClosed (h : Valid dir runId m s) {phase tracebackPath : Text}
    (hphase : phase ≠ "started".toList) (htraceback : s.files.isMissing dir tracebackPath = false)
    (callId role model : Text) :
    Valid dir runId m (s.appendRecord .models fun c =>
      { c with
        keys := c.keys ++ ["model_call_id", "phase"]
        id := callId, phase, role, model, tracebackPath }) := by
  refine Valid.appendRecord h ?_ ?_ (sound_of_paths ?_ ?_ ?_ ?_ ?_ ?_)
  · exact fun hg => by cases hg
  · rfl
  · exact fun hg => by cases hg
  · exact fun key hkey => List.mem_append_left _ (required_mem_correlation hkey)
  · exact h.owner
  · intro path hpath
    have hpath : path ∈ [[], tracebackPath, []] := hpath
    simp only [List.mem_cons, List.not_mem_nil, or_false] at hpath
    rcases hpath with rfl | rfl | rfl
    · exact isMissing_nil _
    · exact htraceback
    · exact isMissing_nil _
  · exact fun hg => by cases hg
  · exact fun _ hstarted => absurd (beq_iff_eq.mp hstarted) hphase

/-- What `record_exception` says it wrote is there. -/
theorem exceptionPath_there (h : Valid dir runId m s) (phase : Text) :
    (s.recordException phase).files.isMissing dir (s.exceptionPath phase) = false := by
  unfold State.recordException State.exceptionPath
  rw [if_pos h.enabled, if_pos h.enabled]
  dsimp only
  unfold State.logEvent
  split <;> exact isMissing_attachmentPath (mem_write _ _)

theorem Valid.logModelCallFinished (h : Valid dir runId m s) (role model callId error : Text) :
    Valid dir runId m (s.logModelCallFinished role model callId error) := by
  unfold State.logModelCallFinished
  rw [if_pos h.enabled]
  dsimp only
  cases error with
  | nil =>
    refine Valid.logOwn (h.appendClosed ?_ (isMissing_nil _) _ _ _) ?_
    · show "finished".toList ≠ "started".toList
      decide
    · decide
  | cons c error =>
    refine Valid.logOwn ((h.recordException _).appendClosed ?_ (exceptionPath_there h _) _ _ _) ?_
    · show "failed".toList ≠ "started".toList
      decide
    · show "model_call_failed".toList ≠ "diagnostics_parsed".toList
      decide

/-- The record of a tool call that is over. -/
theorem Valid.appendFinished (h : Valid dir runId m s) {callId : Text} (hcall : callId ∈ s.files.issued .tool)
    {diagnosticsPath tracebackPath artifactPath : Text}
    (hpaths : ∀ path ∈ [diagnosticsPath, tracebackPath, artifactPath],
      s.files.isMissing dir path = false) :
    Valid dir runId m (s.appendRecord .tools fun c =>
      { c with
        keys := c.keys ++ ["tool_call_id", "phase"]
        id := callId
        phase := "finished".toList
        diagnosticsPath, tracebackPath, artifactPath }) := by
  refine Valid.appendRecord h ?_ ?_ (sound_of_paths ?_ ?_ ?_ ?_ ?_ ?_)
  · exact fun hg => by cases hg
  · rfl
  · exact fun hg => by cases hg
  · exact fun key hkey => List.mem_append_left _ (required_mem_correlation hkey)
  · exact h.owner
  · exact hpaths
  · exact fun _ _ => subset_issued_append _ _ _ hcall
  · exact fun hg => by cases hg

theorem Valid.logToolResult (h : Valid dir runId m s) {r : ToolResult} (hcall : r.callId ∈ s.files.issued .tool)
    (hpaths : ∀ path ∈ [r.diagnosticsPath, r.tracebackPath, r.artifactPath],
      s.files.isMissing dir path = false) : Valid dir runId m (s.logToolResult r) := by
  unfold State.logToolResult
  rw [if_pos h.enabled]
  dsimp only
  by_cases hspills : (r.artifactPath.isEmpty && r.spilled) = true
  · rw [if_pos hspills, if_pos hspills]
    refine Valid.logOwn ((h.write _).appendFinished hcall ?_) ?_
    · intro path hpath
      simp only [List.mem_cons, List.not_mem_nil, or_false] at hpath
      rcases hpath with rfl | rfl | rfl
      · exact isMissing_mono (subset_write _ _) (hpaths _ List.mem_cons_self)
      · exact isMissing_mono (subset_write _ _) (hpaths _ (by simp))
      · exact isMissing_attachmentPath (mem_write _ _)
    · decide
  · rw [if_neg hspills, if_neg hspills]
    refine Valid.logOwn (h.appendFinished hcall hpaths) ?_
    decide

theorem Valid.recordFinalResponse (h : Valid dir runId m s) (finalOutput : Text) :
    Valid dir runId m (s.recordFinalResponse finalOutput) := by
  unfold State.recordFinalResponse
  rw [if_pos h.enabled]
  dsimp only
  refine Valid.logOwn ?_ ?_
  · exact h.congr rfl rfl (List.Subset.refl _) rfl rfl (Int.le_refl _)
  · decide

/-- **One call** that fits keeps the run valid. -/
theorem Valid.step (h : Valid dir runId m s) {call : Call} (hfits : Fits dir s call) :
    Valid dir runId m (s.step call) := by
  cases call with
  | logEvent type fields =>
    obtain ⟨hrunId, hsequence, htype, hrequest⟩ := hfits
    exact h.logEvent hrunId hsequence htype hrequest
  | logDecision => exact h.logDecision
  | logToolCall => exact h.logToolCall
  | logToolResult r => exact h.logToolResult hfits.1 hfits.2
  | logModelCallStarted role model => exact h.logModelCallStarted role model
  | logModelCallFinished role model callId error => exact h.logModelCallFinished role model callId error
  | logModelThinking callId role model thinking => exact h.logModelThinking callId role model thinking
  | logCommandStart => exact h.logCommandStart
  | logCommandFinish cmdId exitCode stdout stderr =>
    exact h.logCommandFinish cmdId exitCode stdout stderr
  | recordException phase => exact h.recordException phase
  | recordUnparsedResponse reason => exact h.recordUnparsedResponse reason
  | logMutationFinished transactionId applied => exact h.logMutationFinished transactionId applied
  | recordFinalResponse finalOutput => exact h.recordFinalResponse finalOutput
  | reopen | start | logDiagnostics | logContextPreview | finish => exact hfits.elim

/-- The manifest is written. -/
theorem Valid.setManifest (h : Valid dir runId m s) (m' : Manifest) :
    Valid dir runId m' { s with files := { s.files with manifest := m' } } := by
  refine ⟨h.owner, h.enabled, rfl, h.contexts, h.sequences, h.bounded, h.nonneg, fun g r hr => ?_⟩
  exact (h.sound g r hr).mono (List.Subset.refl _) (List.Subset.refl _) (List.Subset.refl _)

theorem valid_start (dir : RunDir) (runId : Text) {config : Config} (henabled : config.enabled = true) :
    Valid dir runId (some .running) (State.first runId config).start := by
  have hfirst : Valid dir runId none (State.first runId config) := by
    refine ⟨rfl, henabled, rfl, rfl, List.nodup_nil, ?_, Int.le_refl _, ?_⟩
    · exact fun _ hn => by cases hn
    · exact fun _ _ hr => by cases hr
  unfold State.start
  rw [if_pos hfirst.enabled]
  dsimp only
  have hrunning := hfirst.correlated.setManifest (some .running)
  refine Valid.logOwn (Valid.logOwn hrunning ?_) ?_
  all_goals decide

/-! ## Closing what is open -/

theorem records_logEvent (hg : g ≠ .events) (type : Text) (fields : Fields) :
    (s.logEvent type fields).files.records g = s.files.records g := by
  unfold State.logEvent
  split
  · exact if_neg hg
  · rfl

theorem records_recordException (hg : g ≠ .events) (phase : Text) :
    (s.recordException phase).files.records g = s.files.records g := by
  unfold State.recordException
  split
  · exact records_logEvent hg _ _
  · rfl

theorem records_appendRecord (s : State) (g : Group) (r : Record → Record) :
    (s.appendRecord g r).files.records g = s.files.records g ++ [r s.correlated.correlation] :=
  records_append_self _ _ _

theorem records_appendRecord_ne {g' : Group} (h : g' ≠ g) (r : Record → Record) :
    (s.appendRecord g r).files.records g' = s.files.records g' :=
  records_append_ne _ h _

/-- A record that closes the call, and gives no id. -/
structure Closes (records records' : List Record) (phase : String) (closes : Record → Bool)
    (id : Text) (r : Record) : Prop where
  appended : records' = records ++ [r]
  id : r.id = id
  closes : closes r = true
  phase : inPhase phase r = false

theorem closes_appendRecord (s : State) (hg : g ≠ .events) (r : Record → Record) (type : Text)
    (fields : Fields) {phase : String} {closes : Record → Bool} {id : Text}
    (hid : (r s.correlated.correlation).id = id) (hcloses : closes (r s.correlated.correlation) = true)
    (hphase : inPhase phase (r s.correlated.correlation) = false) :
    Closes (s.files.records g) (((s.appendRecord g r).logEvent type fields).files.records g) phase
      closes id (r s.correlated.correlation) :=
  ⟨(records_logEvent hg _ _).trans (records_appendRecord s g r), hid, hcloses, hphase⟩

theorem closes_logToolResult (henabled : s.ledger.config.enabled = true) (callId : Text) :
    ∃ r, Closes (s.files.records .tools) ((s.logToolResult { callId }).files.records .tools) "called"
      State.closesTool callId r := by
  unfold State.logToolResult
  rw [if_pos henabled]
  exact ⟨_, closes_appendRecord s (by decide) _ _ _ rfl rfl rfl⟩

theorem closes_logModelCallFinished (henabled : s.ledger.config.enabled = true)
    (role model error : Text) {callId : Text} (hcallId : callId ≠ []) :
    ∃ r, Closes (s.files.records .models)
      ((s.logModelCallFinished role model callId error).files.records .models) "started"
      State.closesModel callId r := by
  have hempty : callId.isEmpty = false := by
    rw [← Bool.not_eq_true, List.isEmpty_iff]
    exact hcallId
  unfold State.logModelCallFinished
  rw [if_pos henabled]
  simp only [hempty, Bool.false_eq_true, if_false]
  cases error with
  | nil => exact ⟨_, closes_appendRecord s (by decide) _ _ _ rfl rfl rfl⟩
  | cons c error =>
    have hrecords : (s.recordException "model".toList).files.records .models =
        s.files.records .models := records_recordException (by decide) _
    rw [← hrecords]
    exact ⟨_, closes_appendRecord (s.recordException "model".toList) (by decide) _ _ _ rfl rfl rfl⟩

theorem records_logModelCallFinished (role model callId error : Text) :
    (s.logModelCallFinished role model callId error).files.records .tools =
      s.files.records .tools := by
  unfold State.logModelCallFinished
  split
  · dsimp only
    rw [records_logEvent (by decide), records_appendRecord_ne (by decide)]
    split
    · exact records_recordException (by decide) _
    · rfl
  · rfl

/-- **Closing one record after another**: all of them are closed, and no id is given. -/
theorem closes_foldl {phase : String} {closes : Record → Bool} {f : State → Record → State}
    {I : State → Prop} {Q : Record → Prop} (hI : ∀ s r, I s → Q r → I (f s r))
    (hclose : ∀ s r, I s → Q r → ∃ r', Closes (s.files.records g) ((f s r).files.records g)
      phase closes r.id r') (records : List Record) (s : State) (hs : I s) (hQ : ∀ r ∈ records, Q r) :
    let s' := records.foldl f s
    I s' ∧ idsWhere (s'.files.records g) (inPhase phase) = idsWhere (s.files.records g) (inPhase phase) ∧
      idsWhere (s.files.records g) closes ⊆ idsWhere (s'.files.records g) closes ∧
        ∀ r ∈ records, r.id ∈ idsWhere (s'.files.records g) closes := by
  induction records generalizing s with
  | nil => exact ⟨hs, rfl, List.Subset.refl _, fun _ hr => by cases hr⟩
  | cons r records ih =>
    have hr := hQ r List.mem_cons_self
    obtain ⟨r', happended, hid, hcloses, hphase⟩ := hclose s r hs hr
    obtain ⟨hI', hgiven, hkept, hclosed⟩ := ih (f s r) (hI s r hs hr)
      fun r' hr' => hQ r' (List.mem_cons_of_mem _ hr')
    have hids : idsWhere ((f s r).files.records g) closes =
        idsWhere (s.files.records g) closes ++ [r.id] := by
      unfold idsWhere
      rw [happended, List.filter_append, List.map_append, List.filter_singleton, hcloses, ← hid]
      rfl
    refine ⟨hI', ?_, ?_, ?_⟩
    · show idsWhere ((records.foldl f (f s r)).files.records g) _ = _
      rw [hgiven]
      unfold idsWhere
      rw [happended, List.filter_append, List.filter_singleton, hphase]
      simp
    · intro id hmem
      refine hkept ?_
      rw [hids]
      exact List.mem_append_left _ hmem
    · intro r'' hr''
      rcases List.mem_cons.mp hr'' with rfl | hr''
      · refine hkept ?_
        rw [hids]
        exact List.mem_append_right _ (List.mem_singleton_self _)
      · exact hclosed r'' hr''

/-- When what was open is closed, all is. -/
theorem subset_of_open {records records' : List Record} {phase : String} {closes : Record → Bool}
    (hkept : idsWhere records closes ⊆ idsWhere records' closes)
    (hclosed : ∀ r ∈ State.openRecords records phase closes, r.id ∈ idsWhere records' closes) :
    idsWhere records (inPhase phase) ⊆ idsWhere records' closes := by
  intro id hid
  obtain ⟨r, hr, rfl⟩ := List.mem_map.mp hid
  obtain ⟨hmem, hphase⟩ := List.mem_filter.mp hr
  by_cases hopen : r.id ∈ idsWhere records closes
  · exact hkept hopen
  · refine hclosed r (List.mem_filter.mpr ⟨hmem, ?_⟩)
    rw [Bool.and_eq_true, Bool.not_eq_true', ← Bool.not_eq_true, List.contains_iff_mem]
    exact ⟨hphase, hopen⟩

/-- Every call of a kind is closed. -/
def AllClosed (records : List Record) (phase : String) (closes : Record → Bool) : Prop :=
  idsWhere records (inPhase phase) ⊆ idsWhere records closes

theorem Valid.closeTools (h : Valid dir runId m s) :
    Valid dir runId m s.closeTools ∧
      AllClosed (s.closeTools.files.records .tools) "called" State.closesTool := by
  have hfold := closes_foldl (g := .tools)
    (I := fun s' => Valid dir runId m s' ∧
      idsWhere (s.files.records .tools) (inPhase "called") ⊆ s'.files.issued .tool)
    (Q := fun r => r.id ∈ idsWhere (s.files.records .tools) (inPhase "called"))
    (f := fun s r => s.logToolResult { callId := r.id })
    (fun s' r hs' hr => by
      refine ⟨hs'.1.logToolResult (hs'.2 hr) no_paths, ?_⟩
      obtain ⟨r', hcloses⟩ := closes_logToolResult hs'.1.enabled r.id
      intro id hid
      show id ∈ idsWhere ((s'.logToolResult { callId := r.id }).files.records .tools) (inPhase "called")
      unfold idsWhere
      rw [hcloses.appended, List.filter_append, List.map_append]
      exact List.mem_append_left _ (hs'.2 hid))
    (fun s' r hs' hr => closes_logToolResult hs'.1.enabled r.id)
    (State.openRecords (s.files.records .tools) "called" State.closesTool) s
    ⟨h, List.Subset.refl _⟩
    (fun r hr => by
      obtain ⟨hmem, hopen⟩ := List.mem_filter.mp hr
      exact List.mem_map_of_mem (List.mem_filter.mpr ⟨hmem, (Bool.and_eq_true _ _ ▸ hopen).1⟩))
  obtain ⟨hI, hgiven, hkept, hclosed⟩ := hfold
  refine ⟨hI.1, ?_⟩
  unfold AllClosed State.closeTools
  rw [hgiven]
  exact subset_of_open hkept hclosed

theorem Valid.closeModels (h : Valid dir runId m s) :
    Valid dir runId m s.closeModels ∧
      s.closeModels.files.records .tools = s.files.records .tools ∧
      AllClosed (s.closeModels.files.records .models) "started" State.closesModel := by
  have hfold := closes_foldl (g := .models)
    (I := fun s' => Valid dir runId m s' ∧ s'.files.records .tools = s.files.records .tools)
    (Q := fun r => r.id ≠ [])
    (f := fun s r => s.logModelCallFinished r.role r.model r.id
      "Run ended before the model call returned.".toList)
    (fun s' r hs' _ => ⟨hs'.1.logModelCallFinished _ _ _ _,
      (records_logModelCallFinished _ _ _ _).trans hs'.2⟩)
    (fun s' r hs' hr => closes_logModelCallFinished hs'.1.enabled _ _ _ hr)
    (State.openRecords (s.files.records .models) "started" State.closesModel) s ⟨h, rfl⟩
    (fun r hr => by
      obtain ⟨hmem, hopen⟩ := List.mem_filter.mp hr
      exact (h.sound .models r hmem).started rfl (Bool.and_eq_true _ _ ▸ hopen).1)
  obtain ⟨hI, hgiven, hkept, hclosed⟩ := hfold
  refine ⟨hI.1, hI.2, ?_⟩
  unfold AllClosed State.closeModels
  rw [hgiven]
  exact subset_of_open hkept hclosed

/-- What `finish` leaves. -/
structure Complete (f : RunFiles) : Prop where
  tools : AllClosed (f.records .tools) "called" State.closesTool
  models : AllClosed (f.records .models) "started" State.closesModel
  finalOutput : f.finalOutput.isSome = true
  summary : f.summary = true

/-- The events can be summarized. -/
theorem Valid.summarizes (h : Valid dir runId m s) : State.summarizes s.files = true := by
  unfold State.summarizes
  rw [List.all_eq_true]
  intro e he
  rw [(h.sound .events e he).request rfl]
  rfl

theorem finalOutput_logEvent (type : Text) (fields : Fields) :
    (s.logEvent type fields).files.finalOutput = s.files.finalOutput := by
  unfold State.logEvent
  split <;> rfl

/-- The final output is written when it is not there yet. -/
theorem Valid.finalOutput (h : Valid dir runId m s) (finalOutput : Text) :
    ∃ s', (if s.files.finalOutput = some finalOutput then s else s.recordFinalResponse finalOutput) =
        s' ∧ Valid dir runId m s' ∧ s'.files.finalOutput.isSome = true ∧
      s'.files.records .tools = s.files.records .tools ∧
        s'.files.records .models = s.files.records .models := by
  split
  next hthere => exact ⟨s, rfl, h, by rw [hthere]; rfl, rfl, rfl⟩
  next =>
    refine ⟨_, rfl, h.recordFinalResponse finalOutput, ?_⟩
    unfold State.recordFinalResponse
    rw [if_pos h.enabled]
    dsimp only
    rw [finalOutput_logEvent, records_logEvent (by decide), records_logEvent (by decide)]
    exact ⟨rfl, rfl, rfl⟩

/-- The manifest is closed, and the event tells of it. -/
theorem Valid.terminal (h : Valid dir runId m s) (status : RunStatus) {type : Text}
    (htype : type ≠ "diagnostics_parsed".toList) :
    ∃ s', State.logEvent { s with files := { s.files with manifest := some status } } type {} = s' ∧
      Valid dir runId (some status) s' ∧ s'.files.finalOutput = s.files.finalOutput ∧
        ∀ g, g ≠ .events → s'.files.records g = s.files.records g := by
  refine ⟨_, rfl, (h.setManifest (some status)).logOwn htype, ?_, ?_⟩
  · exact finalOutput_logEvent _ _
  · exact fun g hg => records_logEvent hg _ _

/-- **`finish`** closes what is open, and leaves all the documents. -/
theorem Valid.finish (h : Valid dir runId (some .running) s) (finalOutput : Text) {status : RunStatus}
    (hstatus : status ∈ terminalOutcomes) :
    Valid dir runId (some status) (s.finish finalOutput status) ∧
      Complete (s.finish finalOutput status).files := by
  have hopen : ¬ ((!s.ledger.config.enabled || !terminalOutcomes.contains status ||
      s.files.manifest.isTerminal) = true) := by
    rw [h.enabled, List.contains_iff_mem.mpr hstatus, h.manifest]
    decide
  unfold State.finish
  rw [if_neg hopen]
  dsimp only
  obtain ⟨htools, hclosedTools⟩ := h.closeTools
  obtain ⟨hmodels, hsame, hclosedModels⟩ := htools.closeModels
  rw [← hsame] at hclosedTools
  generalize s.closeTools.closeModels = s₁ at hmodels hclosedTools hclosedModels ⊢
  obtain ⟨s₂, hs₂, hwritten, hfinal, htools₂, hmodels₂⟩ := hmodels.finalOutput finalOutput
  have hmanifest : ¬ (s₂.files.manifest.isNone = true) := by
    rw [hwritten.manifest]
    decide
  rw [hs₂, if_neg hmanifest]
  have htype : (if (status == .success || status == .successUnverified) = true then "run_finished"
      else "run_failed").toList ≠ "diagnostics_parsed".toList := by split <;> decide
  obtain ⟨s₃, hs₃, hterminal, hout, hrecords⟩ := hwritten.terminal status htype
  rw [hs₃, if_pos hterminal.correlated.summarizes]
  refine ⟨hterminal.correlated.congr rfl rfl (List.Subset.refl _) rfl rfl (Int.le_refl _), ?_⟩
  constructor
  · show AllClosed (s₃.files.records .tools) _ _
    rw [hrecords .tools (by decide), htools₂]
    exact hclosedTools
  · show AllClosed (s₃.files.records .models) _ _
    rw [hrecords .models (by decide), hmodels₂]
    exact hclosedModels
  · show s₃.files.finalOutput.isSome = true
    rw [hout]
    exact hfinal
  · rfl

theorem recordErrors_eq_nil {r : Record} (hkeys : ∀ key ∈ requiredKeys, key ∈ r.keys)
    (hrunId : r.runId = runId) (name : String) (index : Nat) :
    recordErrors runId name r index = [] := by
  have hmissing : requiredKeys.filter (fun key => !r.keys.contains key) = [] := by
    rw [List.filter_eq_nil_iff]
    intro key hkey
    rw [List.contains_iff_mem.mpr (hkeys key hkey)]
    decide
  unfold recordErrors
  dsimp only
  rw [hmissing, if_pos hrunId]
  rfl

theorem diagnosticErrors_eq_nil {f : RunFiles} {e : Record} (h : PacketThere dir f e.diagnosticsPath) :
    diagnosticErrors f dir e = [] := by
  obtain ⟨hpath, hfile, packet, hpacket, hoperation, hlog, htraceback⟩ := h
  have hempty : e.diagnosticsPath.isEmpty = false := by
    rw [← Bool.not_eq_true, List.isEmpty_iff]
    exact hpath
  have hcommand : (!packet.operationId.isEmpty && !f.commandIds.contains packet.operationId) =
      false := by
    rcases hoperation with hnone | hmem
    · rw [hnone]
      rfl
    · rw [List.contains_iff_mem.mpr hmem]
      exact Bool.and_false _
  have hthere : ∀ {path}, isAbsolute path = true ∨ f.isMissing dir path = false →
      (!isAbsolute path && f.isMissing dir path) = false := by
    intro path hpath
    rcases hpath with hpath | hpath
    · rw [hpath]
      rfl
    · rw [hpath]
      exact Bool.and_false _
  unfold diagnosticErrors
  dsimp only
  rw [hempty, hfile, hpacket]
  dsimp only
  unfold packetErrors
  rw [hcommand, hthere hlog, hthere htraceback]
  rfl

theorem sortedWithout_eq_nil {ids others : List Text} (h : ids ⊆ others) :
    sortedWithout ids others = [] := by
  have hfilter : (ids.filter fun id => !others.contains id) = [] := by
    rw [List.filter_eq_nil_iff]
    intro id hid
    rw [List.contains_iff_mem.mpr (h hid)]
    decide
  unfold sortedWithout
  rw [hfilter, List.dedup_nil, List.mergeSort_nil]

theorem pathErrors_eq_nil {f : RunFiles} {path : Text} (h : f.isMissing dir path = false)
    (call : String) (id : Text) (what : String) : pathErrors f dir call id what path = [] := by
  unfold pathErrors
  rw [h]
  rfl

section

variable {status : RunStatus} (h : Valid dir runId (some status) s)

include h

theorem Valid.load (g : Group) : s.files.load g = s.files.records g := by
  cases g with
  | contexts =>
    show s.files.loadContexts = _
    unfold RunFiles.loadContexts
    rw [h.contexts]
    rfl
  | _ => rfl

theorem Valid.documentErrors (hcomplete : Complete s.files) : documentErrors s.files = [] := by
  unfold Ledger.documentErrors
  obtain ⟨out, hout⟩ := Option.isSome_iff_exists.mp hcomplete.finalOutput
  rw [h.manifest, hcomplete.summary, hout]
  simp

theorem Valid.groupErrors : groupErrors runId s.files = [] := by
  unfold Ledger.groupErrors
  rw [List.flatMap_eq_nil_iff]
  intro hsome _
  obtain ⟨name, g⟩ := hsome
  dsimp only
  rw [List.flatMap_eq_nil_iff]
  intro hsome hr
  obtain ⟨r, index⟩ := hsome
  have hr := List.fst_mem_of_mem_zipIdx hr
  rw [h.load] at hr
  have hsound := h.sound g r hr
  exact recordErrors_eq_nil hsound.keys hsound.runId name index

theorem Valid.sequenceErrors : sequenceErrors s.files = [] := by
  have hsequences : (namedGroups.flatMap fun p => (s.files.load p.2).map Record.sequence) =
      s.files.sequences := by
    simp [namedGroups, RunFiles.sequences, RunFiles.sequencesOf, Group.files, h.load, h.contexts]
  unfold Ledger.sequenceErrors
  dsimp only
  rw [hsequences, if_pos h.sequences]
  have hpositive : s.files.sequences.any (· ≤ 0) = false := by
    rw [List.any_eq_false]
    intro n hn
    have := (h.bounded n hn).1
    simp only [decide_eq_true_eq]
    omega
  rw [hpositive]
  rfl

theorem Valid.callErrors (hcomplete : Complete s.files) : callErrors s.files = [] := by
  have hfinished : idsWhere (s.files.records .tools) State.closesTool ⊆
      idsWhere (s.files.records .tools) (inPhase "called") := by
    intro id hid
    obtain ⟨r, hr, rfl⟩ := List.mem_map.mp hid
    obtain ⟨hmem, hcloses⟩ := List.mem_filter.mp hr
    exact (h.sound .tools r hmem).finished rfl hcloses
  unfold Ledger.callErrors
  dsimp only
  rw [h.load, h.load, h.load, h.contexts, sortedWithout_eq_nil hcomplete.tools,
    sortedWithout_eq_nil hfinished, sortedWithout_eq_nil hcomplete.models]
  rfl

theorem Valid.artifactErrors : artifactErrors s.files dir = [] := by
  have hevents : ((s.files.records .events).filter fun e =>
      e.type == "diagnostics_parsed".toList).flatMap (diagnosticErrors s.files dir) = [] := by
    rw [List.flatMap_eq_nil_iff]
    intro e he
    obtain ⟨he, htype⟩ := List.mem_filter.mp he
    exact diagnosticErrors_eq_nil ((h.sound .events e he).packet rfl (beq_iff_eq.mp htype))
  have hmissing : ∀ g, g ≠ .events → ∀ r ∈ s.files.records g,
      ∀ path ∈ [r.diagnosticsPath, r.tracebackPath, r.artifactPath],
        s.files.isMissing dir path = false := fun g hg r hr => (h.sound g r hr).paths hg
  unfold Ledger.artifactErrors
  rw [h.load, h.load, h.load, hevents]
  have htools : ((s.files.records .tools).flatMap fun r =>
      pathErrors s.files dir "tool call " r.id "diagnostics" r.diagnosticsPath ++
      pathErrors s.files dir "tool call " r.id "traceback" r.tracebackPath ++
      pathErrors s.files dir "tool call " r.id "artifact" r.artifactPath) = [] := by
    rw [List.flatMap_eq_nil_iff]
    intro r hr
    have hr := hmissing .tools (by decide) r hr
    rw [pathErrors_eq_nil (hr _ (by simp)), pathErrors_eq_nil (hr _ (by simp)),
      pathErrors_eq_nil (hr _ (by simp))]
    rfl
  have hmodels : ((s.files.records .models).flatMap fun r =>
      pathErrors s.files dir "model call " r.id "traceback" r.tracebackPath) = [] := by
    rw [List.flatMap_eq_nil_iff]
    intro r hr
    exact pathErrors_eq_nil (hmissing .models (by decide) r hr _ (by simp)) _ _ _
  rw [htools, hmodels]
  rfl

/-- **A complete run validates.** -/
theorem Valid.errors (hcomplete : Complete s.files) : (validateRun runId s.files dir).errors = [] := by
  show Ledger.documentErrors s.files ++ Ledger.groupErrors runId s.files ++
    Ledger.sequenceErrors s.files ++ Ledger.callErrors s.files ++
    Ledger.artifactErrors s.files dir = []
  rw [h.documentErrors hcomplete, h.groupErrors, h.sequenceErrors, h.callErrors hcomplete,
    h.artifactErrors]
  rfl

end

/-- A configuration of the example runs. -/
private def quiet : Config := ⟨true, false, true, id, Char.isAlphanum, id⟩

end Shamsu.Ledger
