import Shamsu.Ledger.Manifest

/-!
# The outcome that the records of a run show

`ActionLedger.evidence_outcome` reads the events, the mutations and the tool calls of a
run. Each is a file of its own; here they are the rows of one log, in the order they were
written, so that a row of one file can be after a row of another.

It asks whether something was verified, not when, and of each tool it looks at the last
call only. `success_checked` says when a success is one: `broken_success` is a run with a
failed edit and an unverified change that is reported as a success.
-/

namespace Shamsu.Ledger

open Shamsu.Py

/-- An event: its type and what is read of it. `exitCode` is 1 where it is missing or no
number. -/
structure EventRow where
  type : Text
  verifierId : Text := []
  command : Text := []
  exitCode : Int := 1
  files : List Text := []
  deriving DecidableEq, Repr

/-- A row of the tool calls. A call that is begun has arguments, of which only `filepath` is
looked at, and one that is finished has `ok`. -/
structure ToolRow where
  phase : Text
  callId : Text
  tool : Text := "unknown".toList
  ok : Bool := false
  filepath : Text := []
  deriving DecidableEq, Repr

/-- A row of the log. `other` is one of the files that are not read here. -/
inductive Row where
  | event (e : EventRow)
  | mutation (status : Text)
  | tool (t : ToolRow)
  | other
  deriving DecidableEq, Repr

/-- `events.jsonl`. -/
def eventRows (log : List Row) : List EventRow :=
  log.filterMap fun
    | .event e => some e
    | _ => none

/-- `mutations.jsonl`: the statuses. -/
def mutationStatuses (log : List Row) : List Text :=
  log.filterMap fun
    | .mutation status => some status
    | _ => none

/-- `tool_calls.jsonl`. -/
def toolRows (log : List Row) : List ToolRow :=
  log.filterMap fun
    | .tool t => some t
    | _ => none

/-- An event of that type was logged. -/
def hasEvent (log : List Row) (type : String) : Bool :=
  (eventRows log).any fun e => e.type == type.toList

/-- What is in a dict that the elements were put into by key: of each key the last. -/
def lastBy {α : Type} (key : α → Text) : List α → List α
  | [] => []
  | a :: l => if l.any fun b => key b == key a then lastBy key l else a :: lastBy key l

/-- The elements, with what comes after each. -/
def withLater {α : Type} : List α → List (α × List α)
  | [] => []
  | a :: l => (a, l) :: withLater l

/-- `_has_unrecovered_command_failure`. -/
def hasUnrecoveredCommandFailure (events : List EventRow) : Bool :=
  ((events.filter fun e => e.type == "command_finished".toList).getLast?).any fun e =>
    e.exitCode != 0

/-- `_has_unrecovered_verification_failure`. -/
def hasUnrecoveredVerificationFailure (events : List EventRow) : Bool :=
  let verdicts := events.filter fun e =>
    e.type == "verification_failed".toList || e.type == "verification_passed".toList
  let key (e : EventRow) : Text :=
    if e.verifierId ≠ [] then e.verifierId
    else if e.command ≠ [] then e.command
    else "__general__".toList
  (lastBy key verdicts).any fun e => e.type != "verification_passed".toList

/-- What recovers from a denial. -/
def EventRow.recovers (e : EventRow) : Bool :=
  ["patch_apply_succeeded", "verification_passed", "mutation_finished"].any
      (fun type => e.type == type.toList) ||
    (e.type == "command_finished".toList && e.exitCode == 0)

/-- `_has_unrecovered_denial`. -/
def hasUnrecoveredDenial (events : List EventRow) : Bool :=
  let denied (e : EventRow) : Bool := e.type == "approval_denied".toList
  events.any denied && !(events.reverse.takeWhile fun e => !denied e).any EventRow.recovers

/-- `_has_unrecovered_patch_failure`. -/
def hasUnrecoveredPatchFailure (events : List EventRow) : Bool :=
  let attempts := events.flatMap fun e =>
    if e.type == "patch_apply_failed".toList || e.type == "patch_apply_succeeded".toList then
      (if e.files = [] then ["__unknown__".toList] else e.files).map fun file =>
        (file, e.type == "patch_apply_succeeded".toList)
    else []
  (lastBy Prod.fst attempts).any fun attempt => !attempt.2

/-- The tools that write a file. -/
def writeTools : List Text := ["edit_file".toList, "append_file".toList, "write_file".toList]

/-- The tools whose failure a later write of the same file makes good. -/
def fileTools : List Text := "read_file".toList :: writeTools

def ToolRow.isCalled (r : ToolRow) : Bool := r.phase == "called".toList

def ToolRow.isFinished (r : ToolRow) : Bool := r.phase == "finished".toList

/-- The file that a call names, by its id. -/
def pathOf (rows : List ToolRow) (callId : Text) : Text :=
  let called := (rows.filter fun r => r.isCalled && r.callId == callId).getLast?
  ((called.map ToolRow.filepath).getD []).map fun c => if c = '\\' then '/' else c

/-- A write of that file that went well. -/
def ToolRow.wrote (rows : List ToolRow) (path : Text) (r : ToolRow) : Bool :=
  r.isFinished && r.ok && writeTools.contains r.tool && pathOf rows r.callId == path

/-- `_has_unrecovered_tool_failure`. -/
def hasUnrecoveredToolFailure (rows : List ToolRow) : Bool :=
  let latest := lastBy (fun r => r.1.tool) ((withLater rows).filter fun r => r.1.isFinished)
  latest.any fun (record, later) =>
    let failedPath := pathOf rows record.callId
    let recovered := failedPath != [] && later.any fun r => r.wrote rows failedPath
    !record.ok && (!fileTools.contains record.tool || !recovered)

/-- `mutation_seen`. -/
def mutationSeen (log : List Row) : Bool :=
  mutationStatuses log != [] || hasEvent log "patch_apply_succeeded"

/-- The outcome that is not a success, if something speaks for one. -/
def objection (log : List Row) : Option RunStatus :=
  let events := eventRows log
  let failureEventSeen := ["patch_validation_failed", "mutation_required_but_missing",
    "contract_failed", "agent_stopped"].any (hasEvent log)
  let badMutationSeen := (mutationStatuses log).any fun status =>
    status != "applied".toList && status != "rolled_back".toList
  if hasEvent log "run_cancelled" then some .cancelled
  else if hasEvent log "run_timed_out" then some .timedOut
  else if hasEvent log "run_needs_input" then some .needsInput
  else if hasUnrecoveredDenial events then some .denied
  else if hasEvent log "composite_failed" then some .failed
  else if hasEvent log "composite_partial" then some .partialSuccess
  else if hasUnrecoveredVerificationFailure events || hasUnrecoveredCommandFailure events ||
      failureEventSeen || badMutationSeen || hasUnrecoveredToolFailure (toolRows log) ||
      hasUnrecoveredPatchFailure events then
    some .failed
  else none

/-- `evidence_outcome`, of a run with that manifest. -/
def evidenceOutcome (manifest : Manifest) (log : List Row) : RunStatus :=
  match manifest.filter fun status => terminalOutcomes.contains status with
  | some status => status
  | none =>
    match objection log with
    | some outcome => outcome
    | none =>
      if mutationSeen log && hasEvent log "verification_passed" &&
          !hasEvent log "contract_unresolved" then
        .success
      else if mutationSeen log then .successUnverified
      else .success

/-! ## What a success should be -/

/-- A change of files that was applied. -/
def Row.applies : Row → Bool
  | .event e => e.type == "patch_apply_succeeded".toList
  | .mutation status => status == "applied".toList
  | _ => false

def Row.verifies : Row → Bool
  | .event e => e.type == "verification_passed".toList
  | _ => false

/-- Something was verified after the last change. -/
def VerifiedLast (log : List Row) : Prop :=
  (log.reverse.takeWhile fun r => !r.applies).any Row.verifies = true

/-- The last write call that names a file. -/
def lastCall (rows : List ToolRow) (path : Text) : Option ToolRow :=
  (rows.filter fun r =>
    r.isCalled && writeTools.contains r.tool && pathOf rows r.callId == path).getLast?

/-- The row that a call finished with, and the rows after it. -/
def resultOf (rows : List ToolRow) (callId : Text) : Option (ToolRow × List ToolRow) :=
  ((withLater rows).filter fun r => r.1.isFinished && r.1.callId == callId).getLast?

/-- The last write call of every file went well. -/
def LastWritesOk (rows : List ToolRow) : Prop :=
  ∀ path, path ≠ [] → ∀ call, lastCall rows path = some call →
    ∃ r later, resultOf rows call.callId = some (r, later) ∧ r.ok = true

/-- No change is applied after the last verification. -/
def NothingAfter (log : List Row) : Prop :=
  (log.reverse.takeWhile fun r => !r.verifies).any Row.applies = false

/-- The last write call of every file is finished, and where it failed that is not hidden: no
call of the same tool finished after it, nor a write of the file. -/
def NothingHidden (rows : List ToolRow) : Prop :=
  ∀ path, path ≠ [] → ∀ call, lastCall rows path = some call →
    ∃ r later, resultOf rows call.callId = some (r, later) ∧
      (r.ok = true ∨ (later.any fun l => l.isFinished && l.tool == r.tool) = false ∧
        (later.any fun l => l.wrote rows path) = false)

/-- When a success can be relied on. A run that is closed as a success is one whatever its
rows say; otherwise something must object, or nothing was verified, or the contract is
open, or nothing came after the verification and no failure is hidden. -/
def Reliable (manifest : Manifest) (log : List Row) : Prop :=
  if manifest.isTerminal then
    manifest = some .success → VerifiedLast log ∧ LastWritesOk (toolRows log)
  else
    objection log ≠ none ∨ hasEvent log "verification_passed" = false ∨
      hasEvent log "contract_unresolved" = true ∨
      NothingAfter log ∧ NothingHidden (toolRows log)

section Lists

variable {α : Type} {key : α → Text} {l before after : List α} {a : α}

theorem mem_lastBy (h : ∀ b ∈ after, key b ≠ key a) : a ∈ lastBy key (before ++ a :: after) := by
  induction before with
  | nil =>
    have hlast : (after.any fun b => key b == key a) = false := by
      rw [List.any_eq_false]
      intro b hb
      simpa using h b hb
    show a ∈ if after.any (fun b => key b == key a) then _ else _
    rw [hlast]
    exact List.mem_cons_self ..
  | cons b before ih =>
    show a ∈ if (before ++ a :: after).any (fun x => key x == key b) then _ else _
    split
    · exact ih
    · exact List.mem_cons_of_mem _ ih

theorem withLater_append (l l' : List α) : withLater (l ++ l') =
    (withLater l).map (fun r => (r.1, r.2 ++ l')) ++ withLater l' := by
  induction l with
  | nil => rfl
  | cons a l ih =>
    show (a, l ++ l') :: withLater (l ++ l') = _
    rw [ih]
    rfl

theorem mem_withLater {r : α × List α} (h : r ∈ withLater l) :
    ∃ before, l = before ++ r.1 :: r.2 := by
  induction l with
  | nil => exact absurd h List.not_mem_nil
  | cons a l ih =>
    rcases List.mem_cons.mp h with rfl | h
    · exact ⟨[], rfl⟩
    · obtain ⟨before, hl⟩ := ih h
      exact ⟨a :: before, by rw [hl]; rfl⟩

theorem withLater_fst (l : List α) : (withLater l).map Prod.fst = l := by
  induction l with
  | nil => rfl
  | cons a l ih =>
    show a :: (withLater l).map Prod.fst = _
    rw [ih]

/-- What is last of its key among those that pass a test is in the dict. -/
theorem mem_lastBy_withLater {test : α → Bool} {r : α × List α} (h : r ∈ withLater l)
    (htest : test r.1 = true) (hlast : (r.2.any fun b => test b && key b == key r.1) = false) :
    r ∈ lastBy (fun r => key r.1) ((withLater l).filter fun r => test r.1) := by
  obtain ⟨before, hl⟩ := mem_withLater h
  rw [hl, withLater_append, List.filter_append]
  have hhead : (withLater (r.1 :: r.2)).filter (fun r => test r.1) =
      r :: (withLater r.2).filter fun r => test r.1 := List.filter_cons_of_pos htest
  rw [hhead]
  refine mem_lastBy fun b hb => ?_
  obtain ⟨hin, hb⟩ := List.mem_filter.mp hb
  have hmem : b.1 ∈ r.2 := by
    rw [← withLater_fst r.2]
    exact List.mem_map_of_mem hin
  have hno := List.any_eq_false.mp hlast b.1 hmem
  rw [hb, Bool.true_and] at hno
  simpa using hno

/-- After the last of one kind is one of the other kind, just when after the last of the
other is none of the one: if there is one of the other at all. -/
theorem any_takeWhile_swap {p q : α → Bool} (hq : l.any q = true)
    (hpq : ∀ a, p a = true → q a = false) :
    (l.takeWhile fun a => !p a).any q = true ↔ (l.takeWhile fun a => !q a).any p = false := by
  induction l with
  | nil => cases hq
  | cons a l ih =>
    by_cases hpa : p a = true
    · have hqa := hpq a hpa
      simp [hpa, hqa]
    · by_cases hqa : q a = true
      · simp [hpa, hqa]
      · rw [List.any_cons] at hq
        have hrest : l.any q = true := by simpa [hqa] using hq
        have hih := ih hrest
        simpa [hpa, hqa] using hih

end Lists

section Outcome

variable {manifest : Manifest} {log : List Row} {rows : List ToolRow}

theorem objection_ne_success : objection log ≠ some .success := by
  unfold objection
  dsimp only
  repeat' split
  all_goals simp

theorem any_verifies : log.any Row.verifies = hasEvent log "verification_passed" := by
  unfold hasEvent eventRows
  rw [List.any_filterMap]
  congr 1
  funext r
  cases r <;> rfl

/-- Rows of a change verify nothing. -/
theorem verifies_of_applies (r : Row) (h : r.applies = true) : r.verifies = false := by
  cases r with
  | event e =>
    have htype : e.type = "patch_apply_succeeded".toList := beq_iff_eq.mp h
    show (e.type == "verification_passed".toList) = false
    rw [htype]
    rfl
  | mutation status => rfl
  | tool t => rfl
  | other => rfl

theorem verifiedLast_iff (h : hasEvent log "verification_passed" = true) :
    VerifiedLast log ↔ NothingAfter log := by
  unfold VerifiedLast NothingAfter
  refine any_takeWhile_swap ?_ verifies_of_applies
  rw [List.any_reverse, any_verifies]
  exact h

theorem mem_resultOf {callId : Text} {r : ToolRow × List ToolRow}
    (h : resultOf rows callId = some r) :
    r ∈ withLater rows ∧ r.1.isFinished = true ∧ r.1.callId = callId := by
  obtain ⟨hin, htest⟩ := List.mem_filter.mp (List.mem_of_getLast? h)
  rw [Bool.and_eq_true, beq_iff_eq] at htest
  exact ⟨hin, htest⟩

theorem pathOf_lastCall {path : Text} {call : ToolRow} (h : lastCall rows path = some call) :
    pathOf rows call.callId = path := by
  have htest := (List.mem_filter.mp (List.mem_of_getLast? h)).2
  rw [Bool.and_eq_true, beq_iff_eq] at htest
  exact htest.2

/-- A failure that is the last of its tool, with no later write of the file, is found. -/
theorem lastWritesOk_iff (h : hasUnrecoveredToolFailure rows = false) :
    LastWritesOk rows ↔ NothingHidden rows := by
  constructor
  · intro hok path hne call hcall
    obtain ⟨r, later, hresult, hr⟩ := hok path hne call hcall
    exact ⟨r, later, hresult, Or.inl hr⟩
  · intro hhidden path hne call hcall
    obtain ⟨r, later, hresult, hr⟩ := hhidden path hne call hcall
    refine ⟨r, later, hresult, ?_⟩
    rcases hr with hr | ⟨hlast, hno⟩
    · exact hr
    · obtain ⟨hin, hfinished, hid⟩ := mem_resultOf hresult
      have hmem := @mem_lastBy_withLater _ ToolRow.tool rows ToolRow.isFinished (r, later) hin
        hfinished hlast
      have htest := List.any_eq_false.mp h _ hmem
      have hpath : pathOf rows r.callId = path := by
        rw [hid]
        exact pathOf_lastCall hcall
      by_contra hbad
      rw [Bool.not_eq_true] at hbad
      apply htest
      dsimp only
      rw [hpath, hno, hbad]
      simp

/-- Of a run that changed files and is not closed: when it is reported as a success. -/
theorem evidenceOutcome_eq_success (hopen : manifest.isTerminal = false)
    (hseen : mutationSeen log = true) : evidenceOutcome manifest log = .success ↔
      objection log = none ∧ hasEvent log "verification_passed" = true ∧
        hasEvent log "contract_unresolved" = false := by
  have hnone : (manifest.filter fun status => terminalOutcomes.contains status) = none := by
    cases manifest with
    | none => rfl
    | some status =>
      have hstatus : terminalOutcomes.contains status = false := hopen
      rw [Option.filter_some, hstatus]
      rfl
  unfold evidenceOutcome
  rw [hnone, hseen]
  dsimp only
  cases hobj : objection log with
  | some outcome =>
    refine iff_of_false (fun h => ?_) fun h => by cases h.1
    have h : outcome = .success := h
    exact objection_ne_success (h ▸ hobj)
  | none =>
    cases hasEvent log "verification_passed" <;> cases hasEvent log "contract_unresolved" <;>
      simp

theorem evidenceOutcome_closed {status : RunStatus}
    (h : Manifest.isTerminal (some status) = true) :
    evidenceOutcome (some status) log = status := by
  have hstatus : terminalOutcomes.contains status = true := h
  unfold evidenceOutcome
  rw [Option.filter_some, hstatus]
  rfl

theorem tool_of_objection (h : objection log = none) :
    hasUnrecoveredToolFailure (toolRows log) = false := by
  unfold objection at h
  dsimp only at h
  cases htool : hasUnrecoveredToolFailure (toolRows log) with
  | false => rfl
  | true =>
    rw [htool] at h
    simp only [Bool.or_true, Bool.true_or, if_true] at h
    repeat' split at h
    all_goals cases h

end Outcome

/-- **When a run that changed files and is reported as a success is one.** -/
theorem success_checked (manifest : Manifest) (log : List Row) :
    (mutationSeen log = true → evidenceOutcome manifest log = .success →
      VerifiedLast log ∧ LastWritesOk (toolRows log)) ↔
    (mutationSeen log = true → Reliable manifest log) := by
  refine forall_congr' fun hseen => ?_
  unfold Reliable
  cases hclosed : manifest.isTerminal with
  | true =>
    -- a run that is closed already is reported as it was closed
    rw [if_pos rfl]
    obtain ⟨status, rfl⟩ : ∃ status, manifest = some status := by
      cases manifest with
      | none => cases hclosed
      | some status => exact ⟨status, rfl⟩
    rw [evidenceOutcome_closed hclosed]
    simp
  | false =>
    -- in an open run nothing may object, and then each half of the claim has its own condition
    rw [if_neg (by simp), evidenceOutcome_eq_success hclosed hseen]
    constructor
    · intro h
      by_cases hobj : objection log = none
      · right
        cases hpassed : hasEvent log "verification_passed" with
        | false => exact Or.inl rfl
        | true =>
          right
          cases hopen : hasEvent log "contract_unresolved" with
          | true => exact Or.inl rfl
          | false =>
            right
            obtain ⟨hverified, hwrites⟩ := h ⟨hobj, hpassed, hopen⟩
            have htool := tool_of_objection hobj
            exact ⟨(verifiedLast_iff hpassed).mp hverified, (lastWritesOk_iff htool).mp hwrites⟩
      · exact Or.inl hobj
    · intro h hsome
      obtain ⟨hobj, hpassed, hopen⟩ := hsome
      have htool := tool_of_objection hobj
      rcases h with h | h | h | ⟨hafter, hhidden⟩
      · exact absurd hobj h
      · rw [hpassed] at h
        cases h
      · rw [hopen] at h
        cases h
      · exact ⟨(verifiedLast_iff hpassed).mpr hafter, (lastWritesOk_iff htool).mpr hhidden⟩

/-- A call of `edit_file` and its result. -/
private def edit (id path : String) (ok : Bool) : List Row :=
  [.tool ⟨"called".toList, id.toList, "edit_file".toList, false, path.toList⟩,
    .tool ⟨"finished".toList, id.toList, "edit_file".toList, ok, []⟩]

/-- One edit fails, the next goes well and is verified, and a third is not. -/
private def brokenRun : List Row :=
  edit "tool_1" "a.py" false ++ edit "tool_2" "b.py" true ++
    [.mutation "applied".toList,
      .event { type := "verification_passed".toList, verifierId := "syntax:b.py".toList }] ++
    edit "tool_3" "c.py" true ++ [.mutation "applied".toList]

/-- Neither was anything verified after the last change nor did the edit of `a.py` succeed. -/
theorem broken_success : mutationSeen brokenRun = true ∧
    evidenceOutcome (some .running) brokenRun = .success ∧
    ¬ VerifiedLast brokenRun ∧ ¬ LastWritesOk (toolRows brokenRun) := by
  refine ⟨by decide, by decide, by unfold VerifiedLast; decide, fun h => ?_⟩
  obtain ⟨r, later, hresult, hok⟩ := h "a.py".toList (by decide)
    ⟨"called".toList, "tool_1".toList, "edit_file".toList, false, "a.py".toList⟩ (by decide)
  have hfound : (resultOf (toolRows brokenRun) "tool_1".toList).map Prod.fst =
      some ⟨"finished".toList, "tool_1".toList, "edit_file".toList, false, []⟩ := by decide
  have hid : (⟨"called".toList, "tool_1".toList, "edit_file".toList, false,
    "a.py".toList⟩ : ToolRow).callId = "tool_1".toList := rfl
  rw [hid] at hresult
  rw [hresult] at hfound
  cases hfound
  cases hok

end Shamsu.Ledger
