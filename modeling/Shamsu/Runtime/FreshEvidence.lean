import Shamsu.Runtime.TaskStore

/-!
# Evidence that is recorded again

`record_evidence` writes no second record with the same signature, and a signature has no
timestamp. The gate of a step wants evidence that is no older than the step.

`recorded_counts_iff`: after a passed record the gate is content with its type, unless the
record was taken for one that is there already and nothing else is fresh and passed.
`rerun_is_stale` is a check that is run again after its step started over.
-/

namespace Shamsu.Runtime

open Shamsu.Py Shamsu.Lib

namespace Store

variable (st : Store)

/-- `record_evidence`; `none` where the insert raises, since the id is taken. -/
def recorded (e : EvidenceRecord) : Option Store :=
  if st.evidence.any fun old => old.signature == e.sorted.signature then some st
  else if st.evidence.any fun old => old.evidenceId == e.evidenceId then none
  else some { st with evidence := st.evidence ++ [e.sorted] }

/-- A passed record of a type for a step, no older than a time. -/
def Fresh (taskId stepId : Text) (t : EvidenceType) (notBefore : Text) (e : EvidenceRecord) :
    Prop :=
  e.taskId = taskId ∧ e.stepId = stepId ∧ e.evidenceType = t ∧
    (notBefore = [] ∨ notBefore ≤ e.timestamp) ∧ e.status = .passed

end Store

/-- The gate reports the type neither missing, nor stale, nor failed. -/
def GateResult.Content (gate : GateResult) (t : EvidenceType) : Prop :=
  t ∉ gate.missingEvidence ∧ t ∉ gate.staleEvidence ∧ t ∉ gate.failedEvidence

variable {st : Store}

/-- What is recorded is what `insertEvidence` makes of the table. -/
theorem evidence_recorded {st' : Store} {e : EvidenceRecord} (h : st.recorded e = some st') :
    st'.evidence = insertEvidence st.evidence e := by
  unfold Store.recorded at h
  unfold insertEvidence
  split at h
  next hold =>
    cases h
    rw [if_pos hold]
  next hnew =>
    split at h
    · cases h
    · cases h
      rw [if_neg hnew]

theorem mem_listEvidence {taskId stepId : Text} {e : EvidenceRecord} :
    e ∈ st.listEvidence taskId stepId ↔ e ∈ st.evidence ∧ e.taskId = taskId ∧ e.stepId = stepId := by
  unfold Store.listEvidence
  rw [List.mem_insertionSort, List.mem_filter, Bool.and_eq_true, beq_iff_eq, beq_iff_eq]

/-- Over some records of a type, some of them fresh: nothing is reported exactly when one
that is fresh passed. -/
theorem reported_iff {required : List EvidenceType} {t : EvidenceType}
    {candidates fresh : EvidenceType → List EvidenceRecord} (ht : t ∈ required)
    (hfresh : fresh t ⊆ candidates t) :
    (t ∉ required.filter (fun t => (candidates t).isEmpty) ∧
        t ∉ required.filter (fun t => !(candidates t).isEmpty && (fresh t).isEmpty) ∧
        t ∉ required.filter fun t => !(fresh t).isEmpty && !(fresh t).any fun e => e.status == .passed) ↔
      ∃ e ∈ fresh t, e.status = .passed := by
  simp only [List.mem_filter, ht, true_and, Bool.and_eq_true, Bool.not_eq_true',
    List.isEmpty_eq_false_iff, List.isEmpty_iff, not_and]
  constructor
  · intro h
    obtain ⟨hsome, hstale, hfailed⟩ := h
    have hpassed := hfailed (hstale hsome)
    rw [Bool.not_eq_false, List.any_eq_true] at hpassed
    simpa using hpassed
  · intro h
    obtain ⟨e, he, hpassed⟩ := h
    refine ⟨List.ne_nil_of_mem (hfresh he), fun _ => List.ne_nil_of_mem he, fun _ => ?_⟩
    rw [Bool.not_eq_false, List.any_eq_true]
    exact ⟨e, he, by rw [hpassed]; rfl⟩

/-- The gate is content with a required type exactly when there is a fresh record that
passed. -/
theorem content_iff {taskId stepId notBefore : Text} {required : List EvidenceType}
    {t : EvidenceType} (ht : t ∈ required) :
    (st.checkRequiredEvidence taskId stepId required notBefore).Content t ↔
      ∃ e ∈ st.evidence, Store.Fresh taskId stepId t notBefore e := by
  unfold GateResult.Content Store.checkRequiredEvidence
  dsimp only
  rw [reported_iff ht (List.filter_subset_self _)]
  simp only [List.mem_filter, mem_listEvidence, Store.Fresh, Bool.or_eq_true, beq_iff_eq,
    decide_eq_true_eq]
  constructor
  · intro h
    obtain ⟨e, ⟨⟨⟨hmem, htask, hstep⟩, htype⟩, htime⟩, hpassed⟩ := h
    exact ⟨e, hmem, htask, hstep, htype, htime, hpassed⟩
  · intro h
    obtain ⟨e, hmem, htask, hstep, htype, htime, hpassed⟩ := h
    exact ⟨e, ⟨⟨⟨hmem, htask, hstep⟩, htype⟩, htime⟩, hpassed⟩

/-- **A passed record counts** for its step exactly where it is not taken for an old one, or
another fresh one passed. -/
theorem recorded_counts_iff {st st' : Store} {step : StepState} {required : List EvidenceType}
    {e : EvidenceRecord} (hstep : st.loadStep e.taskId e.stepId = some step)
    (hrequired : normalizeEvidenceTypes step.requiredEvidence = .ok required)
    (htype : e.evidenceType ∈ required) (hpassed : e.status = .passed)
    (htime : step.startedAt ≤ e.timestamp) (hrecorded : st.recorded e = some st') :
    (∃ step' required', st'.loadStep e.taskId e.stepId = some step' ∧
        normalizeEvidenceTypes step'.requiredEvidence = .ok required' ∧
        (st'.checkRequiredEvidence e.taskId e.stepId required' step'.startedAt).Content
          e.evidenceType) ↔
      (∀ old ∈ st.evidence, old.signature ≠ e.sorted.signature) ∨
        ∃ old ∈ st.evidence, Store.Fresh e.taskId e.stepId e.evidenceType step.startedAt old := by
  have hsteps : st'.loadStep e.taskId e.stepId = some step := by
    rw [← hstep]
    unfold Store.recorded at hrecorded
    split at hrecorded
    · cases hrecorded
      rfl
    · split at hrecorded <;> cases hrecorded
      rfl
  have hgate : (∃ step' required', st'.loadStep e.taskId e.stepId = some step' ∧
      normalizeEvidenceTypes step'.requiredEvidence = .ok required' ∧
      (st'.checkRequiredEvidence e.taskId e.stepId required' step'.startedAt).Content
        e.evidenceType) ↔
      ∃ old ∈ st'.evidence, Store.Fresh e.taskId e.stepId e.evidenceType step.startedAt old := by
    constructor
    · intro hsome
      obtain ⟨step', required', hload, hnormal, hcontent⟩ := hsome
      rw [hsteps] at hload
      cases hload
      rw [hrequired] at hnormal
      cases hnormal
      exact (content_iff htype).mp hcontent
    · exact fun h => ⟨step, required, hsteps, hrequired, (content_iff htype).mpr h⟩
  rw [hgate, evidence_recorded hrecorded, insertEvidence]
  split
  next hold =>
    -- it is taken for an old one, so nothing was written
    obtain ⟨old, hmem, hsame⟩ := List.any_eq_true.mp hold
    constructor
    · exact .inr
    · exact fun h => h.resolve_left fun hnew => hnew old hmem (beq_iff_eq.mp hsame)
  next hnew =>
    refine iff_of_true ⟨e.sorted, List.mem_append_right _ (List.mem_singleton_self _), rfl, rfl,
      rfl, .inr htime, hpassed⟩ (.inl fun old hmem hsame => ?_)
    exact hnew (List.any_eq_true.mpr ⟨old, hmem, beq_iff_eq.mpr hsame⟩)

/-- A passed run of `pytest`. -/
def pytestRun (id timestamp : String) : EvidenceRecord :=
  { evidenceId := id.toList, taskId := ['t'], stepId := ['s'], evidenceType := .testPassed,
    sourceTool := "run_command".toList, timestamp := timestamp.toList,
    relatedCommand := "pytest".toList, exitCode := some 0 }

/-- A store with a step that wants it, started at a time. -/
def wantsTest (startedAt : String) (evidence : List EvidenceRecord) : Store :=
  { Store.empty with
    steps := Table.empty.upsert
      { stepId := ['s'], taskId := ['t'], runId := ['r'], requiredEvidence := ["test_passed".toList],
        startedAt := startedAt.toList, updatedAt := startedAt.toList }
    evidence := evidence }

/-- The first run of a check. -/
theorem recorded_counts_first :
    ∃ step' required',
      (wantsTest "2026-01-02" [pytestRun "b" "2026-01-03"]).loadStep ['t'] ['s'] = some step' ∧
      normalizeEvidenceTypes step'.requiredEvidence = .ok required' ∧
      ((wantsTest "2026-01-02" [pytestRun "b" "2026-01-03"]).checkRequiredEvidence ['t'] ['s']
        required' step'.startedAt).Content .testPassed :=
  (@recorded_counts_iff (wantsTest "2026-01-02" []) _
    { stepId := ['s'], taskId := ['t'], runId := ['r'], requiredEvidence := ["test_passed".toList],
      startedAt := "2026-01-02".toList, updatedAt := "2026-01-02".toList }
    [.testPassed] (pytestRun "b" "2026-01-03") rfl rfl (by decide) rfl (by decide) rfl).mpr
    (.inl nofun)

/-- The check passed before the step started over, and passes again: the gate has the old
record only. -/
theorem rerun_is_stale :
    ¬ ∀ (st st' : Store) (step : StepState) (required : List EvidenceType) (e : EvidenceRecord),
      st.loadStep e.taskId e.stepId = some step →
      normalizeEvidenceTypes step.requiredEvidence = .ok required → e.evidenceType ∈ required →
      e.status = .passed → step.startedAt ≤ e.timestamp → st.recorded e = some st' →
      (st'.checkRequiredEvidence e.taskId e.stepId required step.startedAt).Content
        e.evidenceType := by
  intro h
  have hcontent := h (wantsTest "2026-01-02" [pytestRun "a" "2026-01-01"])
    (wantsTest "2026-01-02" [pytestRun "a" "2026-01-01"])
    { stepId := ['s'], taskId := ['t'], runId := ['r'], requiredEvidence := ["test_passed".toList],
      startedAt := "2026-01-02".toList, updatedAt := "2026-01-02".toList }
    [.testPassed] (pytestRun "b" "2026-01-03") rfl rfl (by decide) rfl (by decide) rfl
  exact hcontent.2.1 (by decide)

end Shamsu.Runtime
