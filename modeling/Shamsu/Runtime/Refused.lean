import Shamsu.Runtime.Outcomes

/-!
# Operations that raise `InvalidStateTransition`

`Operation` is a call of the store, `perform` runs it. An operation is intact in a
state if, raising `InvalidStateTransition`, it leaves the tables as they are.

Most operations check before they write. Six do not: they write a plan, a step or a
repair first and save the task afterwards, and a completed task is not saved.
`intact_iff` says of each operation in which states it is intact; `refused_repair_stays`
is a repair of a completed task that is refused and recorded.
-/

namespace Shamsu.Runtime

open Shamsu.Py Shamsu.Lib

/-- A call of the store that may write or raise. -/
inductive Operation where
  | saveRun (run : RunState)
  | createTask (runId userRequest projectId taskId planId : Text)
  | requireTask (taskId : Text)
  | saveTask (state : TaskState) (checkpointKind : String) (expectedPrevious : Option RunStatus)
      (allowCompletion : Bool)
  | updateTaskStatus (taskId : Text) (status : RunStatus) (phase : Option String)
      (checkpointKind : String)
  | recordPlanCreated (taskId planId : Text)
  | recordApprovalRequested (taskId request : Text)
  | recordApprovalResolved (taskId : Text) (approved : Bool)
  | recordReplan (taskId planId : Text)
  | recordStep (step : StepState)
  | recordRepair (repair : RepairState)
  | recordEvidence (evidence : EvidenceRecord)
  | recordFailure (failure : FailureRecord)
  | requestStepComplete (taskId stepId : Text) (requiredEvidence : List Text)
  | requestTaskComplete (taskId : Text) (requiredEvidence : List Text)
  | recordSuccessfulStep (ids : Text × Text) (taskId stepId : Text) (call : ToolCall)
      (result : ToolResult) (changedFiles requiredEvidence : List Text)
  | recordRepairAttempt (repairId taskId : Text) (targetFiles : List Text) (lastError : Text)
  | saveExecutionPlan (plan : ExecutionPlan) (validToolNames : Option (List Text))
  | currentActiveStep (taskId : Text)
  | updatePlanStepStatus (taskId stepId : Text) (status : PlanStepStatus) (checkpointKind : String)
  | completePlanStep (taskId stepId : Text)

/-- Run it for what it does to the tables. -/
def discard {α : Type} (x : Op α) : Op Unit := x >>= fun _ => pure ()

/-- The operation at a time. -/
def perform (now : Text) : Operation → Op Unit
  | .saveRun run => discard (saveRun now run)
  | .createTask runId userRequest projectId taskId planId =>
    discard (createTask now runId userRequest projectId taskId planId)
  | .requireTask taskId => discard (requireTask taskId)
  | .saveTask state kind expected allow => discard (saveTask now state kind expected allow)
  | .updateTaskStatus taskId status phase kind =>
    discard (updateTaskStatus now taskId status phase kind)
  | .recordPlanCreated taskId planId => discard (recordPlanCreated now taskId planId)
  | .recordApprovalRequested taskId request => discard (recordApprovalRequested now taskId request)
  | .recordApprovalResolved taskId approved => discard (recordApprovalResolved now taskId approved)
  | .recordReplan taskId planId => discard (recordReplan now taskId planId)
  | .recordStep step => discard (recordStep now step)
  | .recordRepair repair => discard (recordRepair now repair)
  | .recordEvidence evidence => recordEvidence evidence
  | .recordFailure failure => recordFailure failure
  | .requestStepComplete taskId stepId required =>
    discard (requestStepComplete now taskId stepId required)
  | .requestTaskComplete taskId required => discard (requestTaskComplete now taskId required)
  | .recordSuccessfulStep ids taskId stepId call result files required =>
    discard (recordSuccessfulStep now ids taskId stepId call result files required)
  | .recordRepairAttempt repairId taskId files error =>
    discard (recordRepairAttempt now repairId taskId files error)
  | .saveExecutionPlan plan tools => discard (saveExecutionPlan now plan tools)
  | .currentActiveStep taskId => discard (currentActiveStep now taskId)
  | .updatePlanStepStatus taskId stepId status kind =>
    discard (updatePlanStepStatus now taskId stepId status kind)
  | .completePlanStep taskId stepId => discard (completePlanStep now taskId stepId)

/-- The tables of tasks, steps, plans with their steps, evidence and repairs. -/
def Store.tables (st : Store) :=
  (st.tasks, st.steps, st.plans, st.evidence, st.repairs)

/-- If it raises `InvalidStateTransition`, the tables are as they were. -/
def Intact {α : Type} (x : Op α) (st : Store) : Prop :=
  ∀ message st', x st = (.error (.invalidTransition message), st') → st'.tables = st.tables

section Intact

variable {α β : Type} {x : Op α} {st st' : Store}

theorem intact_discard : Intact (discard x) st ↔ Intact x st := by
  unfold Intact discard
  rw [Prog.bind_apply]
  cases h : x st with
  | mk r st₁ =>
    cases r with
    | ok a =>
      constructor
      · intro _ message st' he
        simp at he
      · intro _ message st' he
        cases he
    | error e =>
      constructor
      · intro hi message st' he
        cases he
        exact hi message st₁ rfl
      · intro hi message st' he
        cases he
        exact hi message st₁ rfl

/-- How the operation goes decides. -/
theorem intact_of_ok {a : α} (h : x st = (.ok a, st')) : Intact x st := by
  intro message st₁ he
  rw [h] at he
  cases he

theorem intact_of_same {r : Except StoreError α} (h : x st = (r, st)) : Intact x st := by
  intro message st₁ he
  rw [h] at he
  cases he
  rfl

theorem intact_of_other {e : StoreError} (h : x st = (.error e, st'))
    (he : ∀ message, e ≠ .invalidTransition message) : Intact x st := by
  intro message st₁ hx
  rw [h] at hx
  cases hx
  exact absurd rfl (he message)

theorem intact_iff_of_refused {message : String}
    (h : x st = (.error (.invalidTransition message), st')) :
    Intact x st ↔ st'.tables = st.tables := by
  constructor
  · exact fun hi => hi message st' h
  · intro hsame m st₁ hx
    rw [h] at hx
    cases hx
    exact hsame

/-- A save checks before it writes. -/
theorem intact_saveTask {now : Text} {state : TaskState} {kind : String}
    {expected : Option RunStatus} {allow : Bool} :
    Intact (saveTask now state kind expected allow) st := by
  have h := @saveTask_eq st now state kind expected allow
  cases hc : checkSave (st.tasks.lookup state.taskId) state expected allow with
  | ok s => rw [hc] at h; exact intact_of_ok h
  | error e => rw [hc] at h; exact intact_of_same h

/-- So does an operation that reads the task and saves it. -/
theorem intact_requireTask_save {f : TaskState → Op α} (hf : ∀ state, Intact (f state) st)
    (taskId : Text) : Intact (requireTask taskId >>= f) st := by
  cases hl : st.loadTask taskId with
  | none => exact intact_of_same (requireTask_bind_none hl)
  | some state =>
    intro message st' he
    rw [requireTask_bind hl] at he
    exact hf state message st' he

/-- An operation is intact if what follows its intact beginning does not raise. -/
theorem intact_bind {f : α → Op β} (hx : Intact x st)
    (hf : ∀ a st₁, ∃ b st₂, f a st₁ = (.ok b, st₂)) : Intact (x >>= f) st := by
  intro message st' he
  rcases Prog.bind_cases he with ⟨e, hx', hr⟩ | ⟨a, st₁, _, ha⟩
  · cases hr
    exact hx message st' hx'
  · obtain ⟨b, st₂, hb⟩ := hf a st₁
    rw [hb] at ha
    cases ha

end Intact

section Tables

variable {st : Store}

theorem tables_withStep {step : StepState} : (st.withStep step).tables = st.tables ↔
    step ∈ st.steps := by
  unfold Store.tables Store.withStep
  simp only [Prod.mk.injEq, true_and, and_true]
  exact Table.upsert_eq_self

theorem tables_withPlan {plan : ExecutionPlan} : (st.withPlan plan).tables = st.tables ↔
    plan ∈ st.plans := by
  unfold Store.tables Store.withPlan
  simp only [Prod.mk.injEq, true_and, and_true]
  exact Table.upsert_eq_self

/-- A plan that is stored under its id is there with another content only if it is another. -/
theorem mem_plans_iff {plan plan' : ExecutionPlan} (h : plan ∈ st.plans)
    (hid : plan'.planId = plan.planId) : plan' ∈ st.plans ↔ plan' = plan :=
  ⟨fun h' => Table.eq_of_key h' h hid, fun he => by rw [he]; exact h⟩

theorem insertEvidence_grows (table : List EvidenceRecord) (e : EvidenceRecord) :
    table <+: insertEvidence table e := by
  unfold insertEvidence
  split
  · exact List.prefix_refl _
  · exact List.prefix_append _ _

theorem foldl_insertEvidence_grows (es : List EvidenceRecord) (table : List EvidenceRecord) :
    table <+: es.foldl insertEvidence table := by
  induction es generalizing table with
  | nil => exact List.prefix_refl _
  | cons e es ih => exact (insertEvidence_grows table e).trans (ih _)

/-- Evidence adds nothing exactly when each record is known. -/
theorem foldl_insertEvidence_eq_self {es table : List EvidenceRecord} :
    es.foldl insertEvidence table = table ↔
      ∀ e ∈ es, ∃ old ∈ table, old.signature = e.sorted.signature := by
  have known : ∀ e : EvidenceRecord, insertEvidence table e = table ↔
      ∃ old ∈ table, old.signature = e.sorted.signature := by
    intro e
    unfold insertEvidence
    split
    next hany =>
      obtain ⟨old, hold, hs⟩ := List.any_eq_true.mp hany
      exact ⟨fun _ => ⟨old, hold, by simpa using hs⟩, fun _ => rfl⟩
    next hany =>
      constructor
      · intro he
        simp at he
      · intro hsome
        obtain ⟨old, hold, hs⟩ := hsome
        exact absurd (List.any_eq_true.mpr ⟨old, hold, by simpa using hs⟩) hany
  induction es with
  | nil => exact ⟨fun _ e he => absurd he List.not_mem_nil, fun _ => rfl⟩
  | cons e es ih =>
    rw [List.foldl_cons]
    constructor
    · intro h
      have hp := foldl_insertEvidence_grows es (insertEvidence table e)
      rw [h] at hp
      have hfirst : insertEvidence table e = table :=
        hp.eq_of_length_le ((insertEvidence_grows table e).length_le)
      rw [hfirst] at h
      intro x hx
      rcases List.mem_cons.mp hx with rfl | hx
      · exact (known x).mp hfirst
      · exact ih.mp h x hx
    · intro h
      rw [(known e).mpr (h e (List.mem_cons_self ..))]
      exact ih.mpr fun x hx => h x (List.mem_cons_of_mem _ hx)

theorem tables_recording {now : Text} {ids : Text × Text} {state : TaskState} {stepId : Text}
    {call : ToolCall} {result : ToolResult} {files required : List Text} :
    (st.recording now ids state stepId call result files required).tables = st.tables ↔
      runningStep now stepId state call result required ∈ st.steps ∧
        ∀ e ∈ evidenceFromToolResult now ids state stepId call result files,
          ∃ old ∈ st.evidence, old.signature = e.sorted.signature := by
  unfold Store.tables Store.recording Store.withStep
  simp only [Prod.mk.injEq, true_and, and_true]
  rw [foldl_insertEvidence_eq_self]
  exact and_congr_left' Table.upsert_eq_self

end Tables

/-- **When an operation is intact**: what it writes before the task is saved is there
already, wherever the task is completed and so will not be saved.
- `complete_plan_step` completes the step, and then may find that the plan step may not
  be completed;
- `record_successful_step` sets the task to running. -/
def Operation.NothingNew (now : Text) (st : Store) : Operation → Prop
  | .saveExecutionPlan plan tools =>
    validateExecutionPlan plan tools = [] → st.taskStatus plan.taskId = some .completed →
      { plan with updatedAt := now } ∈ st.plans
  | .currentActiveStep taskId =>
    ∀ plan, st.loadTaskPlan taskId = some plan →
      (∀ step ∈ plan.steps, step.status ≠ .active) →
      (∃ step ∈ plan.steps, isReady (completedIds plan.steps) step = true) →
      st.taskStatus taskId ≠ some .completed
  | .updatePlanStepStatus taskId stepId status _ =>
    ∀ plan target, st.loadTaskPlan taskId = some plan → plan.step? stepId = some target →
      target.status.mayBecome status = true → st.taskStatus taskId = some .completed →
      plan.withStatus now stepId status = plan
  | .requestStepComplete taskId stepId required =>
    ∀ step, st.stepGate taskId stepId required = .ok (.inr step) →
      st.taskStatus taskId = some .completed → step.finished now ∈ st.steps
  | .completePlanStep taskId stepId =>
    ∀ plan target, st.loadTaskPlan taskId = some plan → plan.step? stepId = some target →
      (∀ step, st.stepGate taskId stepId target.requiredEvidence = .ok (.inr step) →
        (st.taskStatus taskId = some .completed → step.finished now ∈ st.steps) ∧
        ∀ state, st.loadTask taskId = some state → state.status ≠ .completed →
          target.status.mayBecome .completed = false →
          step.finished now ∈ st.steps ∧
            (state.atStep stepId "running").stamped now "step_completed" ∈ st.tasks) ∧
      (∀ gate, st.stepGate taskId stepId target.requiredEvidence = .ok (.inl gate) →
        target.status.mayBecome .verifying = true → st.taskStatus taskId = some .completed →
        plan.withStatus now stepId .verifying = plan)
  | .recordSuccessfulStep ids taskId stepId call result files required =>
    ∀ state, st.tasks.lookup taskId = some state → state.status.mayBecome .running = false →
      let state' := state.afterStep stepId call result files
      runningStep now stepId state' call result required ∈ st.steps ∧
        ∀ e ∈ evidenceFromToolResult now ids state' stepId call result files,
          ∃ old ∈ st.evidence, old.signature = e.sorted.signature
  | .recordRepairAttempt repairId taskId files error =>
    ∀ state, st.loadTask taskId = some state → state.status = .completed →
      repairAttempt now repairId state files error ∈ st.repairs
  | _ => True

section Each

variable {st : Store} {now taskId stepId : Text}

/-- An operation that writes `st₁` and then saves the task with the status it has. -/
theorem intact_of_saved {α : Type} {x : Op α} {st₁ : Store} {a : TaskState → α}
    {st₂ : TaskState → Store}
    (h : x st = match st.loadTask taskId with
      | none => (.error (taskNotFound taskId), st₁)
      | some state =>
        if state.status = .completed then (.error completionRefused, st₁)
        else (.ok (a state), st₂ state)) :
    Intact x st ↔ (st.taskStatus taskId = some .completed → st₁.tables = st.tables) := by
  cases hl : st.loadTask taskId with
  | none =>
    rw [hl] at h
    have hi : Intact x st := intact_of_other h fun message he => by cases he
    refine iff_of_true hi fun hs => ?_
    unfold Store.taskStatus at hs
    rw [hl] at hs
    cases hs
  | some state =>
    rw [hl] at h
    rw [Store.taskStatus_of_load hl]
    by_cases hc : state.status = .completed
    · dsimp only at h
      rw [if_pos hc] at h
      rw [intact_iff_of_refused h, hc]
      exact ⟨fun ht _ => ht, fun ht => ht rfl⟩
    · dsimp only at h
      rw [if_neg hc] at h
      exact iff_of_true (intact_of_ok h) fun hs => absurd (Option.some.inj hs) hc

theorem intact_saveExecutionPlan (plan : ExecutionPlan) (tools : Option (List Text)) :
    Intact (saveExecutionPlan now plan tools) st ↔
      (Operation.saveExecutionPlan plan tools).NothingNew now st := by
  have h := @saveExecutionPlan_eq st now plan tools
  show _ ↔ (_ → _ → _)
  by_cases hv : validateExecutionPlan plan tools = []
  · rw [if_neg (not_not.mpr hv)] at h
    rw [intact_of_saved h, tables_withPlan]
    exact ⟨fun hi _ => hi, fun hi => hi hv⟩
  · rw [if_pos hv] at h
    exact iff_of_true (intact_of_same h) fun he => absurd he hv

theorem intact_updatePlanStepStatus (status : PlanStepStatus) (kind : String) :
    Intact (updatePlanStepStatus now taskId stepId status kind) st ↔
      (Operation.updatePlanStepStatus taskId stepId status kind).NothingNew now st := by
  have h := @updatePlanStepStatus_eq st now taskId stepId status kind
  show _ ↔ ∀ plan target, _
  cases hp : st.loadTaskPlan taskId with
  | none =>
    rw [hp] at h
    exact iff_of_true (intact_of_same h) fun plan _ he => by cases he
  | some plan =>
    rw [hp] at h
    cases ht : plan.step? stepId with
    | none =>
      dsimp only at h
      rw [ht] at h
      refine iff_of_true (intact_of_same h) fun plan' target he hs => ?_
      cases he
      rw [ht] at hs
      cases hs
    | some target =>
      dsimp only at h
      rw [ht] at h
      dsimp only at h
      -- the plan is written once the transition is allowed, whatever becomes of the task
      by_cases hmay : target.status.mayBecome status = true
      · have hv : validatePlanStepTransition target.status status = .ok () := if_pos hmay
        rw [hv] at h
        rw [intact_of_saved h, tables_withPlan,
          @mem_plans_iff st plan (plan.withStatus now stepId status)
            (Store.mem_of_loadTaskPlan hp) rfl]
        constructor
        · intro hi plan' target' he hs _ hc
          cases he
          exact hi hc
        · intro hi hc
          exact hi plan target rfl ht hmay hc
      · have hv : validatePlanStepTransition target.status status = .error (.invalidTransition
            ("Invalid plan step transition: " ++ target.status.value ++ " -> " ++ status.value)) :=
          if_neg hmay
        rw [hv] at h
        refine iff_of_true (intact_of_same h) fun plan' target' he hs hm => ?_
        cases he
        rw [ht] at hs
        cases hs
        exact absurd hm hmay

theorem activated_ne {plan : ExecutionPlan} {step : PlanStep}
    (hr : plan.steps.find? (isReady (completedIds plan.steps)) = some step) :
    plan.activated now ≠ plan := by
  intro he
  have hsteps : setFirst (isReady (completedIds plan.steps)) .active plan.steps = plan.steps :=
    congrArg ExecutionPlan.steps he
  -- the step that is set was pending
  have hset : ∀ (test : PlanStep → Bool) (steps : List PlanStep),
      (∀ s, test s = true → s.status = .pending) → (steps.find? test).isSome = true →
      setFirst test .active steps ≠ steps := by
    intro test steps htest
    induction steps with
    | nil => intro hn; cases hn
    | cons s steps ih =>
      intro hsome hs
      unfold setFirst at hs
      by_cases hts : test s = true
      · rw [if_pos hts] at hs
        have hstatus := congrArg PlanStep.status (List.cons.inj hs).1
        rw [htest s hts] at hstatus
        cases hstatus
      · rw [if_neg hts] at hs
        rw [List.find?_cons_of_neg hts] at hsome
        exact ih hsome (List.cons.inj hs).2
  refine hset _ plan.steps ?_ (by rw [hr]; rfl) hsteps
  intro s hs
  unfold isReady at hs
  simp at hs
  exact hs.1

theorem intact_currentActiveStep :
    Intact (currentActiveStep now taskId) st ↔
      (Operation.currentActiveStep taskId).NothingNew now st := by
  have h := @currentActiveStep_eq st now taskId
  show _ ↔ ∀ plan, _
  cases hp : st.loadTaskPlan taskId with
  | none =>
    rw [hp] at h
    exact iff_of_true (intact_of_ok h) fun plan he => by cases he
  | some plan =>
    rw [hp] at h
    dsimp only at h
    -- only a plan without an active step and with a ready one is written
    cases ha : plan.steps.find? fun step => step.status == .active with
    | some step =>
      rw [ha] at h
      refine iff_of_true (intact_of_ok h) fun plan' he hno => ?_
      cases he
      have hactive : step.status = .active := by simpa using List.find?_some ha
      exact absurd hactive (hno step (List.mem_of_find?_eq_some ha))
    | none =>
      rw [ha] at h
      dsimp only at h
      have hnone : ∀ step ∈ plan.steps, step.status ≠ .active := by
        simpa using List.find?_eq_none.mp ha
      cases hr : plan.steps.find? (isReady (completedIds plan.steps)) with
      | none =>
        rw [hr] at h
        refine iff_of_true (intact_of_ok h) fun plan' he _ hready => ?_
        cases he
        obtain ⟨step, hstep, hs⟩ := hready
        exact absurd hs (List.find?_eq_none.mp hr step hstep)
      | some step =>
        rw [hr] at h
        rw [intact_of_saved h]
        -- the step that is activated was pending, so the plan is another one
        have hchanged : (st.activating now taskId plan step).tables ≠ st.tables := by
          intro hsame
          have hplans : st.plans.upsert (plan.activated now) = st.plans := by
            have := congrArg (fun t => t.2.2.1) hsame
            unfold Store.activating at this
            split at this <;> exact this
          exact activated_ne hr ((@mem_plans_iff st plan (plan.activated now)
            (Store.mem_of_loadTaskPlan hp) rfl).mp (Table.upsert_eq_self.mp hplans))
        constructor
        · intro hi plan' he _ _ hc
          exact hchanged (hi hc)
        · intro hi hc
          exact absurd hc (hi plan rfl hnone
            ⟨step, List.mem_of_find?_eq_some hr, List.find?_some hr⟩)

/-- The list is parsed from the left, up to the first text that is no type. -/
theorem normalizeEvidenceTypes_error {values : List Text} {e : StoreError}
    (h : normalizeEvidenceTypes values = .error e) : ∃ text, e = .value text := by
  unfold normalizeEvidenceTypes at h
  induction values with
  | nil => cases h
  | cons v values ih =>
    rw [List.mapM_cons] at h
    cases hv : EvidenceType.parse v with
    | none =>
      rw [hv] at h
      cases h
      exact ⟨v, rfl⟩
    | some t =>
      rw [hv] at h
      refine ih ?_
      dsimp only [bind, Except.bind] at h
      split at h
      next hrest => rw [hrest]; exact h
      next => cases h

/-- A text that is no evidence type is the one exception of the gate. -/
theorem stepGate_error {required : List Text} {e : StoreError}
    (h : st.stepGate taskId stepId required = .error e) : ∃ text, e = .value text := by
  unfold Store.stepGate at h
  split at h
  · cases h
  next step _ =>
    generalize (if required.isEmpty then step.requiredEvidence else required) = values at h
    cases hr : normalizeEvidenceTypes values with
    | ok l => rw [hr] at h; cases h
    | error e' =>
      rw [hr] at h
      cases h
      exact normalizeEvidenceTypes_error hr

theorem intact_requestStepComplete (required : List Text) :
    Intact (requestStepComplete now taskId stepId required) st ↔
      (Operation.requestStepComplete taskId stepId required).NothingNew now st := by
  have h := @requestStepComplete_eq st now taskId stepId required
  show _ ↔ ∀ step, _
  cases hg : st.stepGate taskId stepId required with
  | error e =>
    rw [hg] at h
    refine iff_of_true ?_ fun step he => by cases he
    cases hl : st.loadTask taskId <;> rw [hl] at h <;> exact intact_of_same h
  | ok outcome =>
    cases outcome with
    | inl gate =>
      rw [hg] at h
      refine iff_of_true ?_ fun step he => by cases he
      cases hl : st.loadTask taskId <;> rw [hl] at h <;> exact intact_of_same h
    | inr step =>
      rw [hg] at h
      cases hl : st.loadTask taskId with
      | none =>
        rw [hl] at h
        refine iff_of_true (intact_of_same h) fun step' he hs => ?_
        unfold Store.taskStatus at hs
        rw [hl] at hs
        cases hs
      | some state =>
        rw [hl] at h
        dsimp only at h
        have hs := Store.taskStatus_of_load hl
        -- the finished step is written, and then the task is refused if it is completed
        by_cases hc : state.status = .completed
        · rw [if_pos hc] at h
          rw [intact_iff_of_refused h, tables_withStep]
          constructor
          · intro hi step' he _
            cases he
            exact hi
          · exact fun hi => hi step rfl (by rw [hs, hc])
        · rw [if_neg hc] at h
          refine iff_of_true (intact_of_ok h) fun step' _ hs' => ?_
          rw [hs] at hs'
          exact absurd (Option.some.inj hs') hc

theorem intact_recordRepairAttempt (repairId : Text) (files : List Text) (error : Text) :
    Intact (recordRepairAttempt now repairId taskId files error) st ↔
      (Operation.recordRepairAttempt repairId taskId files error).NothingNew now st := by
  have h := @recordRepairAttempt_eq st now taskId repairId files error
  show _ ↔ ∀ state, _
  cases hl : st.loadTask taskId with
  | none =>
    rw [hl] at h
    exact iff_of_true (intact_of_same h) fun state he => by cases he
  | some state =>
    rw [hl] at h
    dsimp only at h
    by_cases hc : state.status = .completed
    · rw [if_pos hc] at h
      rw [intact_iff_of_refused h]
      have htables : ∀ repair : RepairState,
          ({ st with repairs := st.repairs.upsert repair } : Store).tables = st.tables ↔
            repair ∈ st.repairs := by
        intro repair
        unfold Store.tables
        simp only [Prod.mk.injEq, true_and]
        exact Table.upsert_eq_self
      rw [htables]
      constructor
      · intro hi state' he _
        cases he
        exact hi
      · exact fun hi => hi state rfl hc
    · rw [if_neg hc] at h
      refine iff_of_true (intact_of_ok h) fun state' he hc' => ?_
      cases he
      exact absurd hc' hc

theorem intact_bind_pure {α β : Type} {x : Op α} {b : β} :
    Intact (x >>= fun _ => (pure b : Op β)) st ↔ Intact x st := by
  unfold Intact
  rw [Prog.bind_apply]
  cases x st with
  | mk r st₁ =>
    cases r with
    | ok a =>
      constructor <;> intro _ message st' he <;> cases he
    | error e =>
      constructor <;> intro hi message st' he <;> cases he <;> exact hi message st₁ rfl

/-- The tables after a step of a task that runs was completed. -/
theorem tables_stepCompleted {step : StepState} {task : TaskState} {kind : String} :
    ((st.withStep step).writeTask task kind).tables = st.tables ↔
      step ∈ st.steps ∧ task ∈ st.tasks := by
  unfold Store.tables Store.writeTask Store.withStep
  simp only [Prod.mk.injEq, and_true]
  rw [Table.upsert_eq_self, Table.upsert_eq_self]
  exact and_comm

/-- The plan and the step that the condition speaks of are the ones that are found. -/
theorem forall_found {plan : ExecutionPlan} {target : PlanStep}
    {p : ExecutionPlan → PlanStep → Prop} (hp : st.loadTaskPlan taskId = some plan)
    (ht : plan.step? stepId = some target) :
    (∀ plan' target', st.loadTaskPlan taskId = some plan' → plan'.step? stepId = some target' →
      p plan' target') ↔ p plan target := by
  constructor
  · exact fun hi => hi plan target hp ht
  · intro hi plan' target' hp' ht'
    rw [hp] at hp'
    cases hp'
    rw [ht] at ht'
    cases ht'
    exact hi

/-- With the evidence, and the task not completed, the transition of the plan step decides. -/
theorem intact_stepDone {plan : ExecutionPlan} {target : PlanStep} {state : TaskState}
    {step : StepState} (hp : st.loadTaskPlan taskId = some plan)
    (ht : plan.step? stepId = some target) (hl : st.loadTask taskId = some state)
    (hg : st.stepGate taskId stepId target.requiredEvidence = .ok (.inr step))
    (hc : state.status ≠ .completed) :
    Intact (completePlanStep now taskId stepId) st ↔
      (target.status.mayBecome .completed = false → step.finished now ∈ st.steps ∧
        (state.atStep stepId "running").stamped now "step_completed" ∈ st.tasks) := by
  have hx := @completePlanStep_stepDone st now taskId stepId state plan target step hp ht hl hg hc
  have hu := @updatePlanStepStatus_eq (st.stepDone now stepId state step) now taskId stepId
    .completed "plan_step_completed"
  rw [loadTaskPlan_stepDone hl, hp] at hu
  dsimp only at hu
  rw [ht, loadTask_stepDone hl] at hu
  dsimp only at hu
  by_cases hmay : target.status.mayBecome .completed = true
  · have hv : validatePlanStepTransition target.status .completed = .ok () := if_pos hmay
    rw [hv] at hu
    dsimp only at hu
    rw [if_neg (by rw [stamped_status]; exact hc)] at hu
    rw [Prog.bind_of_ok hu] at hx
    refine iff_of_true (intact_of_ok hx) fun hno => ?_
    rw [hmay] at hno
    cases hno
  · have hv : validatePlanStepTransition target.status .completed =
        .error (.invalidTransition ("Invalid plan step transition: " ++
          target.status.value ++ " -> " ++ PlanStepStatus.completed.value)) := if_neg hmay
    rw [hv] at hu
    rw [Prog.bind_of_error hu] at hx
    rw [intact_iff_of_refused hx]
    refine Iff.trans tables_stepCompleted ⟨fun hi _ => hi, fun hi => hi (by simpa using hmay)⟩

theorem intact_completePlanStep :
    Intact (completePlanStep now taskId stepId) st ↔
      (Operation.completePlanStep taskId stepId).NothingNew now st := by
  show _ ↔ ∀ plan target, _
  cases hp : st.loadTaskPlan taskId with
  | none =>
    exact iff_of_true (intact_of_ok (completePlanStep_noPlan hp)) fun plan _ he => by cases he
  | some plan =>
    cases ht : plan.step? stepId with
    | none =>
      refine iff_of_true (intact_of_ok (completePlanStep_noStep hp ht)) fun plan' target he hs => ?_
      cases he
      rw [ht] at hs
      cases hs
    | some target =>
      rw [← hp, forall_found hp ht]
      cases hl : st.loadTask taskId with
      | none =>
        have hs : st.taskStatus taskId = none := by
          unfold Store.taskStatus
          rw [hl]
          rfl
        rw [hs]
        refine iff_of_true (intact_of_same (completePlanStep_noTask hp ht hl))
          ⟨fun step _ => ⟨fun hc => (by cases hc), fun state he => (by cases he)⟩,
            fun gate _ _ hc => (by cases hc)⟩
      | some state =>
        have hs := Store.taskStatus_of_load hl
        cases hg : st.stepGate taskId stepId target.requiredEvidence with
        | error e =>
          exact iff_of_true (intact_of_same (completePlanStep_badEvidence hp ht hl hg))
            ⟨fun step he => (by cases he), fun gate he => (by cases he)⟩
        | ok outcome =>
          cases outcome with
          | inl gate =>
            -- the gate refuses: the operation is the update to `VERIFYING`
            have hu := @intact_updatePlanStepStatus st now taskId stepId .verifying
              "plan_step_verifying"
            rw [← @intact_bind_pure st _ _ _ gate] at hu
            have hx : Intact (completePlanStep now taskId stepId) st ↔
                (target.status.mayBecome .verifying = true →
                  st.taskStatus taskId = some .completed →
                  plan.withStatus now stepId .verifying = plan) := by
              unfold Intact
              rw [completePlanStep_verifying hp ht hl hg]
              exact hu.trans (forall_found hp ht)
            rw [hx]
            exact ⟨fun hi => ⟨fun step he => (by cases he), fun _ _ => hi⟩,
              fun hi => hi.2 gate rfl⟩
          | inr step =>
            by_cases hc : state.status = .completed
            · rw [intact_iff_of_refused (completePlanStep_taskCompleted hp ht hl hg hc),
                tables_withStep]
              constructor
              · intro hi
                refine ⟨fun step' he => ?_, fun gate he => (by cases he)⟩
                cases he
                exact ⟨fun _ => hi, fun state' he hne => (by cases he; exact absurd hc hne)⟩
              · exact fun hi => (hi.1 step rfl).1 (by rw [hs, hc])
            · rw [intact_stepDone hp ht hl hg hc]
              constructor
              · intro hi
                refine ⟨fun step' he => ?_, fun gate he => (by cases he)⟩
                cases he
                refine ⟨fun he => absurd (Option.some.inj (hs.symm.trans he)) hc, ?_⟩
                intro state' he _ hno
                cases he
                exact hi hno
              · exact fun hi => (hi.1 step rfl).2 state rfl hc

/-- After a step of a task that runs is recorded, nothing is refused. -/
theorem not_refused_of_running {state : TaskState} {required : List Text} {message : String}
    {st' : Store} (hl : st.loadTask taskId = some state) (hrunning : state.status = .running) :
    (requestStepComplete now taskId stepId required >>= fun _ => requireTask taskId) st ≠
      (.error (.invalidTransition message), st') := by
  have hr := @requestStepComplete_eq st now taskId stepId required
  rw [hl] at hr
  dsimp only at hr
  cases hg : st.stepGate taskId stepId required with
  | error e =>
    obtain ⟨text, rfl⟩ := stepGate_error hg
    rw [hg] at hr
    rw [Prog.bind_of_error hr]
    exact fun he => by cases he
  | ok outcome =>
    cases outcome with
    | inl gate =>
      rw [hg] at hr
      rw [Prog.bind_of_ok hr, requireTask_eq, hl]
      exact fun he => by cases he
    | inr step =>
      rw [hg] at hr
      dsimp only at hr
      rw [if_neg (by rw [hrunning]; decide)] at hr
      rw [Prog.bind_of_ok hr, requireTask_eq, loadTask_stepDone hl]
      exact fun he => by cases he

theorem intact_recordSuccessfulStep (ids : Text × Text) (call : ToolCall) (result : ToolResult)
    (files required : List Text) :
    Intact (recordSuccessfulStep now ids taskId stepId call result files required) st ↔
      (Operation.recordSuccessfulStep ids taskId stepId call result files required).NothingNew
        now st := by
  have h := @recordSuccessfulStep_eq st now taskId stepId ids call result files required
  show _ ↔ ∀ state, _
  cases hl : st.loadTask taskId with
  | none =>
    rw [hl] at h
    refine iff_of_true (intact_of_same h) fun state hrow => ?_
    rw [Store.loadTask_of_lookup hrow] at hl
    cases hl
  | some state =>
    rw [hl] at h
    dsimp only at h
    generalize hstate : state.afterStep stepId call result files = state' at h
    have hrunning : state'.status = .running := by rw [← hstate]; rfl
    cases hc : checkSave (st.tasks.lookup taskId) state' none false with
    | error e =>
      rw [hc] at h
      -- only the transition can be refused
      obtain ⟨old, hrow, hmay, he⟩ : ∃ old, st.tasks.lookup taskId = some old ∧
          old.status.mayBecome .running = false ∧ ∃ message, e = .invalidTransition message := by
        unfold checkSave at hc
        rw [hrunning] at hc
        rw [if_neg (by decide)] at hc
        cases hrow : st.tasks.lookup taskId with
        | none => rw [hrow] at hc; cases hc
        | some old =>
          rw [hrow] at hc
          dsimp only [Option.filter_none] at hc
          refine ⟨old, rfl, ?_⟩
          unfold validateTransition at hc
          by_cases hmay : old.status.mayBecome .running = true
          · rw [if_pos hmay] at hc
            cases hc
          · rw [if_neg hmay] at hc
            cases hc
            exact ⟨by simpa using hmay, _, rfl⟩
      obtain ⟨message, rfl⟩ := he
      have hold : old = state := Option.some.inj ((Store.loadTask_of_lookup hrow).symm.trans hl)
      subst hold
      rw [intact_iff_of_refused h, tables_recording]
      constructor
      · intro hi state'' hrow' _
        rw [hrow] at hrow'
        cases hrow'
        rw [hstate]
        exact hi
      · intro hi
        have := hi old hrow hmay
        rw [hstate] at this
        exact this
    | ok saved =>
      rw [hc] at h
      obtain ⟨hid, hstat, _, hmay⟩ := checkSave_ok hc
      have hrun : saved.status = .running := hstat.trans hrunning
      have htid : saved.taskId = taskId := by
        rw [hid, ← hstate]
        show state.taskId = taskId
        exact Store.loadTask_taskId hl
      have hload : ((st.recording now ids state' stepId call result files required).writeTask
          (saved.stamped now "step_succeeded") "step_succeeded").loadTask taskId =
          some (saved.stamped now "step_succeeded") := by
        rw [← htid, ← stamped_taskId saved now "step_succeeded"]
        exact Store.loadTask_writeTask_self _ _
      refine iff_of_true ?_ ?_
      · intro message st' he
        rw [h] at he
        exact absurd he (not_refused_of_running hload (by rw [stamped_status]; exact hrun))
      · intro state'' hrow hno
        have := hmay state'' hrow
        rw [hrunning, hno] at this
        cases this

theorem intact_createTask {runId request projectId planId : Text} :
    Intact (createTask now runId request projectId taskId planId) st :=
  intact_bind intact_saveTask fun _ _ => ⟨_, _, rfl⟩

theorem intact_requestTaskComplete (required : List Text) :
    Intact (requestTaskComplete now taskId required) st := by
  refine intact_requireTask_save (fun state => ?_) taskId
  intro message st' he
  -- the checks only read
  rw [Prog.bind_apply, Prog.gets_apply] at he
  dsimp only at he
  rw [Prog.bind_apply, Prog.gets_apply] at he
  dsimp only at he
  split at he
  · cases he
  · split at he
    · cases he
    · rcases Prog.ofExcept_bind he with ⟨e, _, _, hst⟩ | ⟨types, _, he⟩
      · rw [hst]
      · rw [Prog.bind_apply, Prog.gets_apply] at he
        dsimp only at he
        split at he
        · exact intact_bind_pure.mpr intact_saveTask message st' he
        · cases he

end Each

/-- **When an operation that raises `InvalidStateTransition` leaves the tables alone**:
exactly when it has written nothing new by the time it saves the task. -/
theorem intact_iff (now : Text) (op : Operation) (st : Store) :
    Intact (perform now op) st ↔ op.NothingNew now st := by
  cases op with
  | saveRun run => exact iff_of_true (intact_of_ok rfl) trivial
  | createTask runId userRequest projectId taskId planId =>
    exact iff_of_true (intact_discard.mpr intact_createTask) trivial
  | requireTask taskId =>
    refine iff_of_true (intact_discard.mpr ?_) trivial
    have h := @requireTask_eq st taskId
    cases hl : st.loadTask taskId <;> rw [hl] at h <;> exact intact_of_same h
  | saveTask state kind expected allow =>
    exact iff_of_true (intact_discard.mpr intact_saveTask) trivial
  | updateTaskStatus taskId status phase kind =>
    exact iff_of_true (intact_discard.mpr
      (intact_requireTask_save (fun _ => intact_saveTask) taskId)) trivial
  | recordPlanCreated taskId planId =>
    exact iff_of_true (intact_discard.mpr
      (intact_requireTask_save (fun _ => intact_saveTask) taskId)) trivial
  | recordApprovalRequested taskId request =>
    exact iff_of_true (intact_discard.mpr
      (intact_requireTask_save (fun _ => intact_saveTask) taskId)) trivial
  | recordApprovalResolved taskId approved =>
    exact iff_of_true (intact_discard.mpr
      (intact_requireTask_save (fun _ => intact_saveTask) taskId)) trivial
  | recordReplan taskId planId =>
    exact iff_of_true (intact_discard.mpr
      (intact_requireTask_save (fun _ => intact_saveTask) taskId)) trivial
  | recordStep step => exact iff_of_true (intact_of_ok rfl) trivial
  | recordRepair repair => exact iff_of_true (intact_of_ok rfl) trivial
  | recordEvidence evidence => exact iff_of_true (intact_of_ok rfl) trivial
  | recordFailure failure => exact iff_of_true (intact_of_ok rfl) trivial
  | requestStepComplete taskId stepId required =>
    exact intact_discard.trans (intact_requestStepComplete required)
  | requestTaskComplete taskId required =>
    exact iff_of_true (intact_discard.mpr (intact_requestTaskComplete required)) trivial
  | recordSuccessfulStep ids taskId stepId call result files required =>
    exact intact_discard.trans (intact_recordSuccessfulStep ids call result files required)
  | recordRepairAttempt repairId taskId files error =>
    exact intact_discard.trans (intact_recordRepairAttempt repairId files error)
  | saveExecutionPlan plan tools => exact intact_discard.trans (intact_saveExecutionPlan plan tools)
  | currentActiveStep taskId => exact intact_discard.trans intact_currentActiveStep
  | updatePlanStepStatus taskId stepId status kind =>
    exact intact_discard.trans (intact_updatePlanStepStatus status kind)
  | completePlanStep taskId stepId => exact intact_discard.trans intact_completePlanStep

/-- A task is created, set running and completed. -/
private def toCompleted : List (Text × Operation) :=
  [("1".toList, .createTask "r".toList "q".toList [] "t".toList []),
    ("2".toList, .updateTaskStatus "t".toList .running none ""),
    ("3".toList, .requestTaskComplete "t".toList [])]

/-- The store after some operations. -/
def Store.after (st : Store) (ops : List (Text × Operation)) : Store :=
  run (fun st op => (perform op.1 op.2 st).2) st ops

/-- **A repair of a completed task is refused, and recorded.** -/
theorem refused_repair_stays :
    ¬ Intact (perform "4".toList (.recordRepairAttempt "p".toList "t".toList [] []))
        (Store.empty.after toCompleted) := by
  intro hi
  have h := congrArg (fun tables => tables.2.2.2.2.rows.length)
    (hi "Task completion must go through request_task_complete()." _ rfl)
  revert h
  decide

end Shamsu.Runtime
