import Shamsu.Runtime.Scheduler

/-!
# Runs of a plan

A saved plan under any sequence of `current_active_step`, `complete_plan_step` and
`update_plan_step_status`, with steps and evidence recorded in between (`PlanCall`), and
under rounds of activating a step and completing it (`Rounds`).

- `one_active`: as long as no step is set active next to another, at most one step is
  active, and a step that `current_active_step` activated has its dependencies completed.
- `rounds_progress`: of a plan with steps that are pending, active or completed, each
  round completes one, and there is a step to activate until all are.
-/

namespace Shamsu.Runtime

open Shamsu.Py Shamsu.Lib

/-! ## At most one active step -/

/-- The store, and the ids that `current_active_step` has activated. -/
structure Scheduling where
  store : Store
  activated : List Text

inductive PlanCall where
  | currentActiveStep (now : Text)
  | completePlanStep (now stepId : Text)
  | updatePlanStepStatus (now stepId : Text) (status : PlanStepStatus) (checkpointKind : String)
  | elsewhere (steps : Table fun step : StepState => (step.taskId, step.stepId))
      (evidence : List EvidenceRecord)

/-- The step that `current_active_step` would activate. -/
def ExecutionPlan.nextStep? (plan : ExecutionPlan) : Option PlanStep :=
  if plan.steps.any fun step => step.status == .active then none
  else plan.steps.find? (isReady (completedIds plan.steps))

namespace Scheduling

/-- One call. -/
def step (taskId : Text) (s : Scheduling) : PlanCall → Scheduling
  | .currentActiveStep now =>
    { store := (currentActiveStep now taskId s.store).2
      activated := s.activated ++
        (((s.store.loadTaskPlan taskId).bind ExecutionPlan.nextStep?).toList.map PlanStep.stepId) }
  | .completePlanStep now stepId =>
    { s with store := (completePlanStep now taskId stepId s.store).2 }
  | .updatePlanStepStatus now stepId status kind =>
    { s with store := (updatePlanStepStatus now taskId stepId status kind s.store).2 }
  | .elsewhere steps evidence =>
    { s with store := { s.store with steps := steps, evidence := evidence } }

/-- A step is set active only if no other step is. -/
def alone (taskId : Text) (s : Scheduling) : PlanCall → Bool
  | .updatePlanStepStatus _ stepId status _ =>
    status != .active || (s.store.loadTaskPlan taskId).all fun plan =>
      plan.steps.all fun step => step.status != .active || step.stepId == stepId
  | _ => true

/-- At most one step is active, and one that `current_active_step` activated and that is
active, verifying or completed has its dependencies completed. -/
def Orderly (taskId : Text) (s : Scheduling) : Prop :=
  ∀ plan, s.store.loadTaskPlan taskId = some plan →
    (plan.steps.filter fun step => step.status == .active).length ≤ 1 ∧
      ∀ step ∈ plan.steps, step.stepId ∈ s.activated →
        step.status ∈ [PlanStepStatus.active, .verifying, .completed] →
        ∀ dep ∈ step.dependencies, Done plan.steps dep

end Scheduling

/-- What the calls keep of the steps. -/
structure Ordering (steps : List PlanStep) (activated : List Text) : Prop where
  sound : Sound steps
  single : ∀ a ∈ steps, ∀ b ∈ steps, a.status = .active → b.status = .active →
    a.stepId = b.stepId
  ready : ∀ step ∈ steps, step.stepId ∈ activated → ∀ dep ∈ step.dependencies, Done steps dep

section Steps

variable {plan plan' : ExecutionPlan} {now stepId : Text} {status : PlanStepStatus}
  {target step : PlanStep} {ids : List Text} {steps : List PlanStep}

theorem step?_spec (h : plan.step? stepId = some target) :
    target ∈ plan.steps ∧ target.stepId = stepId :=
  ⟨List.mem_of_find?_eq_some h, by simpa using List.find?_some h⟩

theorem withStatus_steps (hs : Sound plan.steps) (h : plan.step? stepId = some target) :
    (plan.withStatus now stepId status).steps = setStatus stepId status plan.steps := by
  show setFirst _ status plan.steps = _
  rw [setFirst_eq hs.nodup h, (step?_spec h).2]

theorem activated_steps (hs : Sound plan.steps) (h : FirstReady plan step) :
    (plan.activated now).steps = setStatus step.stepId .active plan.steps :=
  setFirst_eq hs.nodup h.2

theorem isReady_iff : isReady (completedIds steps) step = true ↔
    step.status = .pending ∧ ∀ dep ∈ step.dependencies, Done steps dep := by
  unfold isReady completedIds Done
  simp only [Bool.and_eq_true, beq_iff_eq, List.all_eq_true, List.contains_iff_mem, List.mem_map,
    List.mem_filter]
  constructor
  · intro h
    obtain ⟨hp, hd⟩ := h
    refine ⟨hp, fun dep hdep => ?_⟩
    obtain ⟨s, ⟨hs, hc⟩, hid⟩ := hd dep hdep
    exact ⟨s, hs, hid, hc⟩
  · intro h
    obtain ⟨hp, hd⟩ := h
    refine ⟨hp, fun dep hdep => ?_⟩
    obtain ⟨s, hs, hid, hc⟩ := hd dep hdep
    exact ⟨s, ⟨hs, hc⟩, hid⟩

theorem nextStep?_eq_some : plan.nextStep? = some step ↔ FirstReady plan step := by
  unfold ExecutionPlan.nextStep? FirstReady
  split
  next ha =>
    obtain ⟨s, hs, hactive⟩ := List.any_eq_true.mp ha
    exact iff_of_false (by simp) fun hf => hf.1 s hs (by simpa using hactive)
  next ha =>
    have hnone : ∀ s ∈ plan.steps, s.status ≠ .active := by
      intro s hs hactive
      exact ha (List.any_eq_true.mpr ⟨s, hs, by simpa using hactive⟩)
    exact ⟨fun h => ⟨hnone, h⟩, fun h => h.2⟩

/-- One step of the plan gets a status that it may get. -/
theorem Ordering.setStatus (h : Ordering steps ids) (htarget : target ∈ steps)
    (hmay : target.status.mayBecome status = true)
    (halone : status = .active → ∀ s ∈ steps, s.status = .active → s.stepId = target.stepId) :
    Ordering (setStatus target.stepId status steps) ids := by
  -- a completed step stays completed
  have hkeep : ∀ s ∈ steps, s.stepId = target.stepId → s.status = .completed →
      status = .completed := by
    intro s hs hid hc
    have he := List.inj_on_of_nodup_map h.sound.nodup hs htarget hid
    subst he
    rw [hc] at hmay
    exact PlanStepStatus.eq_completed hmay
  refine ⟨h.sound.setStatus, ?_, ?_⟩
  · intro a ha b hb hactA hactB
    obtain ⟨a₀, ha₀, hida, _, hca⟩ := mem_setStatus ha
    obtain ⟨b₀, hb₀, hidb, _, hcb⟩ := mem_setStatus hb
    rw [hida, hidb]
    rcases hca with ⟨hta, hsa⟩ | ⟨hta, rfl⟩ <;> rcases hcb with ⟨htb, hsb⟩ | ⟨htb, rfl⟩
    · rw [hta, htb]
    · rw [hta]
      exact (halone (hsa.symm.trans hactA) _ hb₀ hactB).symm
    · rw [htb]
      exact halone (hsb.symm.trans hactB) _ ha₀ hactA
    · exact h.single _ ha₀ _ hb₀ hactA hactB
  · intro step hstep hact dep hdep
    obtain ⟨s₀, hs₀, hid, hdeps, _⟩ := mem_setStatus hstep
    rw [hid] at hact
    rw [hdeps] at hdep
    exact (h.ready s₀ hs₀ hact dep hdep).setStatus hkeep

theorem Ordering.moved (h : Ordering plan.steps ids)
    (hmoved : Moved plan plan' now stepId status)
    (halone : status = .active → ∀ s ∈ plan.steps, s.status = .active → s.stepId = stepId) :
    Ordering plan'.steps ids := by
  obtain ⟨target, ht, hmay, rfl⟩ := hmoved
  obtain ⟨hmem, hid⟩ := step?_spec ht
  rw [withStatus_steps h.sound ht, ← hid]
  exact h.setStatus hmem hmay (by rw [hid]; exact halone)

/-- `current_active_step` activates a step with completed dependencies where none is active. -/
theorem Ordering.activated (h : Ordering plan.steps ids) (hf : FirstReady plan step) :
    Ordering (plan.activated now).steps (ids ++ [step.stepId]) := by
  obtain ⟨hpending, hdone⟩ := isReady_iff.mp (List.find?_some hf.2)
  have hmem := List.mem_of_find?_eq_some hf.2
  have hready : Ordering plan.steps (ids ++ [step.stepId]) := by
    refine ⟨h.sound, h.single, fun s hs hact => ?_⟩
    rcases List.mem_append.mp hact with hold | hnew
    · exact h.ready s hs hold
    · have he := List.inj_on_of_nodup_map h.sound.nodup hs hmem (List.mem_singleton.mp hnew)
      rw [he]
      exact hdone
  rw [activated_steps h.sound hf]
  refine hready.setStatus hmem ?_ fun _ s hs hactive => absurd hactive (hf.1 s hs)
  rw [hpending]
  decide

theorem Ordering.length_le_one (h : Ordering steps ids) :
    (steps.filter fun step => step.status == .active).length ≤ 1 := by
  have hn : ((steps.filter fun step => step.status == .active).map PlanStep.stepId).Nodup :=
    h.sound.nodup.sublist (List.filter_sublist.map _)
  have hactive : ∀ s ∈ steps.filter fun step => step.status == .active,
      s ∈ steps ∧ s.status = .active := by
    intro s hs
    simpa using List.mem_filter.mp hs
  generalize steps.filter (fun step => step.status == .active) = active at hn hactive ⊢
  match active, hn, hactive with
  | [], _, _ => simp
  | [_], _, _ => simp
  | a :: b :: rest, hn, hactive =>
    obtain ⟨ha, hsa⟩ := hactive a (by simp)
    obtain ⟨hb, hsb⟩ := hactive b (by simp)
    simp [h.single a ha b hb hsa hsb] at hn

end Steps

section Runs

variable {taskId : Text}

/-- The task follows a plan with its steps in order. -/
def Scheduling.Kept (taskId : Text) (s : Scheduling) : Prop :=
  ∃ state plan, s.store.Follows taskId state plan ∧ Ordering plan.steps s.activated

theorem Scheduling.Kept.orderly {s : Scheduling} (h : s.Kept taskId) : s.Orderly taskId := by
  obtain ⟨state, plan, hf, ho⟩ := h
  intro plan' hp
  rw [hf.loadTaskPlan] at hp
  cases hp
  exact ⟨ho.length_le_one, fun step hstep hact _ => ho.ready step hstep hact⟩

/-- One call. -/
theorem kept_step {s : Scheduling} {call : PlanCall} (h : s.Kept taskId)
    (halone : s.alone taskId call = true) : (s.step taskId call).Kept taskId := by
  obtain ⟨state, plan, hf, ho⟩ := h
  cases call with
  | currentActiveStep now =>
    obtain ⟨state', plan', hf', _, ⟨rfl, hno⟩ | ⟨step, hready, rfl⟩⟩ := follows_activate hf
    · refine ⟨state', plan', hf', ?_⟩
      have hnone : plan'.nextStep? = none :=
        Option.eq_none_iff_forall_ne_some.mpr fun step he => hno step (nextStep?_eq_some.mp he)
      show Ordering plan'.steps (s.activated ++ _)
      rw [hf.loadTaskPlan, Option.bind_some, hnone]
      simpa using ho
    · refine ⟨state', _, hf', ?_⟩
      show Ordering _ (s.activated ++ _)
      rw [hf.loadTaskPlan, Option.bind_some, nextStep?_eq_some.mpr hready]
      exact ho.activated hready
  | completePlanStep now stepId =>
    obtain ⟨state', plan', hf', _, rfl | hmoved | hmoved⟩ := follows_complete hf
    · exact ⟨state', plan', hf', ho⟩
    · exact ⟨state', plan', hf', ho.moved hmoved fun he => by cases he⟩
    · exact ⟨state', plan', hf', ho.moved hmoved fun he => by cases he⟩
  | updatePlanStepStatus now stepId status kind =>
    obtain ⟨state', plan', hf', _, ⟨rfl, _⟩ | hmoved⟩ := follows_update hf status kind
    · exact ⟨state', plan', hf', ho⟩
    · refine ⟨state', plan', hf', ho.moved hmoved fun hactive t ht hs => ?_⟩
      unfold Scheduling.alone at halone
      rw [hf.loadTaskPlan, hactive] at halone
      simp only [bne_self_eq_false, Bool.false_or, Option.all_some, List.all_eq_true] at halone
      have := halone t ht
      rw [hs] at this
      simpa using this
  | elsewhere steps evidence => exact ⟨state, plan, hf.congr rfl rfl, ho⟩

/-- A list of at most one step is at most one id. -/
theorem single_of_length {steps : List PlanStep}
    (h : (steps.filter fun step => step.status == .active).length ≤ 1) :
    ∀ a ∈ steps, ∀ b ∈ steps, a.status = .active → b.status = .active → a.stepId = b.stepId := by
  intro a ha b hb hsa hsb
  have hina : a ∈ steps.filter fun step => step.status == .active :=
    List.mem_filter.mpr ⟨ha, by simpa using hsa⟩
  have hinb : b ∈ steps.filter fun step => step.status == .active :=
    List.mem_filter.mpr ⟨hb, by simpa using hsb⟩
  generalize steps.filter (fun step => step.status == .active) = active at h hina hinb
  match active, h with
  | [x], _ =>
    rw [List.mem_singleton.mp hina, List.mem_singleton.mp hinb]

/-- **At most one step is active**, and what `current_active_step` activated has its
dependencies completed, in every state of a run that sets no step active next to another. -/
theorem one_active {st₀ st : Store} {now : Text} {plan plan' : ExecutionPlan}
    {tools : Option (List Text)}
    (hsaved : saveExecutionPlan now plan tools st₀ = (.ok plan', st))
    (hone : (plan.steps.filter fun step => step.status == .active).length ≤ 1)
    (calls : List PlanCall)
    (halone : Along (Scheduling.step plan.taskId)
      (fun s call => s.alone plan.taskId call = true) ⟨st, []⟩ calls) :
    Always (Scheduling.step plan.taskId) (Scheduling.Orderly plan.taskId) ⟨st, []⟩ calls := by
  obtain ⟨hvalid, rfl, state, hf, _⟩ := follows_save hsaved
  have hstart : Scheduling.Kept plan.taskId ⟨st, []⟩ :=
    ⟨state, _, hf, sound_of_valid hvalid, single_of_length hone, fun _ _ hno => by cases hno⟩
  have hkept := always_of_along (I := Scheduling.Kept plan.taskId)
    (P := fun (s : Scheduling) call => s.alone plan.taskId call = true)
    (fun s call h ha => kept_step h ha) hstart halone
  exact hkept.mono fun s h => h.orderly

end Runs

/-! A plan of two steps that depend on nothing. -/

section TwoSteps

private def plainStep (id : String) (status : PlanStepStatus) : PlanStep :=
  { stepId := id.toList, title := "title".toList, goal := "goal".toList,
    acceptanceCriteria := ["works".toList], status := status }

private def twoSteps (first : PlanStepStatus) : ExecutionPlan :=
  { planId := "p".toList, taskId := "t".toList, runId := "r".toList,
    steps := [plainStep "a" first, plainStep "b" .pending], createdAt := "0".toList,
    updatedAt := "0".toList }

private def planned : Store :=
  Store.empty.after [("1".toList, .createTask "r".toList "q".toList [] "t".toList [])]

/-- The plan is saved for the task. -/
private def saved (first : PlanStepStatus) : Store :=
  (saveExecutionPlan "2".toList (twoSteps first) none planned).2

/-- **Two active steps**: the first is activated, the second set active. -/
theorem two_active :
    (saveExecutionPlan "2".toList (twoSteps .pending) none planned).1 =
        .ok { twoSteps .pending with updatedAt := "2".toList } ∧
      ¬ (run (Scheduling.step "t".toList) ⟨saved .pending, []⟩
          [.currentActiveStep "3".toList,
            .updatePlanStepStatus "4".toList "b".toList .active ""]).Orderly "t".toList := by
  refine ⟨by decide, fun h => ?_⟩
  have htwo : ((run (Scheduling.step "t".toList) ⟨saved .pending, []⟩
      [.currentActiveStep "3".toList,
        .updatePlanStepStatus "4".toList "b".toList .active ""]).store.loadTaskPlan
          "t".toList).any (fun plan =>
            (plan.steps.filter fun step => step.status == .active).length == 2) = true := by
    decide
  obtain ⟨plan, hp, hlength⟩ := (Option.any_eq_true _ _).mp htwo
  have hle := (h plan hp).1
  have heq := beq_iff_eq.mp hlength
  omega

/-- The first step is verified again while the second is active, and set active afterwards. -/
theorem one_active_retry :
    Always (Scheduling.step "t".toList) (Scheduling.Orderly "t".toList) ⟨saved .pending, []⟩
      [.currentActiveStep "3".toList,
        .updatePlanStepStatus "4".toList "a".toList .verifying "",
        .currentActiveStep "5".toList,
        .completePlanStep "6".toList "b".toList,
        .updatePlanStepStatus "7".toList "a".toList .active ""] :=
  @one_active planned (saved .pending) "2".toList (twoSteps .pending)
    { twoSteps .pending with updatedAt := "2".toList } none rfl (by decide) _ (by decide)

end TwoSteps

/-! ## Progress -/

section Progress

variable {taskId now stepId : Text} {st st' : Store} {state : TaskState} {plan : ExecutionPlan}

/-- What else happens to a store while a step is worked on: tasks and plans stay. -/
structure Elsewhere (st st' : Store) : Prop where
  tasks : st'.tasks = st.tasks
  checkpoints : st'.checkpoints = st.checkpoints
  plans : st'.plans = st.plans

/-- A round: a step is activated, and later completed. -/
inductive Round (taskId : Text) (st st' : Store) : Prop where
  | mk (now now' : Text) (step : PlanStep) (st₁ st₂ : Store) (gate : GateResult)
      (activated : currentActiveStep now taskId st = (.ok (some step), st₁))
      (elsewhere : Elsewhere st₁ st₂)
      (completed : completePlanStep now' taskId step.stepId st₂ = (.ok gate, st'))
      (passed : gate.ok = true)

/-- Rounds, one after the other. -/
inductive Rounds (taskId : Text) : Nat → Store → Store → Prop where
  | none (st : Store) : Rounds taskId 0 st st
  | next {k : Nat} {st st₁ st₂ : Store} (rounds : Rounds taskId k st st₁)
      (last : Round taskId st₁ st₂) : Rounds taskId (k + 1) st st₂

/-- Every step is pending, active or completed. -/
def Plain (steps : List PlanStep) : Prop :=
  ∀ step ∈ steps, step.status ∈ [PlanStepStatus.pending, .active, .completed]

/-- The number of steps that are not completed. -/
def left (steps : List PlanStep) : Nat :=
  (steps.filter fun step => step.status != .completed).length

theorem left_eq_zero {steps : List PlanStep} :
    left steps = 0 ↔ ∀ step ∈ steps, step.status = .completed := by
  unfold left
  rw [List.length_eq_zero_iff, List.filter_eq_nil_iff]
  simp

theorem left_setStatus_of_ne {steps : List PlanStep} {id : Text} {status : PlanStepStatus}
    (hne : status ≠ .completed)
    (hid : ∀ step ∈ steps, step.stepId = id → step.status ≠ .completed) :
    left (setStatus id status steps) = left steps := by
  unfold left setStatus
  induction steps with
  | nil => rfl
  | cons step steps ih =>
    have hrest := ih fun s hs => hid s (List.mem_cons_of_mem _ hs)
    have hfirst := hid step (List.mem_cons_self ..)
    rw [List.map_cons]
    by_cases he : step.stepId = id
    · rw [if_pos he, List.filter_cons_of_pos (by simpa using hne),
        List.filter_cons_of_pos (by simpa using hfirst he), List.length_cons, List.length_cons,
        hrest]
    · rw [if_neg he, List.filter_cons, List.filter_cons]
      split <;> simp [hrest]

/-- One step fewer is left when one is completed. -/
theorem left_complete {steps : List PlanStep} {target : PlanStep}
    (hn : (steps.map PlanStep.stepId).Nodup) (htarget : target ∈ steps)
    (hs : target.status ≠ .completed) :
    left (setStatus target.stepId .completed steps) + 1 = left steps := by
  induction steps with
  | nil => cases htarget
  | cons step steps ih =>
    rw [List.map_cons, List.nodup_cons] at hn
    rcases List.mem_cons.mp htarget with rfl | hrest
    · have hsame := @setStatus_of_not_mem steps target.stepId .completed hn.1
      unfold left setStatus at *
      rw [List.map_cons, if_pos rfl, hsame, List.filter_cons_of_neg (by simp),
        List.filter_cons_of_pos (by simpa using hs), List.length_cons]
    · have hne : step.stepId ≠ target.stepId := fun he =>
        hn.1 (he ▸ List.mem_map_of_mem hrest)
      have hih := ih hn.2 hrest
      unfold left setStatus at *
      rw [List.map_cons, if_neg hne, List.filter_cons, List.filter_cons]
      split
      · rw [List.length_cons, List.length_cons]
        omega
      · exact hih

theorem Plain.setStatus {steps : List PlanStep} {id : Text} {status : PlanStepStatus}
    (h : Plain steps) (hs : status ∈ [PlanStepStatus.pending, .active, .completed]) :
    Plain (setStatus id status steps) := by
  intro step' hstep'
  obtain ⟨step, hstep, _, _, ⟨_, he⟩ | ⟨_, rfl⟩⟩ := mem_setStatus hstep'
  · rw [he]
    exact hs
  · exact h _ hstep

/-- A task that follows a plan with steps that are pending, active or completed. -/
structure Advancing (taskId : Text) (st : Store) (state : TaskState) (plan : ExecutionPlan) :
    Prop where
  follows : st.Follows taskId state plan
  open_ : state.status ≠ .completed
  sound : Sound plan.steps
  plain : Plain plan.steps

/-- Without an active step, a pending one is ready until all are completed. -/
theorem exists_ready {steps : List PlanStep} (hs : Sound steps) (hp : Plain steps)
    (hno : ∀ step ∈ steps, step.status ≠ .active) (hleft : left steps ≠ 0) :
    ∃ step ∈ steps, isReady (completedIds steps) step = true := by
  obtain ⟨order, hord, hids⟩ := hs.ordered
  obtain ⟨open_, hopen, hnot⟩ : ∃ step ∈ steps, step.status ≠ .completed := by
    by_contra hall
    refine hleft (left_eq_zero.mpr fun step hstep => ?_)
    by_contra hc
    exact hall ⟨step, hstep, hc⟩
  -- the first id of the order that is one of the plan and not done
  obtain ⟨id, _, hid, hdeps⟩ := hord.exists_ready
    (fun x => x ∈ steps.map PlanStep.stepId → Done steps x)
    ⟨open_.stepId, hids (List.mem_map_of_mem hopen), fun hd => by
      obtain ⟨s, hsm, hse, hsc⟩ := hd (List.mem_map_of_mem hopen)
      rw [List.inj_on_of_nodup_map hs.nodup hsm hopen hse] at hsc
      exact hnot hsc⟩
  rw [Classical.not_imp] at hid
  obtain ⟨hin, hundone⟩ := hid
  obtain ⟨step, hstep, rfl⟩ := List.mem_map.mp hin
  have hpending : step.status = .pending := by
    have hplain := hp step hstep
    simp only [List.mem_cons, List.not_mem_nil, or_false] at hplain
    rcases hplain with h | h | h
    · exact h
    · exact absurd h (hno step hstep)
    · exact absurd ⟨step, hstep, rfl, h⟩ hundone
  refine ⟨step, hstep, isReady_iff.mpr ⟨hpending, fun dep hdep => ?_⟩⟩
  rw [dependenciesOf_eq hs.nodup hstep] at hdeps
  exact hdeps dep hdep (hs.known step hstep dep hdep)

/-- **Until all steps are completed, there is one to work on.** -/
theorem Advancing.progress (h : Advancing taskId st state plan) (hleft : left plan.steps ≠ 0)
    (now : Text) : ∃ step st', currentActiveStep now taskId st = (.ok (some step), st') := by
  rw [currentActiveStep_eq, h.follows.loadTaskPlan]
  dsimp only
  cases ha : plan.steps.find? fun step => step.status == .active with
  | some step => exact ⟨step, st, rfl⟩
  | none =>
    have hno : ∀ step ∈ plan.steps, step.status ≠ .active := by
      simpa using List.find?_eq_none.mp ha
    obtain ⟨step, hstep, hready⟩ := exists_ready h.sound h.plain hno hleft
    dsimp only
    cases hr : plan.steps.find? (isReady (completedIds plan.steps)) with
    | none => exact absurd hready (List.find?_eq_none.mp hr step hstep)
    | some step =>
      rw [h.follows.task]
      dsimp only
      rw [if_neg h.open_]
      exact ⟨_, _, rfl⟩

/-- `current_active_step` returns an active step of the plan; as many are left. -/
theorem Advancing.activate {step : PlanStep} (h : Advancing taskId st state plan)
    (hx : currentActiveStep now taskId st = (.ok (some step), st')) :
    ∃ state' plan', Advancing taskId st' state' plan' ∧ left plan'.steps = left plan.steps ∧
      ∃ target ∈ plan'.steps, target.stepId = step.stepId ∧ target.status = .active := by
  obtain ⟨state', plan', hf, hs, hp⟩ := @follows_activate st now taskId state plan h.follows
  rw [hx] at hf
  have hopen : state'.status ≠ .completed := by rw [hs]; exact h.open_
  rw [currentActiveStep_eq, h.follows.loadTaskPlan] at hx
  dsimp only at hx
  -- the plan stays, if a step of it is active already, or the first ready step is activated
  rcases hp with ⟨rfl, hno⟩ | ⟨first, hfirst, rfl⟩
  · refine ⟨state', plan', ⟨hf, hopen, h.sound, h.plain⟩, rfl, ?_⟩
    cases ha : plan'.steps.find? fun step => step.status == .active with
    | some found =>
      rw [ha] at hx
      cases hx
      exact ⟨step, List.mem_of_find?_eq_some ha, rfl, by simpa using List.find?_some ha⟩
    | none =>
      rw [ha] at hx
      dsimp only at hx
      have hnone : plan'.steps.find? (isReady (completedIds plan'.steps)) = none :=
        Option.eq_none_iff_forall_ne_some.mpr fun s hr =>
          hno s ⟨by simpa using List.find?_eq_none.mp ha, hr⟩
      rw [hnone] at hx
      cases hx
  · have hmem := List.mem_of_find?_eq_some hfirst.2
    have hpending := (isReady_iff.mp (List.find?_some hfirst.2)).1
    have hsteps := @activated_steps plan now first h.sound hfirst
    have hnoactive : (plan.steps.find? fun step => step.status == .active) = none := by
      rw [List.find?_eq_none]
      simpa using hfirst.1
    rw [hnoactive, hfirst.2, h.follows.task] at hx
    dsimp only at hx
    rw [if_neg h.open_] at hx
    have hid : step.stepId = first.stepId := by
      rw [← Option.some.inj (Except.ok.inj (Prod.mk.inj hx).1)]
    refine ⟨state', plan.activated now, ⟨hf, hopen, ?_, ?_⟩, ?_, ?_⟩
    · rw [hsteps]
      exact h.sound.setStatus
    · rw [hsteps]
      exact h.plain.setStatus (by simp)
    · rw [hsteps]
      refine left_setStatus_of_ne (by decide) fun s hsm hse => ?_
      rw [List.inj_on_of_nodup_map h.sound.nodup hsm hmem hse, hpending]
      decide
    · rw [hsteps, hid]
      obtain ⟨target, ht, hte, hts⟩ := @setStatus_mem plan.steps first.stepId .active first hmem
      exact ⟨target, ht, hte, by rw [hts, if_pos rfl]⟩

/-- A step that is completed successfully is one fewer. -/
theorem Advancing.complete {gate : GateResult} {target : PlanStep}
    (h : Advancing taskId st state plan) (ht : target ∈ plan.steps)
    (hid : target.stepId = stepId) (hactive : target.status = .active)
    (hx : completePlanStep now taskId stepId st = (.ok gate, st')) (hok : gate.ok = true) :
    ∃ state' plan', Advancing taskId st' state' plan' ∧ left plan'.steps + 1 = left plan.steps := by
  have hstep : plan.step? stepId = some target := by
    cases hf : plan.step? stepId with
    | none =>
      have := List.find?_eq_none.mp hf target ht
      simp [hid] at this
    | some found =>
      obtain ⟨hm, he⟩ := step?_spec hf
      rw [List.inj_on_of_nodup_map h.sound.nodup hm ht (he.trans hid.symm)]
  have hp := h.follows.loadTaskPlan
  cases hg : st.stepGate taskId stepId target.requiredEvidence with
  | error e =>
    rw [completePlanStep_badEvidence hp hstep h.follows.task hg] at hx
    cases hx
  | ok outcome =>
    cases outcome with
    | inl refused =>
      -- what is returned is the gate that refuses
      rw [completePlanStep_verifying hp hstep h.follows.task hg] at hx
      obtain ⟨_, _, _, he⟩ := Prog.bind_ok.mp hx
      cases he
      rw [stepGate_inl hg] at hok
      cases hok
    | inr step =>
      have hdone : (st.stepDone now stepId state step).Follows taskId _ plan :=
        (h.follows.withStep (step.finished now)).atStep now stepId "running" "step_completed"
      obtain ⟨state', plan', hf, hs, hmoved⟩ := @follows_update _ now taskId stepId _ plan hdone
        .completed "plan_step_completed"
      have hst' : (updatePlanStepStatus now taskId stepId .completed "plan_step_completed"
          (st.stepDone now stepId state step)).2 = st' := by
        rw [completePlanStep_stepDone hp hstep h.follows.task hg h.open_] at hx
        have := congrArg Prod.snd hx
        rwa [snd_bind_pure] at this
      rw [hst'] at hf
      rcases hmoved with ⟨_, hno⟩ | ⟨found, hfound, _, rfl⟩
      · have := hno target hstep
        rw [hactive] at this
        cases this
      · have hsteps := @withStatus_steps plan now stepId .completed target h.sound hstep
        refine ⟨state', _, ⟨hf, ?_, ?_, ?_⟩, ?_⟩
        · rw [hs, stamped_status]
          exact h.open_
        · rw [hsteps]
          exact h.sound.setStatus
        · rw [hsteps]
          exact h.plain.setStatus (by simp)
        · rw [hsteps, ← hid]
          exact left_complete h.sound.nodup ht (by rw [hactive]; decide)

/-- One round. -/
theorem Advancing.round (h : Advancing taskId st state plan) (hr : Round taskId st st') :
    ∃ state' plan', Advancing taskId st' state' plan' ∧ left plan'.steps + 1 = left plan.steps := by
  obtain ⟨now, now', step, st₁, st₂, gate, hactivated, helse, hcompleted, hpassed⟩ := hr
  obtain ⟨state₁, plan₁, h₁, hleft, target, ht, hid, hactive⟩ := h.activate hactivated
  have htask : st₂.loadTask taskId = st₁.loadTask taskId := by
    unfold Store.loadTask Store.recoverLatestCheckpoint
    rw [helse.tasks, helse.checkpoints]
  have h₂ : Advancing taskId st₂ state₁ plan₁ :=
    ⟨h₁.follows.congr htask helse.plans, h₁.open_, h₁.sound, h₁.plain⟩
  obtain ⟨state', plan', h', hleft'⟩ := h₂.complete ht hid hactive hcompleted hpassed
  exact ⟨state', plan', h', hleft'.trans hleft⟩

/-- Some rounds. -/
theorem Advancing.rounds {k : Nat} (h : Advancing taskId st state plan)
    (hr : Rounds taskId k st st') :
    ∃ state' plan', Advancing taskId st' state' plan' ∧ left plan'.steps + k = left plan.steps := by
  induction hr with
  | none => exact ⟨state, plan, h, rfl⟩
  | next _ hlast ih =>
    obtain ⟨state₁, plan₁, h₁, hleft₁⟩ := ih h
    obtain ⟨state₂, plan₂, h₂, hleft₂⟩ := h₁.round hlast
    exact ⟨state₂, plan₂, h₂, by omega⟩

end Progress

/-- **A saved plan does not get stuck**, if its steps are pending, active or completed:
each round completes one of the steps that are left, there is a step to activate until
all are completed, and they are all completed after just as many rounds as there were
steps left (all steps, for a fresh plan: `left_of_pending`). -/
theorem rounds_progress {st₀ st st' : Store} {now : Text} {plan plan' : ExecutionPlan}
    {tools : Option (List Text)} {k : Nat}
    (hsaved : saveExecutionPlan now plan tools st₀ = (.ok plan', st)) (hplain : Plain plan.steps)
    (hrounds : Rounds plan.taskId k st st') :
    ∃ reached, st'.loadTaskPlan plan.taskId = some reached ∧
      left reached.steps + k = left plan.steps ∧
      (reached.completed ↔ k = left plan.steps) ∧
      (reached.completed ∨
        ∀ now', ∃ step st'', currentActiveStep now' plan.taskId st' = (.ok (some step), st'')) := by
  obtain ⟨hvalid, rfl, state, hf, hopen⟩ := follows_save hsaved
  have hstart : Advancing plan.taskId st state { plan with updatedAt := now } :=
    ⟨hf, hopen, sound_of_valid hvalid, hplain⟩
  obtain ⟨state', reached, h', hleft⟩ := hstart.rounds hrounds
  have hcompleted : reached.completed ↔ left reached.steps = 0 := left_eq_zero.symm
  refine ⟨reached, h'.follows.loadTaskPlan, hleft, ?_, ?_⟩
  · rw [hcompleted]
    have hle : left reached.steps + k = left plan.steps := hleft
    omega
  · by_cases hzero : left reached.steps = 0
    · exact Or.inl (hcompleted.mpr hzero)
    · exact Or.inr (h'.progress hzero)

private def blockedPlan : ExecutionPlan :=
  { twoSteps .pending with steps := [plainStep "a" .blocked] }

/-- **A plan that is accepted and stuck**: its step is saved as blocked. -/
theorem blocked_stuck :
    (saveExecutionPlan "2".toList blockedPlan none planned).1 =
        .ok { blockedPlan with updatedAt := "2".toList } ∧
      (currentActiveStep "3".toList "t".toList
        (saveExecutionPlan "2".toList blockedPlan none planned).2).1 = .ok none ∧
      ¬ blockedPlan.completed := by
  refine ⟨by decide, by decide, fun h => ?_⟩
  have := h (plainStep "a" .blocked) (List.mem_singleton_self _)
  cases this

/-- One round of a plan of two steps: one is left. -/
theorem rounds_progress_two :
    ∃ st' reached, st'.loadTaskPlan "t".toList = some reached ∧
      left reached.steps + 1 = left (twoSteps .pending).steps ∧
      (reached.completed ↔ 1 = left (twoSteps .pending).steps) ∧
      (reached.completed ∨ ∀ now', ∃ step st'',
        currentActiveStep now' "t".toList st' = (.ok (some step), st'')) := by
  have hround : Round "t".toList (saved .pending)
      (completePlanStep "4".toList "t".toList "a".toList
        (currentActiveStep "3".toList "t".toList (saved .pending)).2).2 :=
    ⟨"3".toList, "4".toList, plainStep "a" .active, _, _, _, rfl, ⟨rfl, rfl, rfl⟩, rfl, rfl⟩
  exact ⟨_, @rounds_progress planned (saved .pending) _ "2".toList (twoSteps .pending)
    { twoSteps .pending with updatedAt := "2".toList } none 1 rfl (by unfold Plain; decide)
    (.next (.none _) hround)⟩

end Shamsu.Runtime
