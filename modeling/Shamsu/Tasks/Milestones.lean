import Shamsu.Lib.Acyclic
import Shamsu.Lib.Run
import Shamsu.Py.Text

/-!
# Milestone tasks

`shamsu/tasks/state.py`: the steps of a task with what they depend on, the marks that are set on
them, the next step that can be taken and the move to the next phase.

`next_pending` waits for a dependency to be done, and `advance_phase` is content when a step is
done or skipped. `next_pending_iff` says when the two agree: when no pending step is left, or one
is left that waits for no skipped step, directly or through other pending ones, and one in the
current phase. `rounds_finish`: where each step that is found is done, all of them are in the end.
-/

namespace Shamsu.Tasks

open Shamsu.Lib Shamsu.Py

inductive TaskStepStatus where
  | pending | running | done | blocked | skipped | failed
  deriving DecidableEq, Repr

/-- `TaskStep`. -/
structure TaskStep where
  id : Int
  description : Text := []
  status : TaskStepStatus := .pending
  dependsOn : List Int := []
  result : Option Text := none
  error : Option Text := none
  phase : Text := "default".toList
  deriving DecidableEq, Repr

/-- `TestRunResult`. -/
structure TestRunResult where
  passed : Nat
  failed : Nat
  deriving DecidableEq, Repr

/-- `MilestoneTask`. -/
structure MilestoneTask where
  steps : List TaskStep
  phase : Text := "default".toList
  testResults : List TestRunResult := []
  nextAction : Text := []
  deriving DecidableEq, Repr

def TaskStep.IsPending (s : TaskStep) : Prop := s.status = .pending

instance (s : TaskStep) : Decidable s.IsPending := inferInstanceAs (Decidable (_ = _))

/-- Done or skipped, which is what `advance_phase` asks for. -/
def TaskStep.settled (s : TaskStep) : Bool := s.status == .done || s.status == .skipped

namespace MilestoneTask

variable (t : MilestoneTask)

def doneIds : List Int := (t.steps.filter fun s => s.status == .done).map TaskStep.id

def nextPending : Option TaskStep :=
  t.steps.find? fun s => s.status == .pending && s.dependsOn.all (t.doneIds.contains ·)

/-- The steps of the current phase that are neither done nor skipped. -/
def incomplete : List TaskStep := t.steps.filter fun s => s.phase == t.phase && !s.settled

/-- The first step with the id is changed; `none` is the `ValueError` of `_find_step`. -/
def changeStep (id : Int) (change : TaskStep → TaskStep) : List TaskStep → Option (List TaskStep)
  | [] => none
  | s :: steps =>
    if s.id = id then some (change s :: steps) else (changeStep id change steps).map (s :: ·)

def markStepDone (id : Int) (result : Option Text) : Option MilestoneTask :=
  (changeStep id (fun s => { s with status := .done, error := none, result }) t.steps).map
    fun steps => { t with steps, nextAction := [] }

def markStepSkipped (id : Int) (reason : Text) : Option MilestoneTask :=
  (changeStep id (fun s => { s with status := .skipped, error := some reason }) t.steps).map
    fun steps => { t with steps }

/-- What `advance_phase` says of the steps that are left. -/
def cannotAdvance (nextPhase : Text) (first : TaskStep) : Text :=
  "Cannot advance to '".toList ++ nextPhase ++ "': ".toList ++
    (toString t.incomplete.length).toList ++ " step(s) in '".toList ++ t.phase ++
    "' not yet done (first: step ".toList ++ (toString first.id).toList ++ " - ".toList ++
    first.description ++ ").".toList

def advancePhase (nextPhase : Text) (testResult : Option TestRunResult) : Bool × MilestoneTask :=
  match t.incomplete with
  | first :: _ => (false, { t with nextAction := t.cannotAdvance nextPhase first })
  | [] =>
    match testResult with
    | none => (true, { t with phase := nextPhase, nextAction := [] })
    | some result =>
      let t := { t with testResults := t.testResults ++ [result] }
      if result.failed ≠ 0 then
        (false, { t with
          nextAction := "Cannot advance to '".toList ++ nextPhase ++ "': ".toList ++
            (toString result.failed).toList ++ " test(s) failing in '".toList ++ t.phase ++
            "'.".toList })
      else (true, { t with phase := nextPhase, nextAction := [] })

end MilestoneTask

/-- The marks that finish a step. -/
inductive Mark where
  | done (id : Int) (result : Option Text)
  | skipped (id : Int) (reason : Text)
  deriving DecidableEq, Repr

/-- A mark of an unknown step is refused. -/
def MilestoneTask.mark (t : MilestoneTask) : Mark → MilestoneTask
  | .done id result => (t.markStepDone id result).getD t
  | .skipped id reason => (t.markStepSkipped id reason).getD t

/-! ## What is asked of a task -/

/-- The ids that a step of this id depends on. -/
def needs (steps : List TaskStep) (id : Int) : List Int :=
  (steps.filter fun s => s.id == id).flatMap TaskStep.dependsOn

/-- A task as it is created, with dependencies that are known and have no cycle. -/
structure MilestoneTask.WellFormed (t : MilestoneTask) : Prop where
  pending : ∀ s ∈ t.steps, s.IsPending
  known : ∀ s ∈ t.steps, ∀ d ∈ s.dependsOn, ∃ s' ∈ t.steps, s'.id = d
  acyclic : ∀ id, ¬ Relation.TransGen (Acyclic.Edge (needs t.steps)) id id

/-- A step waits for a skipped one, directly or through pending ones. Of two steps with one id, a
done one counts. -/
inductive Held (t : MilestoneTask) : TaskStep → Prop where
  | skipped {s s' : TaskStep} (hdep : s'.id ∈ s.dependsOn) (hopen : s'.id ∉ t.doneIds)
      (hmem : s' ∈ t.steps) (hskipped : s'.status = .skipped) : Held t s
  | pending {s s' : TaskStep} (hdep : s'.id ∈ s.dependsOn) (hopen : s'.id ∉ t.doneIds)
      (hmem : s' ∈ t.steps) (hpending : s'.IsPending) (hheld : Held t s') : Held t s

/-- A pending step is found if there is one, and none exactly when the phase can be left. -/
def MilestoneTask.Agrees (t : MilestoneTask) : Prop :=
  ((∃ s ∈ t.steps, s.IsPending) → t.nextPending ≠ none) ∧
    (t.nextPending = none ↔ ∀ nextPhase, (t.advancePhase nextPhase none).1 = true)

/-! ## The steps under the marks -/

/-- The same steps, pending, done or skipped. -/
def Marked (start steps : List TaskStep) : Prop :=
  List.Forall₂ (fun a b : TaskStep => b.id = a.id ∧ b.dependsOn = a.dependsOn ∧
    (b.status = .pending ∨ b.status = .done ∨ b.status = .skipped)) start steps

section Marks

variable {start steps steps' : List TaskStep} {id : Int} {change : TaskStep → TaskStep}

theorem marked_changeStep (hid : ∀ s, (change s).id = s.id)
    (hdeps : ∀ s, (change s).dependsOn = s.dependsOn)
    (hstatus : ∀ s, (change s).status = .done ∨ (change s).status = .skipped)
    (hmarked : Marked start steps) (h : MilestoneTask.changeStep id change steps = some steps') :
    Marked start steps' := by
  induction hmarked generalizing steps' with
  | nil => cases h
  | @cons a b start steps hab hrest ih =>
    unfold MilestoneTask.changeStep at h
    split at h
    · cases h
      exact .cons ⟨(hid b).trans hab.1, (hdeps b).trans hab.2.1, .inr (hstatus b)⟩ hrest
    · obtain ⟨rest, hchanged, hcons⟩ := Option.map_eq_some_iff.mp h
      cases hcons
      exact .cons hab (ih hchanged)

/-- A change of a step that marks it, whatever else of the task changes. -/
theorem marked_changed {t : MilestoneTask} {others : List TaskStep → MilestoneTask}
    (hothers : ∀ steps, (others steps).steps = steps) (hid : ∀ s, (change s).id = s.id)
    (hdeps : ∀ s, (change s).dependsOn = s.dependsOn)
    (hstatus : ∀ s, (change s).status = .done ∨ (change s).status = .skipped)
    (h : Marked start t.steps) (id : Int) :
    Marked start (((MilestoneTask.changeStep id change t.steps).map others).getD t).steps := by
  cases hchanged : MilestoneTask.changeStep id change t.steps with
  | none => exact h
  | some steps =>
    show Marked start (others steps).steps
    rw [hothers]
    exact marked_changeStep hid hdeps hstatus h hchanged

theorem marked_mark {t : MilestoneTask} (h : Marked start t.steps) (mark : Mark) :
    Marked start (t.mark mark).steps := by
  cases mark with
  | done id result =>
    show Marked start (((MilestoneTask.changeStep id _ t.steps).map _).getD t).steps
    apply marked_changed _ _ _ _ h
    · exact fun _ => rfl
    · exact fun _ => rfl
    · exact fun _ => rfl
    · exact fun _ => .inl rfl
  | skipped id reason =>
    show Marked start (((MilestoneTask.changeStep id _ t.steps).map _).getD t).steps
    apply marked_changed _ _ _ _ h
    · exact fun _ => rfl
    · exact fun _ => rfl
    · exact fun _ => rfl
    · exact fun _ => .inr rfl

theorem marked_run {t : MilestoneTask} (h : Marked start t.steps) (marks : List Mark) :
    Marked start (run MilestoneTask.mark t marks).steps := by
  induction marks generalizing t with
  | nil => exact h
  | cons mark marks ih => exact ih (marked_mark h mark)

theorem marked_self (h : ∀ s ∈ steps, s.IsPending) : Marked steps steps := by
  induction steps with
  | nil => exact .nil
  | cons s steps ih =>
    exact .cons ⟨rfl, rfl, .inl (h s List.mem_cons_self)⟩
      (ih fun s hs => h s (List.mem_cons_of_mem _ hs))

theorem Marked.status (h : Marked start steps) {s : TaskStep} (hs : s ∈ steps) :
    s.status = .pending ∨ s.status = .done ∨ s.status = .skipped := by
  induction h with
  | nil => cases hs
  | cons hab _ ih =>
    rcases List.mem_cons.mp hs with heq | hs
    · rw [heq]
      exact hab.2.2
    · exact ih hs

/-- The ids and the dependencies are as they were. -/
theorem Marked.needs (h : Marked start steps) : needs steps = needs start := by
  funext id
  induction h with
  | nil => rfl
  | @cons a b start steps hab _ ih =>
    unfold Tasks.needs at ih ⊢
    rw [List.filter_cons, List.filter_cons, hab.1]
    split
    · rw [List.flatMap_cons, List.flatMap_cons, ih, hab.2.1]
    · exact ih

/-- A step as it was created. -/
theorem Marked.created (h : Marked start steps) {s : TaskStep} (hs : s ∈ steps) :
    ∃ a ∈ start, a.id = s.id ∧ a.dependsOn = s.dependsOn := by
  induction h with
  | nil => cases hs
  | @cons a b start steps hab _ ih =>
    rcases List.mem_cons.mp hs with heq | hs
    · rw [heq]
      exact ⟨a, List.mem_cons_self, hab.1.symm, hab.2.1.symm⟩
    · obtain ⟨a', ha', hsame⟩ := ih hs
      exact ⟨a', List.mem_cons_of_mem _ ha', hsame⟩

/-- A step as it is now. -/
theorem Marked.now (h : Marked start steps) {a : TaskStep} (ha : a ∈ start) :
    ∃ s ∈ steps, s.id = a.id := by
  induction h with
  | nil => cases ha
  | @cons a' b start steps hab _ ih =>
    rcases List.mem_cons.mp ha with heq | ha
    · rw [heq]
      exact ⟨b, List.mem_cons_self, hab.1⟩
    · obtain ⟨s, hs, hsame⟩ := ih ha
      exact ⟨s, List.mem_cons_of_mem _ hs, hsame⟩

theorem Marked.known (h : Marked start steps)
    (hknown : ∀ s ∈ start, ∀ d ∈ s.dependsOn, ∃ s' ∈ start, s'.id = d) :
    ∀ s ∈ steps, ∀ d ∈ s.dependsOn, ∃ s' ∈ steps, s'.id = d := by
  intro s hs d hd
  obtain ⟨a, ha, _, hdeps⟩ := h.created hs
  rw [← hdeps] at hd
  obtain ⟨a', ha', hid⟩ := hknown a ha d hd
  obtain ⟨s', hs', hid'⟩ := h.now ha'
  exact ⟨s', hs', hid'.trans hid⟩

end Marks

/-! ## The next step -/

/-- Known dependencies without a cycle, whatever the marks. -/
structure MilestoneTask.Ordered (t : MilestoneTask) : Prop where
  status : ∀ s ∈ t.steps, s.status = .pending ∨ s.status = .done ∨ s.status = .skipped
  known : ∀ s ∈ t.steps, ∀ d ∈ s.dependsOn, ∃ s' ∈ t.steps, s'.id = d
  acyclic : ∀ id, ¬ Relation.TransGen (Acyclic.Edge (needs t.steps)) id id

theorem MilestoneTask.WellFormed.ordered_run {t : MilestoneTask} (h : t.WellFormed)
    (marks : List Mark) : (run MilestoneTask.mark t marks).Ordered := by
  have hmarked := marked_run (marked_self h.pending) marks
  refine ⟨fun s hs => hmarked.status hs, hmarked.known h.known, ?_⟩
  rw [hmarked.needs]
  exact h.acyclic

section Next

variable {t : MilestoneTask}

theorem nextPending_ne_none_iff : t.nextPending ≠ none ↔
    ∃ s ∈ t.steps, s.IsPending ∧ ∀ d ∈ s.dependsOn, d ∈ t.doneIds := by
  rw [Ne, MilestoneTask.nextPending, List.find?_eq_none]
  constructor
  · intro h
    by_contra hnone
    apply h
    intro s hs hready
    rw [Bool.and_eq_true, beq_iff_eq, List.all_eq_true] at hready
    exact hnone ⟨s, hs, hready.1, fun d hd => List.contains_iff_mem.mp (hready.2 d hd)⟩
  · intro hready h
    obtain ⟨s, hs, hpending, hdone⟩ := hready
    apply h s hs
    rw [Bool.and_eq_true, beq_iff_eq, List.all_eq_true]
    exact ⟨hpending, fun d hd => List.contains_iff_mem.mpr (hdone d hd)⟩

theorem needs_of_mem {s : TaskStep} {d : Int} (hs : s ∈ t.steps) (hd : d ∈ s.dependsOn) :
    d ∈ needs t.steps s.id :=
  List.mem_flatMap.mpr ⟨s, List.mem_filter.mpr ⟨hs, beq_self_eq_true _⟩, hd⟩

theorem needs_unknown {id : Int} (h : id ∉ t.steps.map TaskStep.id) : needs t.steps id = [] := by
  unfold needs
  rw [List.filter_eq_nil_iff.mpr]
  · rfl
  · intro s hs hid
    exact h (List.mem_map.mpr ⟨s, hs, beq_iff_eq.mp hid⟩)

/-- The ids in an order in which dependencies come first. -/
theorem MilestoneTask.Ordered.exists_order (h : t.Ordered) :
    ∃ order, Acyclic.Ordered (needs t.steps) order ∧ t.steps.map TaskStep.id ⊆ order := by
  cases hsearch : Acyclic.visitAll (needs t.steps) (t.steps.map TaskStep.id) with
  | none => exact absurd hsearch (Acyclic.visitAll_ne_none fun _ => needs_unknown)
  | some found =>
    cases found with
    | cycle nodes =>
      obtain ⟨id, hcycle⟩ := (Acyclic.visitAll_cycle hsearch).transGen
      exact absurd hcycle (h.acyclic id)
    | finished order => exact ⟨order, Acyclic.visitAll_ordered hsearch⟩

theorem mem_doneIds {s : TaskStep} (hs : s ∈ t.steps) (hdone : s.status = .done) :
    s.id ∈ t.doneIds :=
  List.mem_map.mpr ⟨s, List.mem_filter.mpr ⟨hs, beq_iff_eq.mpr hdone⟩, rfl⟩

/-- **A step can be taken** exactly when a pending one waits for no skipped step. -/
theorem ready_iff (h : t.Ordered) :
    (∃ s ∈ t.steps, s.IsPending ∧ ∀ d ∈ s.dependsOn, d ∈ t.doneIds) ↔
      ∃ s ∈ t.steps, s.IsPending ∧ ¬ Held t s := by
  constructor
  · intro hready
    obtain ⟨s, hs, hpending, hdone⟩ := hready
    refine ⟨s, hs, hpending, ?_⟩
    intro hheld
    cases hheld with
    | skipped hdep hopen => exact hopen (hdone _ hdep)
    | pending hdep hopen => exact hopen (hdone _ hdep)
  · intro hfree
    obtain ⟨order, hordered, hids⟩ := h.exists_order
    -- along the order, the first id with a pending step that is not held
    obtain ⟨id, _, hsome, hearlier⟩ := hordered.exists_ready
      (fun id => ¬ ∃ s ∈ t.steps, s.id = id ∧ s.IsPending ∧ ¬ Held t s) (by
        obtain ⟨s, hs, hpending, hnot⟩ := hfree
        exact ⟨s.id, hids (List.mem_map_of_mem hs), fun hnone => hnone ⟨s, hs, rfl, hpending, hnot⟩⟩)
    obtain ⟨s, hs, rfl, hpending, hnot⟩ := not_not.mp hsome
    refine ⟨s, hs, hpending, ?_⟩
    intro d hd
    by_contra hopen
    obtain ⟨s', hs', rfl⟩ := h.known s hs d hd
    rcases h.status s' hs' with hstatus | hstatus | hstatus
    · apply hearlier s'.id (needs_of_mem hs hd)
      refine ⟨s', hs', rfl, hstatus, ?_⟩
      intro hheld
      exact hnot (.pending hd hopen hs' hstatus hheld)
    · exact hopen (mem_doneIds hs' hstatus)
    · exact hnot (.skipped hd hopen hs' hstatus)

theorem advancePhase_iff (nextPhase : Text) :
    (t.advancePhase nextPhase none).1 = true ↔ t.incomplete = [] := by
  unfold MilestoneTask.advancePhase
  split
  next first rest hsome =>
    rw [hsome]
    exact iff_of_false (by simp) (by simp)
  next hnone => exact iff_of_true rfl hnone

theorem incomplete_ne_nil_iff (h : t.Ordered) :
    t.incomplete ≠ [] ↔ ∃ s ∈ t.steps, s.IsPending ∧ s.phase = t.phase := by
  have hsettled : ∀ s ∈ t.steps, s.settled = false ↔ s.IsPending := by
    intro s hs
    unfold TaskStep.settled TaskStep.IsPending
    rcases h.status s hs with hstatus | hstatus | hstatus
    · rw [hstatus]
      exact iff_of_true rfl rfl
    · rw [hstatus]
      exact iff_of_false (by decide) (by decide)
    · rw [hstatus]
      exact iff_of_false (by decide) (by decide)
  rw [Ne, MilestoneTask.incomplete, List.filter_eq_nil_iff]
  constructor
  · intro hnot
    by_contra hnone
    apply hnot
    intro s hs hopen
    rw [Bool.and_eq_true, beq_iff_eq, Bool.not_eq_true'] at hopen
    exact hnone ⟨s, hs, (hsettled s hs).mp hopen.2, hopen.1⟩
  · intro hopen hall
    obtain ⟨s, hs, hpending, hphase⟩ := hopen
    apply hall s hs
    rw [Bool.and_eq_true, beq_iff_eq, Bool.not_eq_true']
    exact ⟨hphase, (hsettled s hs).mpr hpending⟩

end Next

/-- **The two agree**, after any marks of steps as done or skipped, exactly when no step is
pending, or a pending one waits for no skipped step and a pending one is of the current phase. -/
theorem next_pending_iff (start : MilestoneTask) (h : start.WellFormed) (marks : List Mark) :
    let t := run MilestoneTask.mark start marks
    t.Agrees ↔ (∀ s ∈ t.steps, ¬ s.IsPending) ∨
      ((∃ s ∈ t.steps, s.IsPending ∧ ¬ Held t s) ∧
        ∃ s ∈ t.steps, s.IsPending ∧ s.phase = t.phase) := by
  intro t
  have hordered : t.Ordered := h.ordered_run marks
  have hadvance : (∀ nextPhase, (t.advancePhase nextPhase none).1 = true) ↔ t.incomplete = [] :=
    ⟨fun hall => (advancePhase_iff []).mp (hall []), fun hnil _ => (advancePhase_iff _).mpr hnil⟩
  unfold MilestoneTask.Agrees
  rw [hadvance]
  by_cases hpending : ∃ s ∈ t.steps, s.IsPending
  · have hsome : ¬ ∀ s ∈ t.steps, ¬ s.IsPending := by
      intro hnone
      obtain ⟨s, hs, hp⟩ := hpending
      exact hnone s hs hp
    rw [or_iff_right hsome, ← ready_iff hordered, ← nextPending_ne_none_iff,
      ← incomplete_ne_nil_iff hordered]
    constructor
    · intro hagrees
      have hfound := hagrees.1 hpending
      exact ⟨hfound, fun hnil => hfound (hagrees.2.mpr hnil)⟩
    · intro hboth
      exact ⟨fun _ => hboth.1, iff_of_false hboth.1 hboth.2⟩
  · -- nothing is pending: no step is found, and no phase is open
    have hnone : ∀ s ∈ t.steps, ¬ s.IsPending := fun s hs hp => hpending ⟨s, hs, hp⟩
    refine iff_of_true ⟨fun hsome => absurd hsome hpending, iff_of_true ?_ ?_⟩ (.inl hnone)
    · by_contra hfound
      obtain ⟨s, hs, hp, _⟩ := nextPending_ne_none_iff.mp hfound
      exact hnone s hs hp
    · by_contra hopen
      obtain ⟨s, hs, hp, _⟩ := (incomplete_ne_nil_iff hordered).mp hopen
      exact hnone s hs hp

/-- Two steps, the second after the first. -/
def twoSteps : MilestoneTask where
  steps := [{ id := 1 }, { id := 2, dependsOn := [1] }]

theorem twoSteps_wellFormed : twoSteps.WellFormed := by
  refine ⟨by decide, by decide, ?_⟩
  intro id hcycle
  have hedge : ∀ {a b : Int}, Acyclic.Edge (needs twoSteps.steps) a b → b < a := by
    intro a b hb
    obtain ⟨s, hs, hdep⟩ := List.mem_flatMap.mp hb
    obtain ⟨hmem, hid⟩ := List.mem_filter.mp hs
    rw [← beq_iff_eq.mp hid]
    have hall : ∀ s ∈ twoSteps.steps, ∀ d ∈ s.dependsOn, d < s.id := by decide
    exact hall s hmem b hdep
  have hbelow : ∀ {a b : Int}, Relation.TransGen (Acyclic.Edge (needs twoSteps.steps)) a b →
      b < a := by
    intro a b h
    induction h with
    | single hab => exact hedge hab
    | tail _ hbc ih => exact Int.lt_trans (hedge hbc) ih
  exact Int.lt_irrefl _ (hbelow hcycle)

theorem next_pending_done :
    let t := run MilestoneTask.mark twoSteps [.done 1 none]
    t.Agrees ↔ (∀ s ∈ t.steps, ¬ s.IsPending) ∨
      ((∃ s ∈ t.steps, s.IsPending ∧ ¬ Held t s) ∧
        ∃ s ∈ t.steps, s.IsPending ∧ s.phase = t.phase) :=
  next_pending_iff twoSteps twoSteps_wellFormed [.done 1 none]

/-- When the first is skipped, the second is never found. -/
theorem skipped_step_stops : ¬ ∀ start : MilestoneTask, start.WellFormed → ∀ marks,
    (run MilestoneTask.mark start marks).Agrees := by
  intro h
  exact absurd ((h twoSteps twoSteps_wellFormed [.skipped 1 []]).1 (by decide)) (by decide)

/-! ## Step after step -/

/-- The next step is taken, and done. -/
def MilestoneTask.round (t : MilestoneTask) : MilestoneTask :=
  match t.nextPending with
  | none => t
  | some s => t.mark (.done s.id none)

def MilestoneTask.rounds : Nat → MilestoneTask → MilestoneTask
  | 0, t => t
  | n + 1, t => rounds n t.round

def MilestoneTask.pendingCount (t : MilestoneTask) : Nat := t.steps.countP fun s => s.status == .pending

section Rounds

variable {t : MilestoneTask}

/-- Where nothing was skipped, a pending step can be taken. -/
theorem exists_nextPending (h : t.Ordered) (hkept : ∀ s ∈ t.steps, s.status ≠ .skipped)
    (hopen : ∃ s ∈ t.steps, s.IsPending) : ∃ s, t.nextPending = some s := by
  have hfree : ∀ s, ¬ Held t s := by
    intro s hheld
    induction hheld with
    | skipped _ _ hmem hskipped => exact hkept _ hmem hskipped
    | pending _ _ _ _ _ ih => exact ih
  obtain ⟨s, hs, hpending⟩ := hopen
  have hready := (ready_iff h).mpr ⟨s, hs, hpending, hfree s⟩
  exact Option.ne_none_iff_exists'.mp (nextPending_ne_none_iff.mpr hready)

theorem changeStep_append {id : Int} {change : TaskStep → TaskStep} {s : TaskStep}
    {before after : List TaskStep} (hid : s.id = id) (hne : ∀ x ∈ before, x.id ≠ id) :
    MilestoneTask.changeStep id change (before ++ s :: after) =
      some (before ++ change s :: after) := by
  induction before with
  | nil => exact if_pos hid
  | cons x before ih =>
    rw [List.cons_append, MilestoneTask.changeStep, if_neg (hne x List.mem_cons_self),
      ih fun y hy => hne y (List.mem_cons_of_mem _ hy)]
    rfl

/-- **What a round does**: a pending step is done afterwards, the others are as they were. -/
theorem round_spec (hnodup : (t.steps.map TaskStep.id).Nodup) {s : TaskStep}
    (hnext : t.nextPending = some s) :
    ∃ before after s', t.steps = before ++ s :: after ∧ s.IsPending ∧ s'.id = s.id ∧
      s'.status = .done ∧ t.round.steps = before ++ s' :: after := by
  obtain ⟨hready, before, after, hsteps, -⟩ := List.find?_eq_some_iff_append.mp hnext
  rw [Bool.and_eq_true, beq_iff_eq] at hready
  rw [hsteps, List.map_append, List.map_cons, List.nodup_append] at hnodup
  have hne : ∀ x ∈ before, x.id ≠ s.id := fun x hx =>
    hnodup.2.2 x.id (List.mem_map_of_mem hx) s.id List.mem_cons_self
  refine ⟨before, after, { s with status := .done, error := none, result := none }, hsteps,
    hready.1, rfl, rfl, ?_⟩
  unfold MilestoneTask.round
  rw [hnext]
  show (((MilestoneTask.changeStep s.id _ t.steps).map _).getD t).steps = _
  rw [hsteps, changeStep_append rfl hne]
  rfl

/-- The task is somewhere in its rounds. -/
structure MilestoneTask.Halfway (start t : MilestoneTask) : Prop where
  marked : ∃ marks, t = run MilestoneTask.mark start marks
  nodup : (t.steps.map TaskStep.id).Nodup
  status : ∀ s ∈ t.steps, s.IsPending ∨ s.status = .done

/-- A round takes one pending step off, as long as there is one. -/
theorem MilestoneTask.Halfway.round {start : MilestoneTask} (h : start.WellFormed)
    (ht : Halfway start t) : Halfway start t.round ∧ t.round.pendingCount ≤ t.pendingCount - 1 := by
  obtain ⟨⟨marks, hmarks⟩, hnodup, hstatus⟩ := ht
  by_cases hopen : ∃ s ∈ t.steps, s.IsPending
  · obtain ⟨s, hnext⟩ := exists_nextPending (hmarks ▸ h.ordered_run marks) (fun s hs hskipped => by
      rcases hstatus s hs with hp | hd
      · exact absurd (hp.symm.trans hskipped) (by decide)
      · exact absurd (hd.symm.trans hskipped) (by decide)) hopen
    obtain ⟨before, after, s', hsteps, hpending, hid, hdone, hround⟩ := round_spec hnodup hnext
    refine ⟨⟨⟨marks ++ [.done s.id none], ?_⟩, ?_, ?_⟩, ?_⟩
    · rw [run_append, ← hmarks, MilestoneTask.round, hnext]
      rfl
    · rw [hround, List.map_append, List.map_cons, hid, ← List.map_cons, ← List.map_append, ← hsteps]
      exact hnodup
    · rw [hround]
      intro x hx
      simp only [hsteps, List.mem_append, List.mem_cons] at hx hstatus
      rcases hx with hx | rfl | hx
      · exact hstatus x (.inl hx)
      · exact .inr hdone
      · exact hstatus x (.inr (.inr hx))
    · have hs : (s.status == .pending) = true := beq_iff_eq.mpr hpending
      unfold pendingCount
      rw [hround, hsteps, List.countP_append, List.countP_append, List.countP_cons,
        List.countP_cons, hs, hdone]
      exact Nat.le_refl _
  · -- nothing is pending, so nothing is taken any more
    have hnone : t.nextPending = none := by
      by_contra hsome
      obtain ⟨s, hs, hp, -⟩ := nextPending_ne_none_iff.mp hsome
      exact hopen ⟨s, hs, hp⟩
    have hcount : t.pendingCount = 0 :=
      List.countP_eq_zero.mpr fun s hs hp => hopen ⟨s, hs, beq_iff_eq.mp hp⟩
    have hround : t.round = t := by rw [MilestoneTask.round, hnone]
    rw [hround, hcount]
    exact ⟨⟨⟨marks, hmarks⟩, hnodup, hstatus⟩, Nat.le_refl _⟩

theorem MilestoneTask.Halfway.rounds {start : MilestoneTask} (h : start.WellFormed) (n : Nat)
    (ht : Halfway start t) :
    Halfway start (t.rounds n) ∧ (t.rounds n).pendingCount ≤ t.pendingCount - n := by
  induction n generalizing t with
  | zero => exact ⟨ht, Nat.le_refl _⟩
  | succ n ih =>
    obtain ⟨hround, hless⟩ := ht.round h
    obtain ⟨hrounds, hcount⟩ := ih hround
    exact ⟨hrounds, hcount.trans (by omega)⟩

/-- **The rounds come to an end**: of a task as it is created, no id twice, every step is done
after as many rounds as it has steps, and the phase can be left. -/
theorem rounds_finish (start : MilestoneTask) (h : start.WellFormed)
    (hnodup : (start.steps.map TaskStep.id).Nodup) :
    let t := start.rounds start.steps.length
    (∀ s ∈ t.steps, s.status = .done) ∧ ∀ nextPhase, (t.advancePhase nextPhase none).1 = true := by
  have hstart : MilestoneTask.Halfway start start :=
    ⟨⟨[], rfl⟩, hnodup, fun s hs => .inl (h.pending s hs)⟩
  obtain ⟨hend, hcount⟩ := hstart.rounds h start.steps.length
  have hall : start.pendingCount ≤ start.steps.length := List.countP_le_length
  have hnone : (start.rounds start.steps.length).pendingCount = 0 := by omega
  have hdone : ∀ s ∈ (start.rounds start.steps.length).steps, s.status = .done := by
    intro s hs
    exact (hend.status s hs).resolve_left fun hp =>
      List.countP_eq_zero.mp hnone s hs (beq_iff_eq.mpr hp)
  refine ⟨hdone, fun nextPhase => (advancePhase_iff nextPhase).mpr ?_⟩
  refine List.filter_eq_nil_iff.mpr fun s hs => ?_
  rw [TaskStep.settled, hdone s hs, Bool.and_eq_true]
  exact fun hopen => absurd hopen.2 (by decide)

end Rounds

theorem rounds_finish_two :
    let t := twoSteps.rounds 2
    (∀ s ∈ t.steps, s.status = .done) ∧ ∀ nextPhase, (t.advancePhase nextPhase none).1 = true :=
  rounds_finish twoSteps twoSteps_wellFormed (by decide)

end Shamsu.Tasks
