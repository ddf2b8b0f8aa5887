import Shamsu.Lib.Run
import Shamsu.Runtime.TaskState

/-!
# The registry of controlled runs

`shamsu/runtime/run_control.py`: the runs that are active, those that are known, and what
is done to them. A run is an object: registering an id a second time makes a second one.
The bound run of a context is an argument here, since every context has its own; times and
the two loggers are left out, but for a logger that raises before a run is cleaned up.

`complete_run` looks a run up among those that are known and marks it whatever it is:
`terminal_iff` says for which runs of the registry a terminal status stays.
-/

namespace Shamsu.Runtime.RunControl

open Shamsu.Py Shamsu.Lib

/-- `_TERMINAL_STATUSES`. -/
def terminalStatuses : List RunStatus :=
  [.cancelled, .timedOut, .failed, .completed]

inductive RunEvent where
  | runCreated (status : RunStatus)
  | statusChanged (previous status : RunStatus) (message : Text)
  | runCleanedUp (status : RunStatus)
  | modelCallCancelRequested
  | pauseRequested
  | resumeRequested
  | feedbackAdded (textPreview : Text)
  | modelCallInterruptedForFeedback
  deriving DecidableEq, Repr

structure ControlledRun where
  runId : Text
  status : RunStatus := .created
  feedbackQueue : List Text := []
  cancelEvent : Bool := false
  feedbackEvent : Bool := false
  pauseEvent : Bool := true
  /-- A model call is under way. -/
  currentModelTask : Bool := false
  lastMessage : Text := []
  events : List RunEvent := []
  active : Bool := true
  deriving DecidableEq, Repr

namespace ControlledRun

variable (r : ControlledRun)

def recordEvent (event : RunEvent) : ControlledRun :=
  { r with events := r.events ++ [event] }

def mark (status : RunStatus) (message : Text) : ControlledRun :=
  { r with
    status := status
    lastMessage := if message = [] then r.lastMessage else message
    events := r.events ++ [.statusChanged r.status status message] }

/-- `_cleanup_run`, on the run. -/
def cleanedUp : ControlledRun :=
  { r with active := false, currentModelTask := false }.recordEvent (.runCleanedUp r.status)

/-- A model call that is under way is cancelled. -/
def cancelTask (event : RunEvent) : ControlledRun :=
  if r.currentModelTask then r.recordEvent event else r

@[simp] theorem cancelTask_status (event : RunEvent) : (r.cancelTask event).status = r.status := by
  unfold cancelTask
  split <;> rfl

end ControlledRun

/-- The objects made so far, `_RUNS` and `_RUN_HISTORY`. -/
structure Registry where
  objects : List ControlledRun := []
  runs : Text → Option Nat := fun _ => none
  history : Text → Option Nat := fun _ => none

namespace Registry

variable (s : Registry)

def empty : Registry := {}

/-- A method of the object. -/
def on (i : Nat) (f : ControlledRun → ControlledRun) : Registry :=
  { s with objects := s.objects.modify i f }

/-- A method of the object, where there is one. -/
def onFound (found : Option Nat) (f : ControlledRun → ControlledRun) : Registry :=
  match found with
  | none => s
  | some i => s.on i f

def registerRun (runId : Text) : Registry :=
  { objects := s.objects ++
      [(({ runId := runId } : ControlledRun).recordEvent (.runCreated .created)).mark .running
        "Run started.".toList]
    runs := Function.update s.runs runId (some s.objects.length)
    history := Function.update s.history runId (some s.objects.length) }

def getRun (runId : Text) : Option Nat :=
  s.runs runId

def getKnownRun (runId : Text) : Option Nat :=
  (s.runs runId).or (s.history runId)

def cancelRun (runId : Text) : Registry :=
  s.onFound (s.getRun runId) fun r =>
    { r.mark .cancelling "Cancellation requested.".toList with cancelEvent := true }.cancelTask
      .modelCallCancelRequested

def pauseRun (runId : Text) : Registry :=
  s.onFound (s.getRun runId) fun r => { r with pauseEvent := false }.recordEvent .pauseRequested

def resumeRun (runId : Text) : Registry :=
  s.onFound (s.getRun runId) fun r => { r with pauseEvent := true }.recordEvent .resumeRequested

def addFeedback (runId text : Text) : Registry :=
  s.onFound (s.getRun runId) fun r =>
    if r.status ∈ [.created, .queued, .running, .waitingForApproval, .cancelling] then
      ({ r with feedbackQueue := r.feedbackQueue ++ [text], feedbackEvent := true }.recordEvent
        (.feedbackAdded (text.take 500))).cancelTask .modelCallInterruptedForFeedback
    else r

/-- `mark_waiting_for_approval`, in a context where `current` is bound. -/
def markWaitingForApproval (current : Option Nat) (message : Text) : Registry :=
  s.onFound current fun r =>
    if r.status ∈ terminalStatuses then r else r.mark .waitingForApproval message

def restoreAfterApproval (current : Option Nat) (previous : Option RunStatus) : Registry :=
  s.onFound current fun r =>
    if previous = none ∨ r.status ∈ terminalStatuses then r
    else if r.cancelEvent then r.mark .cancelling "Cancellation requested.".toList
    else r.mark .running "Approval resolved.".toList

/-- `complete_run`; `logged` says that no logger raises. -/
def completeRun (runId : Text) (status : RunStatus) (message : Text) (logged : Bool) : Registry :=
  match s.getKnownRun runId with
  | none => s
  | some i =>
    let marked := s.on i fun r => r.mark status message
    if logged && decide (status ∈ terminalStatuses) then
      { marked.on i ControlledRun.cleanedUp with
        runs := match s.objects[i]? with
          | none => s.runs
          | some r => Function.update s.runs r.runId none }
    else marked

end Registry

/-- The agent starts or ends a call of the model. -/
def Registry.modelCall (s : Registry) (i : Nat) (busy : Bool) : Registry :=
  s.on i fun r => { r with currentModelTask := busy }

inductive Call where
  | register (runId : Text)
  | cancel (runId : Text)
  | pause (runId : Text)
  | resume (runId : Text)
  | feedback (runId text : Text)
  | markWaiting (current : Option Nat) (message : Text)
  | restore (current : Option Nat) (previous : Option RunStatus)
  | modelCall (run : Nat) (busy : Bool)
  | complete (runId : Text) (status : RunStatus) (message : Text) (logged : Bool)

def step (s : Registry) : Call → Registry
  | .register runId => s.registerRun runId
  | .cancel runId => s.cancelRun runId
  | .pause runId => s.pauseRun runId
  | .resume runId => s.resumeRun runId
  | .feedback runId text => s.addFeedback runId text
  | .markWaiting current message => s.markWaitingForApproval current message
  | .restore current previous => s.restoreAfterApproval current previous
  | .modelCall run busy => s.modelCall run busy
  | .complete runId status message logged => s.completeRun runId status message logged

/-! ## What a call does to the statuses -/

/-- The runs that are terminal in the first state are in the second, with that status. -/
def Absorbed (s s' : Registry) : Prop :=
  ∀ (i : Nat) (r : ControlledRun), s.objects[i]? = some r → r.status ∈ terminalStatuses →
    ∃ r', s'.objects[i]? = some r' ∧ r'.status = r.status

theorem Absorbed.refl (s : Registry) : Absorbed s s :=
  fun _ r hr _ => ⟨r, hr, rfl⟩

theorem Absorbed.trans {a b c : Registry} (hab : Absorbed a b) (hbc : Absorbed b c) :
    Absorbed a c := by
  intro i r hr hterminal
  obtain ⟨r', hr', hsame⟩ := hab i r hr hterminal
  obtain ⟨r'', hr'', hsame'⟩ := hbc i r' hr' (hsame ▸ hterminal)
  exact ⟨r'', hr'', hsame'.trans hsame⟩

variable {s : Registry}

/-- What is done to one object keeps the terminal runs exactly when it keeps that one. -/
theorem absorbed_on_iff {s' : Registry} {i : Nat} {f : ControlledRun → ControlledRun}
    (hs' : s'.objects = s.objects.modify i f) :
    Absorbed s s' ↔ ∀ r, s.objects[i]? = some r → r.status ∈ terminalStatuses →
      (f r).status = r.status := by
  unfold Absorbed
  rw [hs']
  constructor
  · intro h r hr hterminal
    obtain ⟨r', hr', hsame⟩ := h i r hr hterminal
    rw [List.getElem?_modify_eq, hr, Option.map_eq_map, Option.map_some, Option.some.injEq] at hr'
    rw [hr', hsame]
  · intro h j r hr hterminal
    by_cases hij : i = j
    · subst hij
      exact ⟨f r, by rw [List.getElem?_modify_eq, hr]; rfl, h r hr hterminal⟩
    · exact ⟨r, by rw [List.getElem?_modify_ne f s.objects hij, hr], rfl⟩

/-- A method that leaves terminal runs alone. -/
theorem absorbed_onFound {found : Option Nat} {f : ControlledRun → ControlledRun}
    (hf : ∀ r, r.status ∈ terminalStatuses → (f r).status = r.status) :
    Absorbed s (s.onFound found f) := by
  cases found with
  | none => exact Absorbed.refl s
  | some i => exact (absorbed_on_iff rfl).mpr fun r _ => hf r

/-- A new object. -/
theorem absorbed_register (runId : Text) : Absorbed s (s.registerRun runId) := by
  intro i r hr _
  refine ⟨r, ?_, rfl⟩
  show (s.objects ++ _)[i]? = some r
  rw [List.getElem?_append_left (List.getElem?_eq_some_iff.mp hr).1, hr]

/-- The call changes no terminal status: what `cancel_run` finds is not terminal, and what
`complete_run` finds is not, or gets the status it has. -/
def Keeps (s : Registry) : Call → Prop
  | .cancel runId => ∀ (i : Nat) (r : ControlledRun),
      s.getRun runId = some i → s.objects[i]? = some r → r.status ∉ terminalStatuses
  | .complete runId status _ _ => ∀ (i : Nat) (r : ControlledRun),
      s.getKnownRun runId = some i → s.objects[i]? = some r → r.status ∈ terminalStatuses →
        r.status = status
  | _ => True

theorem completeRun_objects {runId : Text} {i : Nat} (hi : s.getKnownRun runId = some i)
    (status : RunStatus) (message : Text) (logged : Bool) :
    ∃ f : ControlledRun → ControlledRun,
      (s.completeRun runId status message logged).objects = s.objects.modify i f ∧
      ∀ r, (f r).status = status ∧ (f r).runId = r.runId := by
  unfold Registry.completeRun
  rw [hi]
  dsimp only
  split
  · refine ⟨fun r => (r.mark status message).cleanedUp, ?_, fun r => ⟨rfl, rfl⟩⟩
    exact List.modify_modify_eq _ _ _ _
  · exact ⟨fun r => r.mark status message, rfl, fun r => ⟨rfl, rfl⟩⟩

theorem keeps_cancel_iff {runId : Text} :
    Keeps s (.cancel runId) ↔ Absorbed s (s.cancelRun runId) := by
  show (∀ (i : Nat) (r : ControlledRun), s.getRun runId = some i → s.objects[i]? = some r →
    r.status ∉ terminalStatuses) ↔ _
  unfold Registry.cancelRun
  cases hi : s.getRun runId with
  | none => exact iff_of_true nofun (Absorbed.refl s)
  | some i =>
    unfold Registry.onFound
    rw [absorbed_on_iff rfl]
    constructor
    · intro h r hr hterminal
      exact absurd hterminal (h i r rfl hr)
    · intro h j r hj hr hterminal
      cases hj
      -- it is marked as cancelling, which no terminal run is
      have hsame := h r hr hterminal
      rw [ControlledRun.cancelTask_status] at hsame
      rw [← hsame] at hterminal
      exact absurd (show RunStatus.cancelling ∈ terminalStatuses from hterminal) (by decide)

theorem keeps_complete_iff {runId : Text} {status : RunStatus} {message : Text} {logged : Bool} :
    Keeps s (.complete runId status message logged) ↔
      Absorbed s (s.completeRun runId status message logged) := by
  cases hi : s.getKnownRun runId with
  | none =>
    refine iff_of_true (fun i r h => absurd (hi.symm.trans h) nofun) ?_
    unfold Registry.completeRun
    rw [hi]
    exact Absorbed.refl s
  | some i =>
    obtain ⟨f, hobjects, hf⟩ := completeRun_objects hi status message logged
    rw [absorbed_on_iff hobjects]
    constructor
    · intro h r hr hterminal
      exact (hf r).1.trans (h i r hi hr hterminal).symm
    · intro h j r hj hr hterminal
      cases hi.symm.trans hj
      exact (h r hr hterminal).symm.trans (hf r).1

/-- The condition is exactly what a call needs. -/
theorem keeps_iff (call : Call) : Keeps s call ↔ Absorbed s (step s call) := by
  cases call with
  | register runId => exact iff_of_true trivial (absorbed_register runId)
  | cancel runId => exact keeps_cancel_iff
  | pause runId => exact iff_of_true trivial (absorbed_onFound fun _ _ => rfl)
  | resume runId => exact iff_of_true trivial (absorbed_onFound fun _ _ => rfl)
  | feedback runId text =>
    refine iff_of_true trivial (absorbed_onFound fun r _ => ?_)
    split
    · exact ControlledRun.cancelTask_status _ _
    · rfl
  | markWaiting current message =>
    exact iff_of_true trivial (absorbed_onFound fun r hterminal => by rw [if_pos hterminal])
  | restore current previous =>
    exact iff_of_true trivial (absorbed_onFound fun r hterminal => by rw [if_pos (.inr hterminal)])
  | modelCall run busy =>
    exact iff_of_true trivial (@absorbed_onFound s (some run) _ fun _ _ => rfl)
  | complete runId status message logged => exact keeps_complete_iff

/-- **A terminal status stays** throughout a run of the registry exactly where no call is
one of the two that write over it. -/
theorem terminal_iff (s : Registry) (calls : List Call) :
    Along step Keeps s calls ↔
      ∀ earlier later, earlier <+: later → later <+: calls →
        ∀ (i : Nat) (r : ControlledRun), (run step s earlier).objects[i]? = some r →
          r.status ∈ terminalStatuses →
          ∃ r', (run step s later).objects[i]? = some r' ∧ r'.status = r.status :=
  along_iff_kept Absorbed.refl (fun _ _ _ => Absorbed.trans) (fun _ call => keeps_iff call)

/-- A run that was cancelled is completed. -/
theorem completed_after_cancelled :
    ¬ ∀ calls earlier later, earlier <+: later → later <+: calls →
      ∀ (i : Nat) (r : ControlledRun), (run step Registry.empty earlier).objects[i]? = some r →
        r.status ∈ terminalStatuses →
        ∃ r', (run step Registry.empty later).objects[i]? = some r' ∧ r'.status = r.status := by
  intro h
  obtain ⟨r', hr', hsame⟩ := h
    [.register ['r'], .complete ['r'] .cancelled [] true, .complete ['r'] .completed [] true]
    [.register ['r'], .complete ['r'] .cancelled [] true]
    [.register ['r'], .complete ['r'] .cancelled [] true, .complete ['r'] .completed [] true]
    ⟨[_], rfl⟩ (List.prefix_refl _) 0 _ rfl (by decide)
  cases Option.some.inj hr'
  exact absurd hsame (by decide)

end Shamsu.Runtime.RunControl
