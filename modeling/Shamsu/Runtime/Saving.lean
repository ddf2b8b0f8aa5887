import Shamsu.Lib.Run
import Shamsu.Runtime.TaskStore

/-!
# Clients that save one task

`save_task` reads the row of the task in one transaction, checks the transition
against what it read, and writes in another. Here each of any number of clients takes
these three steps, in any order with the steps of the others.

`terminal_stays`: a terminal status stays the status of the task as long as no client
writes over a terminal status that it did not read. `outdated_write_reopens` is a run
of two clients in which one does, and the task runs again.
-/

namespace Shamsu.Runtime

open Shamsu.Lib

/-- A call of `save_task`. -/
structure SaveCall where
  now : Py.Text
  state : TaskState
  checkpointKind : String := ""
  expectedPrevious : Option RunStatus := none
  allowCompletion : Bool := false

/-- Where a client is in its call: it loaded the row, or also checked the transition and
is about to write `state`. -/
inductive Saving where
  | idle
  | loaded (call : SaveCall) (existing : Option TaskState)
  | checked (call : SaveCall) (existing : Option TaskState) (state : TaskState)

/-- The store and its clients. -/
structure Savers (ι : Type) where
  store : Store
  clients : ι → Saving

inductive SaveStep (ι : Type) where
  | load (client : ι) (call : SaveCall)
  | check (client : ι)
  | write (client : ι)

namespace Savers

variable {ι : Type} [DecidableEq ι]

/-- All clients are between calls. -/
def start (store : Store) : Savers ι := ⟨store, fun _ => .idle⟩

/-- One client is at another point. -/
def move (s : Savers ι) (client : ι) (saving : Saving) : Savers ι :=
  { s with clients := fun c => if c = client then saving else s.clients c }

/-- One step of one client; a client that is not there yet does nothing. -/
def step (s : Savers ι) : SaveStep ι → Savers ι
  | .load client call =>
    match s.clients client with
    | .idle => s.move client (.loaded call (s.store.tasks.lookup call.state.taskId))
    | _ => s
  | .check client =>
    match s.clients client with
    | .loaded call existing =>
      match checkSave existing call.state call.expectedPrevious call.allowCompletion with
      | .ok state =>
        s.move client (.checked call existing (state.stamped call.now call.checkpointKind))
      | .error _ => s.move client .idle
    | _ => s
  | .write client =>
    match s.clients client with
    | .checked call _ state =>
      { s.move client .idle with store := s.store.writeTask state call.checkpointKind }
    | _ => s

/-- The stored status of a task. -/
def status (s : Savers ι) (taskId : Py.Text) : Option RunStatus :=
  (s.store.tasks.lookup taskId).map TaskState.status

/-- A client that is about to write over a terminal status is one that loaded it. -/
def UpToDate (s : Savers ι) : SaveStep ι → Prop
  | .write client => ∀ call existing state, s.clients client = .checked call existing state →
      ∀ status, s.status state.taskId = some status → status.terminal = true →
        existing.map TaskState.status = some status
  | .load .. | .check _ => True

/-- What a client is about to write went through the check against what it loaded. -/
def Checked (s : Savers ι) : Prop :=
  ∀ client call existing state, s.clients client = .checked call existing state →
    ∀ old, existing = some old → old.status.mayBecome state.status = true

end Savers

theorem stamped_taskId (state : TaskState) (now : Py.Text) (kind : String) :
    (state.stamped now kind).taskId = state.taskId := by
  unfold TaskState.stamped
  split <;> rfl

theorem stamped_status (state : TaskState) (now : Py.Text) (kind : String) :
    (state.stamped now kind).status = state.status := by
  unfold TaskState.stamped
  split <;> rfl

theorem keepCreated_kept (state existing : TaskState) :
    (state.keepCreated existing).taskId = state.taskId ∧
      (state.keepCreated existing).status = state.status := by
  unfold TaskState.keepCreated
  split <;> exact ⟨rfl, rfl⟩

theorem validateTransition_ok {previous next : RunStatus}
    (h : validateTransition previous next = .ok ()) : previous.mayBecome next = true := by
  unfold validateTransition at h
  split at h
  · assumption
  · cases h

/-- What `save_task` lets through. -/
theorem checkSave_ok {existing : Option TaskState} {state state' : TaskState}
    {expected : Option RunStatus} {allow : Bool}
    (h : checkSave existing state expected allow = .ok state') :
    state'.taskId = state.taskId ∧ state'.status = state.status ∧
      (state.status = .completed → allow = true) ∧
      ∀ old, existing = some old → old.status.mayBecome state.status = true := by
  unfold checkSave at h
  split at h
  · cases h
  next hallow =>
    have hcompleted : state.status = .completed → allow = true := by
      intro hs
      simpa [hs] using hallow
    split at h
    · cases h
      exact ⟨rfl, rfl, hcompleted, fun old ho => by cases ho⟩
    next old =>
      split at h
      · cases h
      · split at h
        · cases h
        next ht =>
          cases h
          obtain ⟨hid, hstatus⟩ := keepCreated_kept state old
          refine ⟨hid, hstatus, hcompleted, ?_⟩
          intro _ hsome
          obtain ⟨⟩ := hsome
          exact validateTransition_ok ht

namespace Savers

variable {ι : Type} [DecidableEq ι] {s : Savers ι} {a : SaveStep ι}

theorem move_clients {client c : ι} {saving : Saving} :
    (s.move client saving).clients c = if c = client then saving else s.clients c := rfl

theorem checked_step (h : s.Checked) (a : SaveStep ι) : (s.step a).Checked := by
  intro c call existing state hc old hold
  -- a client that is checked now was so before, or checked just now
  have keep : ∀ client saving, (∀ call existing state, saving ≠ .checked call existing state) →
      (s.move client saving).clients c = .checked call existing state →
      s.clients c = .checked call existing state := by
    intro client saving hno hm
    rw [move_clients] at hm
    split at hm
    · exact absurd hm (hno _ _ _)
    · exact hm
  cases a with
  | load client req =>
    dsimp only [step] at hc
    split at hc
    · exact h c call existing state (keep client _ (by simp) hc) old hold
    · exact h c call existing state hc old hold
  | check client =>
    dsimp only [step] at hc
    split at hc
    next req ex hloaded =>
      split at hc
      next checked hok =>
        rw [move_clients] at hc
        split at hc
        · cases hc
          obtain ⟨_, hstatus, _, hmay⟩ := checkSave_ok hok
          rw [stamped_status, hstatus]
          exact hmay old hold
        · exact h c call existing state hc old hold
      next => exact h c call existing state (keep client _ (by simp) hc) old hold
    next => exact h c call existing state hc old hold
  | write client =>
    dsimp only [step] at hc
    split at hc
    · exact h c call existing state (keep client _ (by simp) hc) old hold
    · exact h c call existing state hc old hold

/-- What one step does to the stored status. -/
theorem status_step (a : SaveStep ι) (taskId : Py.Text) :
    (s.step a).status taskId = s.status taskId ∨
      ∃ client call existing state, a = .write client ∧
        s.clients client = .checked call existing state ∧ state.taskId = taskId ∧
        (s.step a).status taskId = some state.status := by
  cases a with
  | load client req =>
    left
    dsimp only [step]
    split <;> rfl
  | check client =>
    left
    dsimp only [step]
    split
    · split <;> rfl
    · rfl
  | write client =>
    dsimp only [step]
    split
    next call existing state hc =>
      by_cases hid : state.taskId = taskId
      · refine Or.inr ⟨client, call, existing, state, rfl, hc, hid, ?_⟩
        show (((s.store.writeTask state _).tasks.lookup taskId).map TaskState.status) = _
        rw [← hid]
        show ((s.store.tasks.upsert state).lookup state.taskId).map _ = _
        rw [Table.lookup_upsert_self]
        rfl
      · left
        show ((s.store.tasks.upsert state).lookup taskId).map _ = _
        rw [Table.lookup_upsert_ne hid]
        rfl
    next => exact Or.inl rfl

/-- An up-to-date step keeps a terminal status. -/
theorem terminal_step {taskId : Py.Text} {status : RunStatus} (hterminal : status.terminal = true)
    (h : s.Checked ∧ s.status taskId = some status) (hup : s.UpToDate a) :
    (s.step a).Checked ∧ (s.step a).status taskId = some status := by
  refine ⟨checked_step h.1 a, ?_⟩
  rcases @status_step _ _ s a taskId with
    hsame | ⟨client, call, existing, state, rfl, hc, hid, hnew⟩
  · rw [hsame]
    exact h.2
  · have hread := hup call existing state hc status (by rw [hid]; exact h.2) hterminal
    obtain ⟨old, hold, hstatus⟩ := Option.map_eq_some_iff.mp hread
    have hmay := h.1 client call existing state hc old hold
    rw [hstatus] at hmay
    rw [hnew, RunStatus.eq_of_terminal hterminal hmay]

end Savers

variable {ι : Type} [DecidableEq ι]

theorem checked_run (store : Store) (before : List (SaveStep ι)) :
    (run Savers.step (Savers.start store) before).Checked := by
  have hstart : (Savers.start store : Savers ι).Checked := by
    intro client call existing state hc
    cases hc
  exact run_invariant (I := Savers.Checked) (P := fun _ _ => True)
    (fun s a hs _ => Savers.checked_step hs a) hstart
    (along_of_forall (fun _ _ => trivial) _ _)

/-- **A terminal status stays**, whatever the clients do after it, as long as no client
writes over a terminal status that it did not load. -/
theorem terminal_stays (store : Store) (before after : List (SaveStep ι)) (taskId : Py.Text)
    (status : RunStatus)
    (hup : Along Savers.step Savers.UpToDate (Savers.start store) (before ++ after))
    (hstatus : (run Savers.step (Savers.start store) before).status taskId = some status)
    (hterminal : status.terminal = true) :
    (run Savers.step (Savers.start store) (before ++ after)).status taskId = some status := by
  rw [run_append]
  have hafter := (along_append.mp hup).2
  exact (run_invariant (I := fun s : Savers ι => s.Checked ∧ s.status taskId = some status)
    (fun _ _ hs ha => Savers.terminal_step hterminal hs ha)
    ⟨checked_run store before, hstatus⟩ hafter).2

/-! A task is cancelled by one client while another, which read it as running, asks for
an approval. -/

section Reopened

private def savedRow (status : RunStatus) : TaskState :=
  { taskId := "t".toList, runId := "r".toList, status := status, createdAt := "0".toList,
    updatedAt := "0".toList }

private def runningTask : Store := Store.empty.writeTask (savedRow .running) ""

private def saveAs (status : RunStatus) : SaveCall :=
  { now := "1".toList, state := savedRow status }

/-- The approval is loaded and checked before the task is cancelled. -/
private def cancelledMeanwhile : List (SaveStep Bool) :=
  [.load false (saveAs .waitingForApproval), .check false, .load true (saveAs .cancelled),
    .check true, .write true]

/-- **A cancelled task waits for an approval again.** -/
theorem outdated_write_reopens :
    (run Savers.step (Savers.start runningTask) cancelledMeanwhile).status "t".toList =
        some .cancelled ∧
      RunStatus.cancelled.terminal = true ∧
      (run Savers.step (Savers.start runningTask) (cancelledMeanwhile ++ [.write false])).status
        "t".toList = some .waitingForApproval := by
  decide

/-- Without the late write the task stays cancelled, here while the other client tries again. -/
theorem terminal_stays_retry :
    (run Savers.step (Savers.start runningTask)
      ([.load true (saveAs .cancelled), .check true, .write true] ++
        [.load false (saveAs .waitingForApproval), .check false, .write false])).status "t".toList =
      some .cancelled := by
  refine terminal_stays runningTask _ _ "t".toList .cancelled ?_ (by decide) (by decide)
  refine ⟨trivial, trivial, ?_, trivial, trivial, ?_, trivial⟩
  · intro call existing state hc status hs ht
    cases hc
    have : RunStatus.running = status := Option.some.inj hs
    subst this
    exact absurd ht (by decide)
  · intro call existing state hc
    cases hc

end Reopened

end Shamsu.Runtime
