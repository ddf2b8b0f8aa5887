import Shamsu.Control.Queue
import Shamsu.Ledger.Manifest

/-!
# Draining a thread

`shamsu/control/runner.py`: `QueuedRunner._drain` and `_run_one`, given how the chat
loop ends on each prompt. Three places decide on a prompt that was run: the row, the
failure event, and the status of its run ledger. They agree (`Turn.Agrees`) unless
the loop returns a result that was stopped or cut off, since the ledger has no such
outcome and raises (`drain_agrees_iff`).
-/

namespace Shamsu.Control

open Shamsu.Lib Shamsu.Py Shamsu.Ledger

/-- What `_drain` is told of a `SimpleChatResult`. -/
structure LoopResult where
  final : Text
  error : Text
  stopped : Bool
  truncated : Bool
  deriving DecidableEq, Repr

/-- How the chat loop ends: a result or an exception, which may be none of
`Exception` (an interrupt, a cancelled task). -/
inductive LoopEnd where
  | returned (result : LoopResult)
  | raised (isException : Bool)
  deriving DecidableEq, Repr

/-- The status that `_run_one` asks for. -/
def LoopResult.status (r : LoopResult) : RunStatus :=
  if !r.error.isEmpty then .failed
  else if r.stopped then .stopped
  else if r.truncated then .incomplete
  else .success

/-- `_run_one` from the call of the loop on: the text, or whether what it raises is an
`Exception`; and the manifest. -/
def runOne (enabled : Bool) (ended : LoopEnd) : Except Bool Text × Manifest :=
  let manifest := Manifest.start enabled
  match ended with
  | .raised isException =>
    match manifest.fail enabled with
    | some manifest => (.error isException, manifest)
    | none => (.error true, manifest)
  | .returned result =>
    match manifest.finish enabled result.status with
    | some manifest => (.ok result.final, manifest)
    | none => (.error true, manifest)

/-- A prompt that was run: how the loop ended on it, its manifest, and whether
`_announce_failure` was called. -/
structure Turn where
  queueId : Nat
  ended : LoopEnd
  manifest : Manifest
  announced : Bool
  deriving DecidableEq, Repr

/-- `_drain`: the table after it, and the turns. The loop ends on the prompts as
listed; when the list is used up, a stop was asked for. -/
def drain (enabled : Bool) (thread : Thread) (pid : Nat) : List LoopEnd → Queue → Queue × List Turn
  | [], q => (q, [])
  | ended :: rest, q =>
    match q.claimNext thread pid with
    | (none, q) => (q, [])
    | (some item, q) =>
      match runOne enabled ended with
      | (.ok _, manifest) =>
        let (q, turns) := drain enabled thread pid rest (q.finish item.queueId .done)
        (q, ⟨item.queueId, ended, manifest, false⟩ :: turns)
      | (.error true, manifest) =>
        let (q, turns) := drain enabled thread pid rest (q.finish item.queueId .cancelled)
        (q, ⟨item.queueId, ended, manifest, true⟩ :: turns)
      | (.error false, manifest) => (q, [⟨item.queueId, ended, manifest, false⟩])

/-! ## What is claimed -/

namespace Queue

variable {q : Queue} {thread : Thread} {id : Nat}

/-- The ids that are queued in the thread. -/
def waiting (q : Queue) (thread : Thread) : List Nat :=
  (q.rows.filter fun r => r.thread == thread && r.status == .queued).map QueuedPrompt.queueId

theorem nodup_waiting (q : Queue) (thread : Thread) : (q.waiting thread).Nodup := by
  unfold waiting List.Nodup
  rw [List.pairwise_map]
  exact (q.sorted.sublist List.filter_sublist).imp fun h => Nat.ne_of_lt h

/-- An update that closes or claims a prompt takes its id off the list. -/
theorem waiting_update (q : Queue) (thread : Thread) (sel : QueuedPrompt → Bool) (id : Nat)
    {status : Status} (claimedBy : Option Nat) (hstatus : status ≠ .queued)
    (hsel : ∀ r ∈ q.rows, r.status = .queued → (sel r = true ↔ r.queueId = id)) :
    (q.update sel status claimedBy).waiting thread = (q.waiting thread).filter (· != id) := by
  unfold waiting update
  dsimp only
  generalize q.rows = rows at hsel ⊢
  induction rows with
  | nil => rfl
  | cons r rows ih =>
    have ih := ih fun r' hr' => hsel r' (List.mem_cons_of_mem _ hr')
    have hr := hsel r List.mem_cons_self
    rw [List.map_cons, List.filter_cons, List.filter_cons]
    by_cases hqueued : (r.thread == thread && r.status == .queued) = true
    · have hq : r.status = .queued := by simp only [Bool.and_eq_true, beq_iff_eq] at hqueued; exact hqueued.2
      rw [if_pos hqueued, List.map_cons, List.filter_cons]
      by_cases hid : r.queueId = id
      · have : (r.queueId != id) = false := by simp [hid]
        rw [if_pos ((hr hq).mpr hid), this]
        simp only [beq_eq_false_iff_ne.mpr hstatus, Bool.and_false, Bool.false_eq_true, if_false]
        exact ih
      · have : (r.queueId != id) = true := by simp [hid]
        rw [if_neg (fun h => hid ((hr hq).mp h)), if_pos hqueued, this, if_pos rfl, List.map_cons, ih]
    · rw [if_neg hqueued]
      split
      next =>
        simp only [beq_eq_false_iff_ne.mpr hstatus, Bool.and_false, Bool.false_eq_true, if_false]
        exact ih
      next => exact ih

/-- A claim takes the first of the list. -/
theorem claimNext_waiting (q : Queue) (thread : Thread) (pid : Nat) :
    (q.waiting thread = [] ∧ q.claimNext thread pid = (none, q)) ∨
    ∃ r rest, q.waiting thread = r.queueId :: rest ∧ q.row r.queueId = some r ∧
      r.status = .queued ∧ q.claimNext thread pid = (some { r with status := .running },
        q.update (fun r' => r'.queueId == r.queueId && r'.status == .queued) .running
          (some pid)) := by
  unfold claimNext
  cases hfind : q.rows.find? fun row => row.thread == thread && row.status == .queued with
  | none =>
    refine Or.inl ⟨?_, rfl⟩
    unfold waiting
    rw [List.map_eq_nil_iff, List.filter_eq_nil_iff]
    exact fun r hr => List.find?_eq_none.mp hfind r hr
  | some r =>
    obtain ⟨hsel, before, after, hrows, hbefore⟩ := List.find?_eq_some_iff_append.mp hfind
    have hnone : before.filter (fun row => row.thread == thread && row.status == .queued) = [] :=
      List.filter_eq_nil_iff.mpr fun r' hr' h => by
        have := hbefore r' hr'
        rw [h] at this
        cases this
    have hwaiting : q.waiting thread = r.queueId :: (after.filter fun row =>
        row.thread == thread && row.status == .queued).map QueuedPrompt.queueId := by
      unfold waiting
      rw [hrows, List.filter_append, hnone, List.nil_append, List.filter_cons, if_pos hsel,
        List.map_cons]
    have hq : r.status = .queued := by
      simp only [Bool.and_eq_true, beq_iff_eq] at hsel
      exact hsel.2
    exact Or.inr ⟨r, _, hwaiting, row_of_mem (List.mem_of_find?_eq_some hfind), hq, rfl⟩

/-- A prompt that is claimed and then closed: the others of its thread are left. -/
theorem waiting_turn {r : QueuedPrompt} {rest : List Nat} (pid : Nat) (outcome : Outcome)
    (hwaiting : q.waiting thread = r.queueId :: rest) :
    ((q.update (fun r' => r'.queueId == r.queueId && r'.status == .queued) .running
      (some pid)).finish r.queueId outcome).waiting thread = rest := by
  have hnodup := q.nodup_waiting thread
  rw [hwaiting] at hnodup
  obtain ⟨hnot, _⟩ := List.nodup_cons.mp hnodup
  have hrest : rest.filter (· != r.queueId) = rest := by
    refine List.filter_eq_self.mpr fun id hid => ?_
    simp only [bne_iff_ne]
    intro heq
    subst heq
    exact hnot hid
  unfold finish
  rw [waiting_update _ _ _ r.queueId _ (by cases outcome <;> decide) (fun r' _ _ => beq_iff_eq),
    waiting_update _ _ _ r.queueId _ (by decide) (fun r' _ hq => by simp [hq]), hwaiting,
    List.filter_cons]
  simp [hrest]

/-- The row of a prompt that is claimed and then closed. -/
theorem row_turn {r : QueuedPrompt} (pid : Nat) (outcome : Outcome)
    (hrow : q.row r.queueId = some r) (hq : r.status = .queued) (id : Nat) :
    ((q.update (fun r' => r'.queueId == r.queueId && r'.status == .queued) .running
      (some pid)).finish r.queueId outcome).row id =
      if id = r.queueId then some { r with status := outcome.status, claimedBy := pid }
      else q.row id := by
  unfold finish
  rw [row_update, row_update]
  by_cases hid : id = r.queueId
  · rw [hid, hrow, if_pos rfl]
    simp [hq]
  · rw [if_neg hid]
    cases hold : q.row id with
    | none => rfl
    | some r' =>
      have : r'.queueId ≠ r.queueId := (mem_of_row hold).2 ▸ hid
      simp [this]

end Queue

/-! ## Agreement -/

def LoopEnd.isReturned : LoopEnd → Bool
  | .returned _ => true
  | .raised _ => false

/-- The row is done exactly when the loop returned and cancelled exactly when it
raised, a failure is announced only then, and the run ledger is closed. -/
def Turn.Agrees (enabled : Bool) (q : Queue) (t : Turn) : Prop :=
  (∃ r, q.row t.queueId = some r ∧ (r.status = .done ↔ t.ended.isReturned = true) ∧
    (r.status = .cancelled ↔ t.ended.isReturned = false)) ∧
  (t.announced = true → t.ended.isReturned = false) ∧
  (enabled = true → t.manifest.isTerminal = true)

/-- A result that is an error or complete, or an `Exception`. -/
def LoopEnd.Closes (enabled : Bool) : LoopEnd → Prop
  | .returned r => enabled = true → r.error ≠ [] ∨ (r.stopped = false ∧ r.truncated = false)
  | .raised isException => isException = true

theorem status_terminal_iff (r : LoopResult) :
    r.status ∈ terminalOutcomes ↔ r.error ≠ [] ∨ (r.stopped = false ∧ r.truncated = false) := by
  unfold LoopResult.status
  cases herror : r.error <;> cases r.stopped <;> cases r.truncated <;> simp <;> decide

/-- The four ways of a turn. -/
theorem runOne_cases (enabled : Bool) (ended : LoopEnd) :
    (ended.Closes enabled ∧ ∃ manifest, (enabled = true → manifest.isTerminal = true) ∧
      ((ended.isReturned = true ∧ ∃ final, runOne enabled ended = (.ok final, manifest)) ∨
        (ended.isReturned = false ∧ runOne enabled ended = (.error true, manifest)))) ∨
    (¬ ended.Closes enabled ∧ ∃ manifest,
      ((ended.isReturned = true ∧ runOne enabled ended = (.error true, manifest)) ∨
        (ended.isReturned = false ∧ runOne enabled ended = (.error false, manifest)))) := by
  cases ended with
  | returned r =>
    unfold runOne LoopEnd.Closes
    dsimp only
    rw [← status_terminal_iff, ← Manifest.finish_isSome_iff (m := Manifest.start enabled)]
    cases hfinish : (Manifest.start enabled).finish enabled r.status with
    | some manifest =>
      refine Or.inl ⟨rfl, manifest, fun he => ?_, Or.inl ⟨rfl, r.final, rfl⟩⟩
      subst he
      exact Manifest.isTerminal_finish hfinish
    | none => exact Or.inr ⟨by simp, _, Or.inl ⟨rfl, rfl⟩⟩
  | raised isException =>
    unfold runOne LoopEnd.Closes
    dsimp only
    have hfail : ((Manifest.start enabled).fail enabled).isSome = true :=
      Manifest.finish_isSome_iff.mpr fun _ => by decide
    obtain ⟨manifest, hmanifest⟩ := Option.isSome_iff_exists.mp hfail
    rw [hmanifest]
    cases isException with
    | true =>
      refine Or.inl ⟨rfl, manifest, fun he => ?_, Or.inr ⟨rfl, rfl⟩⟩
      subst he
      exact Manifest.isTerminal_finish hmanifest
    | false => exact Or.inr ⟨by simp, manifest, Or.inr ⟨rfl, rfl⟩⟩

variable {enabled : Bool} {thread : Thread} {pid : Nat} {q : Queue} {ended : LoopEnd}
  {es : List LoopEnd}

/-- A prompt that is not queued is not touched. -/
theorem row_drain {id : Nat} {r : QueuedPrompt} (hrow : q.row id = some r)
    (hq : r.status ≠ .queued) : (drain enabled thread pid es q).1.row id = some r := by
  induction es generalizing q with
  | nil => exact hrow
  | cons ended es ih =>
    unfold drain
    rcases q.claimNext_waiting thread pid with ⟨_, he⟩ | ⟨c, rest, hwaiting, hc, hcq, he⟩
    · rw [he]
      exact hrow
    · rw [he]
      have hne : id ≠ c.queueId := by
        intro heq
        subst heq
        obtain rfl := Option.some.inj (hrow.symm.trans hc)
        exact hq hcq
      have hturn : ∀ outcome, ((q.update (fun r' => r'.queueId == c.queueId &&
          r'.status == .queued) .running (some pid)).finish c.queueId outcome).row id = some r := by
        intro outcome
        rw [Queue.row_turn pid outcome hc hcq, if_neg hne, hrow]
      dsimp only
      split
      next => exact ih (hturn .done)
      next => exact ih (hturn .cancelled)
      next =>
        show (q.update _ _ _).row id = some r
        rw [Queue.row_update, hrow]
        simp [hq]

theorem drain_cons (enabled : Bool) (thread : Thread) (pid : Nat) (ended : LoopEnd)
    (es : List LoopEnd) (q : Queue) : drain enabled thread pid (ended :: es) q =
      match q.claimNext thread pid with
      | (none, q) => (q, [])
      | (some item, q) =>
        match runOne enabled ended with
        | (.ok _, manifest) =>
          let (q, turns) := drain enabled thread pid es (q.finish item.queueId .done)
          (q, ⟨item.queueId, ended, manifest, false⟩ :: turns)
        | (.error true, manifest) =>
          let (q, turns) := drain enabled thread pid es (q.finish item.queueId .cancelled)
          (q, ⟨item.queueId, ended, manifest, true⟩ :: turns)
        | (.error false, manifest) => (q, [⟨item.queueId, ended, manifest, false⟩]) := rfl

/-- **One turn agrees** exactly when the loop closes it: its row stays as the turn
leaves it. -/
theorem first_agrees_iff (enabled : Bool) (ended : LoopEnd) (es : List LoopEnd)
    {c : QueuedPrompt} {rest : List Nat} (hwaiting : q.waiting thread = c.queueId :: rest) (hc : q.row c.queueId = some c)
    (hcq : c.status = .queued)
    (he : q.claimNext thread pid = (some { c with status := .running },
      q.update (fun r' => r'.queueId == c.queueId && r'.status == .queued) .running (some pid))) :
    ∃ t q' ts, drain enabled thread pid (ended :: es) q = (q', t :: ts) ∧
      (t.Agrees enabled q' ↔ ended.Closes enabled) ∧
      (ended.Closes enabled → ∃ q₁, q₁.waiting thread = rest ∧
        drain enabled thread pid es q₁ = (q', ts)) := by
  have hrow : ∀ outcome, ((q.update (fun r' => r'.queueId == c.queueId &&
      r'.status == .queued) .running (some pid)).finish c.queueId outcome).row c.queueId =
        some { c with status := outcome.status, claimedBy := pid } := by
    intro outcome
    rw [Queue.row_turn pid outcome hc hcq, if_pos rfl]
  have hlast : ∀ outcome, (drain enabled thread pid es ((q.update (fun r' => r'.queueId == c.queueId &&
      r'.status == .queued) .running (some pid)).finish c.queueId outcome)).1.row c.queueId =
        some { c with status := outcome.status, claimedBy := pid } :=
    fun outcome => row_drain (hrow outcome) (by cases outcome <;> simp [Outcome.status])
  rw [drain_cons, he]
  dsimp only
  rcases runOne_cases enabled ended with
    ⟨hcloses, manifest, hterminal, ⟨hret, final, hrun⟩ | ⟨hret, hrun⟩⟩ |
    ⟨hnot, manifest, ⟨hret, hrun⟩ | ⟨hret, hrun⟩⟩
  · rw [hrun]
    refine ⟨_, _, _, rfl, iff_of_true ⟨⟨_, hlast .done, ?_, ?_⟩, ?_, hterminal⟩ hcloses,
      fun _ => ⟨_, Queue.waiting_turn pid .done hwaiting, rfl⟩⟩
    · simp [hret, Outcome.status]
    · simp [hret, Outcome.status]
    · intro h
      cases h
  · rw [hrun]
    refine ⟨_, _, _, rfl, iff_of_true ⟨⟨_, hlast .cancelled, ?_, ?_⟩, fun _ => hret, hterminal⟩ hcloses,
      fun _ => ⟨_, Queue.waiting_turn pid .cancelled hwaiting, rfl⟩⟩
    · simp [hret, Outcome.status]
    · simp [hret, Outcome.status]
  · rw [hrun]
    refine ⟨_, _, _, rfl, iff_of_false (fun h => ?_) hnot, fun h => absurd h hnot⟩
    have := h.2.1 rfl
    rw [show (Turn.mk _ ended _ _).ended = ended from rfl, hret] at this
    cases this
  · rw [hrun]
    refine ⟨_, _, _, rfl, iff_of_false (fun h => ?_) hnot, fun h => absurd h hnot⟩
    obtain ⟨⟨r, hr, _, hcancelled⟩, _⟩ := h
    have hrunning : (q.update (fun r' => r'.queueId == c.queueId && r'.status == .queued) .running
        (some pid)).row c.queueId = some { c with status := .running, claimedBy := pid } := by
      rw [Queue.row_update, hc]
      simp [hcq]
    obtain rfl := Option.some.inj (hr.symm.trans hrunning)
    cases hcancelled.mpr hret

/-- **Draining a thread**: row, failure event and ledger agree on all turns exactly
when the loop ends well on each prompt that is taken. -/
theorem drain_agrees_iff (enabled : Bool) (thread : Thread) (pid : Nat) (es : List LoopEnd)
    (q : Queue) :
    (∀ t ∈ (drain enabled thread pid es q).2, t.Agrees enabled (drain enabled thread pid es q).1) ↔
      ∀ e ∈ es.take (q.waiting thread).length, e.Closes enabled := by
  induction es generalizing q with
  | nil => simp [drain]
  | cons ended es ih =>
    rcases q.claimNext_waiting thread pid with ⟨hnone, he⟩ | ⟨c, rest, hwaiting, hc, hcq, he⟩
    · rw [drain_cons, he, hnone]
      simp
    · obtain ⟨t, q', ts, hdrain, hfirst, hrest⟩ :=
        first_agrees_iff enabled ended es hwaiting hc hcq he
      rw [hdrain, hwaiting]
      simp only [List.length_cons, List.take_succ_cons, List.forall_mem_cons]
      rw [hfirst]
      refine and_congr_right fun hcloses => ?_
      obtain ⟨q₁, hq₁, hrun⟩ := hrest hcloses
      have := ih q₁
      rwa [hrun, hq₁] at this

/-- A turn that stops at the round limit has a result, and its prompt is cancelled. -/
theorem stopped_turn_disagrees : ¬ ∀ t ∈ (drain true ([], []) 1
      [.returned ⟨"so far".toList, [], true, false⟩] (Queue.empty.enqueue ([], []) [] []).2).2,
    t.Agrees true (drain true ([], []) 1
      [.returned ⟨"so far".toList, [], true, false⟩] (Queue.empty.enqueue ([], []) [] []).2).1 := by
  intro h
  have hannounced := (h ⟨1, .returned ⟨"so far".toList, [], true, false⟩, some .running, true⟩
    (by decide)).2.1 rfl
  cases hannounced

end Shamsu.Control
