import Shamsu.Control.Store
import Shamsu.Lib.Run

/-!
# The queue of prompts

`shamsu/control/store.py`: the table `queue`, and the transactions of queue and
leases as the actions of any number of processes (`Shared`, `StoreAction`, `step`).

A row is queued, then running, then done or cancelled, and never goes back
(`Status.rank`). `step_row` says once what an action does to a row; what holds
of all runs is read off it: prompts run once and in order, none is lost
(`prompts_kept`) and none starves (`prompt_claimed`).
-/

namespace Shamsu.Control

open Shamsu.Lib Shamsu.Py

/-- `QUEUED`, `RUNNING`, `DONE` and `CANCELLED`. -/
inductive Status where
  | queued | running | done | cancelled
  deriving DecidableEq, Repr

/-- How far a prompt has come. -/
def Status.rank : Status → Nat
  | .queued => 0
  | .running => 1
  | .done | .cancelled => 2

/-- What a turn is finished with. -/
inductive Outcome where
  | done | cancelled
  deriving DecidableEq, Repr

def Outcome.status : Outcome → Status
  | .done => .done
  | .cancelled => .cancelled

/-- A workspace and a session. -/
abbrev Thread := Text × Text

/-- A row of `queue`. -/
structure QueuedPrompt where
  queueId : Nat
  thread : Thread
  source : Text
  text : Text
  status : Status
  claimedBy : Nat
  deriving DecidableEq, Repr

/-- The table in the order of its key, which counts up. -/
structure Queue where
  rows : List QueuedPrompt
  nextId : Nat
  sorted : rows.Pairwise fun a b => a.queueId < b.queueId
  below : ∀ row ∈ rows, row.queueId < nextId

namespace Queue

def empty : Queue := ⟨[], 1, List.Pairwise.nil, fun _ h => absurd h List.not_mem_nil⟩

/-- `UPDATE queue SET status = …, claimed_by = … WHERE …`. -/
def update (t : Queue) (sel : QueuedPrompt → Bool) (status : Status) (claimedBy : Option Nat) :
    Queue where
  rows := t.rows.map fun row =>
    if sel row then { row with status, claimedBy := claimedBy.getD row.claimedBy } else row
  nextId := t.nextId
  sorted := by
    rw [List.pairwise_map]
    refine t.sorted.imp fun {a b} h => ?_
    split <;> split <;> exact h
  below := by
    intro row hrow
    obtain ⟨old, hold, rfl⟩ := List.mem_map.mp hrow
    have := t.below old hold
    split <;> exact this

/-- `enqueue`: the new id, and the table with the prompt. -/
def enqueue (t : Queue) (thread : Thread) (text source : Text) : Nat × Queue :=
  (t.nextId,
    { rows := t.rows ++ [⟨t.nextId, thread, source, text, .queued, 0⟩]
      nextId := t.nextId + 1
      sorted := by
        rw [List.pairwise_append]
        refine ⟨t.sorted, List.pairwise_singleton _ _, fun a ha b hb => ?_⟩
        rw [List.mem_singleton.mp hb]
        exact t.below a ha
      below := by
        intro row hrow
        rcases List.mem_append.mp hrow with h | h
        · have := t.below row h
          omega
        · rw [List.mem_singleton.mp h]
          exact Nat.lt_succ_self _ })

/-- `claim_next`: the oldest queued prompt of the thread. -/
def claimNext (t : Queue) (thread : Thread) (pid : Nat) : Option QueuedPrompt × Queue :=
  match t.rows.find? fun row => row.thread == thread && row.status == .queued with
  | none => (none, t)
  | some row =>
    (some { row with status := .running },
      t.update (fun r => r.queueId == row.queueId && r.status == .queued) .running (some pid))

/-- `finish`. -/
def finish (t : Queue) (id : Nat) (outcome : Outcome) : Queue :=
  t.update (fun r => r.queueId == id) outcome.status none

/-- `cancel_queued`: whether there was such a prompt. -/
def cancelQueued (t : Queue) (id : Nat) : Bool × Queue :=
  let sel (r : QueuedPrompt) : Bool := r.queueId == id && r.status == .queued
  (t.rows.any sel, t.update sel .cancelled none)

/-- The row of an id. -/
def row (t : Queue) (id : Nat) : Option QueuedPrompt := t.rows.find? fun r => r.queueId == id

variable {t : Queue} {id : Nat} {r : QueuedPrompt}

theorem mem_of_row (h : t.row id = some r) : r ∈ t.rows ∧ r.queueId = id :=
  ⟨List.mem_of_find?_eq_some h, by simpa using List.find?_some h⟩

/-- An id has one row. -/
theorem row_of_mem (h : r ∈ t.rows) : t.row r.queueId = some r := by
  obtain ⟨s, hs⟩ : ∃ s, t.row r.queueId = some s := by
    refine Option.isSome_iff_exists.mp ?_
    unfold row
    rw [List.find?_isSome]
    exact ⟨r, h, by simp⟩
  obtain ⟨hmem, hid⟩ := mem_of_row hs
  have hnodup : (t.rows.map QueuedPrompt.queueId).Nodup := by
    rw [List.Nodup, List.pairwise_map]
    exact t.sorted.imp fun h => Nat.ne_of_lt h
  rw [hs, List.inj_on_of_nodup_map hnodup hmem h hid]

theorem lt_of_row (h : t.row id = some r) : id < t.nextId := by
  obtain ⟨hmem, rfl⟩ := mem_of_row h
  exact t.below r hmem

theorem row_update (t : Queue) (sel : QueuedPrompt → Bool) (status : Status)
    (claimedBy : Option Nat) (id : Nat) :
    (t.update sel status claimedBy).row id = (t.row id).map fun row =>
      if sel row then { row with status, claimedBy := claimedBy.getD row.claimedBy } else row := by
  unfold row update
  dsimp only
  rw [List.find?_map]
  congr 2
  funext r
  dsimp only [Function.comp]
  split <;> rfl

theorem row_enqueue (t : Queue) (thread : Thread) (text source : Text) (id : Nat) :
    (t.enqueue thread text source).2.row id = if id = t.nextId then
      some ⟨t.nextId, thread, source, text, .queued, 0⟩ else t.row id := by
  unfold row enqueue
  dsimp only
  rw [List.find?_append]
  by_cases hid : id = t.nextId
  · subst hid
    have hnone : t.rows.find? (fun r => r.queueId == t.nextId) = none := by
      rw [List.find?_eq_none]
      intro r hr
      have := t.below r hr
      simp
      omega
    rw [hnone, if_pos rfl]
    simp
  · rw [if_neg hid]
    have : ¬ t.nextId = id := fun e => hid e.symm
    simp [this]

/-- The row a claim takes: queued, and the first of its thread that is. -/
theorem claimNext_cases (t : Queue) (thread : Thread) (pid : Nat) :
    ((∀ r ∈ t.rows, r.thread = thread → r.status ≠ .queued) ∧
      t.claimNext thread pid = (none, t)) ∨
    ∃ r, t.row r.queueId = some r ∧ r.thread = thread ∧ r.status = .queued ∧
      (∀ r' ∈ t.rows, r'.thread = thread → r'.status = .queued → r.queueId ≤ r'.queueId) ∧
      t.claimNext thread pid = (some { r with status := .running },
        t.update (fun r' => r'.queueId == r.queueId && r'.status == .queued) .running
          (some pid)) := by
  unfold claimNext
  cases hfind : t.rows.find? fun row => row.thread == thread && row.status == .queued with
  | none =>
    refine Or.inl ⟨fun r hr hthread hq => ?_, rfl⟩
    have := List.find?_eq_none.mp hfind r hr
    simp [hthread, hq] at this
  | some r =>
    have hsel : r.thread = thread ∧ r.status = .queued := by
      simpa using List.find?_some hfind
    refine Or.inr ⟨r, row_of_mem (List.mem_of_find?_eq_some hfind), hsel.1, hsel.2, ?_, rfl⟩
    obtain ⟨_, before, after, hrows, hbefore⟩ := List.find?_eq_some_iff_append.mp hfind
    intro r' hr' hthread hq
    rw [hrows, List.mem_append, List.mem_cons] at hr'
    rcases hr' with hr' | rfl | hr'
    · have := hbefore r' hr'
      simp [hthread, hq] at this
    · exact Nat.le_refl _
    · have hpair := t.sorted
      rw [hrows, List.pairwise_append] at hpair
      exact Nat.le_of_lt ((List.pairwise_cons.mp hpair.2.1).1 r' hr')

end Queue

/-! ## Leases of any caller -/

namespace Leases

/-- `acquire_lease`; re-entrant it is `acquireLease`. -/
def acquire (t : Leases) (slot : Text × Text) (pid : Nat) (surface : Text) (reentrant : Bool)
    (alive : Nat → Bool) (now : Time) : Bool × Leases :=
  match t.lookup slot with
  | some lease =>
    if lease.isLive alive now && (lease.ownerPid != pid || !reentrant) then (false, t)
    else (true, t.insert slot { ownerPid := pid, ownerSurface := surface, heartbeat := now })
  | none => (true, t.insert slot { ownerPid := pid, ownerSurface := surface, heartbeat := now })

/-- The rows that `keep` lets stay. -/
def prune (t : Leases) (keep : Lease → Bool) : Leases :=
  ⟨t.entries.filter fun e => keep e.2,
    t.nodupKeys.sublist List.filter_sublist⟩

variable {t : Leases} {slot : Text × Text} {pid : Nat}

theorem lookup_prune (t : Leases) (keep : Lease → Bool) (slot : Text × Text) :
    (t.prune keep).lookup slot = (t.lookup slot).filter keep := by
  ext lease
  rw [Option.filter_eq_some_iff]
  simp only [← Option.mem_def, AList.mem_lookup_iff, prune, List.mem_filter]

/-- A claim is refused by a live lease of another process, or of one's own where
that counts, and else makes the claimant the owner. -/
theorem acquire_cases (t : Leases) (slot : Text × Text) (pid : Nat) (surface : Text)
    (reentrant : Bool) (alive : Nat → Bool) (now : Time) :
    (∃ lease, t.lookup slot = some lease ∧ lease.isLive alive now = true ∧
      (lease.ownerPid ≠ pid ∨ reentrant = false) ∧
      t.acquire slot pid surface reentrant alive now = (false, t)) ∨
    ((∀ lease, t.lookup slot = some lease →
        (lease.ownerPid = pid ∧ reentrant = true) ∨ lease.isLive alive now = false) ∧
      t.acquire slot pid surface reentrant alive now =
        (true, t.insert slot { ownerPid := pid, ownerSurface := surface, heartbeat := now })) := by
  unfold acquire
  cases hrow : t.lookup slot with
  | none => exact Or.inr ⟨fun _ h => by simp at h, rfl⟩
  | some lease =>
    dsimp only
    split
    next h =>
      simp only [Bool.and_eq_true, Bool.or_eq_true, bne_iff_ne, Bool.not_eq_true'] at h
      exact Or.inl ⟨lease, rfl, h.1, h.2, rfl⟩
    next h =>
      refine Or.inr ⟨fun l hl => ?_, rfl⟩
      obtain rfl := Option.some.inj hl
      cases hlive : lease.isLive alive now with
      | false => exact Or.inr rfl
      | true =>
        rw [hlive] at h
        exact Or.inl (by simpa using h)

end Leases

/-! ## The store, and what processes do to it -/

/-- The two tables. -/
structure Shared where
  leases : Leases
  queue : Queue

namespace Shared

def empty : Shared := ⟨∅, .empty⟩

/-- A running prompt whose thread nobody holds any more. -/
def abandoned (s : Shared) (pid : Nat) (includeOwn : Bool) (alive : Nat → Bool) (now : Time)
    (r : QueuedPrompt) : Bool :=
  match s.leases.lookup r.thread with
  | none => true
  | some lease => !lease.isLive alive now || (includeOwn && lease.ownerPid == pid)

/-- `recover_interrupted`: the prompts it closes, and the tables after it. -/
def recoverInterrupted (s : Shared) (pid : Nat) (includeOwn : Bool) (alive : Nat → Bool)
    (now : Time) : List QueuedPrompt × Shared :=
  let sel (r : QueuedPrompt) : Bool :=
    r.status == .running && s.abandoned pid includeOwn alive now r
  (s.queue.rows.filter sel,
    { leases := s.leases.prune fun lease =>
        lease.isLive alive now && !(includeOwn && lease.ownerPid == pid)
      queue := s.queue.update sel .cancelled none })

end Shared

/-- A transaction of some process; `alive` and `now` are what it reads of the
machine. -/
inductive StoreAction where
  | acquireLease (slot : Text × Text) (pid : Nat) (surface : Text) (reentrant : Bool)
      (alive : Nat → Bool) (now : Time)
  | renewLease (slot : Text × Text) (pid : Nat) (now : Time)
  | releaseLease (slot : Text × Text) (pid : Nat)
  | enqueue (thread : Thread) (text source : Text)
  | claimNext (thread : Thread) (pid : Nat)
  | finish (id : Nat) (outcome : Outcome)
  | cancelQueued (id : Nat)
  | recoverInterrupted (pid : Nat) (includeOwn : Bool) (alive : Nat → Bool) (now : Time)

def Shared.step (s : Shared) : StoreAction → Shared
  | .acquireLease slot pid surface reentrant alive now =>
    { s with leases := (s.leases.acquire slot pid surface reentrant alive now).2 }
  | .renewLease slot pid now => { s with leases := (s.leases.renewLease slot pid now).2 }
  | .releaseLease slot pid => { s with leases := (s.leases.releaseLease slot pid).2 }
  | .enqueue thread text source => { s with queue := (s.queue.enqueue thread text source).2 }
  | .claimNext thread pid => { s with queue := (s.queue.claimNext thread pid).2 }
  | .finish id outcome => { s with queue := s.queue.finish id outcome }
  | .cancelQueued id => { s with queue := (s.queue.cancelQueued id).2 }
  | .recoverInterrupted pid includeOwn alive now =>
    (s.recoverInterrupted pid includeOwn alive now).2

namespace Shared

variable {s : Shared} {a : StoreAction} {id : Nat} {r r' : QueuedPrompt}

/-- How an action can change a row. -/
inductive Moves (s : Shared) (r : QueuedPrompt) : StoreAction → QueuedPrompt → Prop where
  | stays (a : StoreAction) : Moves s r a r
  | claimed (pid : Nat) (hq : r.status = .queued)
      (hfirst : ∀ r' ∈ s.queue.rows, r'.thread = r.thread → r'.status = .queued →
        r.queueId ≤ r'.queueId) :
      Moves s r (.claimNext r.thread pid) { r with status := .running, claimedBy := pid }
  | finished (outcome : Outcome) :
      Moves s r (.finish r.queueId outcome) { r with status := outcome.status }
  | dropped (hq : r.status = .queued) :
      Moves s r (.cancelQueued r.queueId) { r with status := .cancelled }
  | recovered (pid : Nat) (includeOwn : Bool) (alive : Nat → Bool) (now : Time)
      (hr : r.status = .running) (hab : s.abandoned pid includeOwn alive now r = true) :
      Moves s r (.recoverInterrupted pid includeOwn alive now) { r with status := .cancelled }

/-- **What an action does to a row.** -/
theorem step_row (h : s.queue.row id = some r) :
    ∃ r', (s.step a).queue.row id = some r' ∧ Moves s r a r' := by
  obtain ⟨hmem, rfl⟩ := Queue.mem_of_row h
  cases a with
  | acquireLease | renewLease | releaseLease => exact ⟨r, h, .stays _⟩
  | enqueue thread text source =>
    refine ⟨r, ?_, .stays _⟩
    show (s.queue.enqueue thread text source).2.row r.queueId = some r
    rw [Queue.row_enqueue, if_neg (Nat.ne_of_lt (Queue.lt_of_row h)), h]
  | claimNext thread pid =>
    show ∃ r', (s.queue.claimNext thread pid).2.row r.queueId = some r' ∧ _
    rcases Queue.claimNext_cases s.queue thread pid with ⟨_, he⟩ | ⟨c, hc, hthread, hq, hfirst, he⟩
    · rw [he]
      exact ⟨r, h, .stays _⟩
    · rw [he, Queue.row_update, h, Option.map_some]
      by_cases hid : r.queueId = c.queueId
      · rw [hid, hc] at h
        obtain rfl := Option.some.inj h
        subst hthread
        simp only [beq_self_eq_true, hq, Bool.and_self, if_true]
        exact ⟨_, rfl, .claimed pid hq hfirst⟩
      · refine ⟨r, ?_, .stays _⟩
        simp [hid]
  | finish id outcome =>
    show ∃ r', (s.queue.update _ _ _).row r.queueId = some r' ∧ _
    rw [Queue.row_update, h, Option.map_some]
    by_cases hid : r.queueId = id
    · subst hid
      simp only [beq_self_eq_true, if_true]
      exact ⟨_, rfl, .finished outcome⟩
    · refine ⟨r, ?_, .stays _⟩
      simp [hid]
  | cancelQueued id =>
    show ∃ r', (s.queue.update _ _ _).row r.queueId = some r' ∧ _
    rw [Queue.row_update, h, Option.map_some]
    by_cases hsel : r.queueId = id ∧ r.status = .queued
    · obtain ⟨rfl, hq⟩ := hsel
      simp only [beq_self_eq_true, hq, Bool.and_self, if_true]
      exact ⟨_, rfl, .dropped hq⟩
    · refine ⟨r, ?_, .stays _⟩
      simp [hsel]
  | recoverInterrupted pid includeOwn alive now =>
    show ∃ r', (s.queue.update _ _ _).row r.queueId = some r' ∧ _
    rw [Queue.row_update, h, Option.map_some]
    by_cases hsel : r.status = .running ∧ s.abandoned pid includeOwn alive now r = true
    · obtain ⟨hr, hab⟩ := hsel
      simp only [hr, hab, beq_self_eq_true, Bool.and_self, if_true]
      exact ⟨_, rfl, .recovered pid includeOwn alive now hr hab⟩
    · refine ⟨r, ?_, .stays _⟩
      simp only [Bool.and_eq_true, beq_iff_eq, if_neg hsel]

theorem nextId_step (s : Shared) (a : StoreAction) :
    (s.step a).queue.nextId = s.queue.nextId ∨
      ((s.step a).queue.nextId = s.queue.nextId + 1 ∧ ∃ thread text source,
        a = .enqueue thread text source) := by
  cases a with
  | enqueue thread text source => exact Or.inr ⟨rfl, thread, text, source, rfl⟩
  | claimNext thread pid =>
    left
    show (s.queue.claimNext thread pid).2.nextId = _
    rcases Queue.claimNext_cases s.queue thread pid with ⟨_, he⟩ | ⟨c, _, _, _, _, he⟩
    · rw [he]
    · rw [he]
      rfl
  | acquireLease | renewLease | releaseLease | finish | cancelQueued | recoverInterrupted =>
    exact Or.inl rfl

/-- Where a new row comes from. -/
theorem step_new_row (h : s.queue.row id = none) (h' : (s.step a).queue.row id = some r) :
    id = s.queue.nextId ∧ r.status = .queued := by
  have updated : ∀ {sel status claimedBy},
      (s.queue.update sel status claimedBy).row id = some r → False := by
    intro sel status claimedBy h'
    rw [Queue.row_update, h] at h'
    cases h'
  have same : s.queue.row id = some r → False := fun h' => by rw [h] at h'; cases h'
  cases a with
  | acquireLease | renewLease | releaseLease => exact (same h').elim
  | finish | cancelQueued | recoverInterrupted => exact (updated h').elim
  | claimNext thread pid =>
    have h' : (s.queue.claimNext thread pid).2.row id = some r := h'
    rcases Queue.claimNext_cases s.queue thread pid with ⟨_, he⟩ | ⟨c, _, _, _, _, he⟩
    · rw [he] at h'
      exact (same h').elim
    · rw [he] at h'
      exact (updated h').elim
  | enqueue thread text source =>
    have h' : (s.queue.enqueue thread text source).2.row id = some r := h'
    rw [Queue.row_enqueue] at h'
    split at h'
    next hid =>
      obtain rfl := Option.some.inj h'
      exact ⟨hid, rfl⟩
    next => exact (same h').elim

/-- A prompt never goes back. -/
theorem Moves.rank_le (h : Moves s r a r') : r.status.rank ≤ r'.status.rank := by
  cases h with
  | stays => exact Nat.le_refl _
  | claimed _ hq => simp [hq, Status.rank]
  | finished outcome =>
    have : r.status.rank ≤ 2 := by cases r.status <;> decide
    cases outcome <;> exact this
  | dropped hq => simp [hq, Status.rank]
  | recovered _ _ _ _ hr => simp [hr, Status.rank]

theorem Moves.thread_eq (h : Moves s r a r') : r'.thread = r.thread := by
  cases h <;> rfl

/-! ## All runs -/

/-- The id has a row in the state `n` at least. -/
def Reached (n : Nat) (id : Nat) (s : Shared) : Prop :=
  ∃ r, s.queue.row id = some r ∧ n ≤ r.status.rank

theorem reached_step {n : Nat} (h : Reached n id s) : Reached n id (s.step a) := by
  obtain ⟨r, hr, hn⟩ := h
  obtain ⟨r', hr', hm⟩ := step_row (a := a) hr
  exact ⟨r', hr', hn.trans hm.rank_le⟩

theorem reached_run {n : Nat} (as : List StoreAction) (h : Reached n id s) :
    Reached n id (run step s as) := by
  induction as generalizing s with
  | nil => exact h
  | cons a as ih => exact ih (reached_step h)

/-- What an action claims. -/
def claimed (s : Shared) : StoreAction → Option QueuedPrompt
  | .claimNext thread pid => (s.queue.claimNext thread pid).1
  | _ => none

/-- The claims of a run, in their order. -/
def claims : Shared → List StoreAction → List QueuedPrompt
  | _, [] => []
  | s, a :: as => (s.claimed a).toList ++ claims (s.step a) as

/-- The action takes the row of this id to the running state. -/
def Enters (s : Shared) (a : StoreAction) (id : Nat) : Prop :=
  (∀ r, s.queue.row id = some r → r.status ≠ .running) ∧
    ∃ r, (s.step a).queue.row id = some r ∧ r.status = .running

/-- **What a claim takes**: a queued row, the first of its thread. -/
theorem claimed_spec {c : QueuedPrompt} (h : s.claimed a = some c) :
    ∃ r, s.queue.row c.queueId = some r ∧ r.thread = c.thread ∧ r.status = .queued ∧
      (∀ r' ∈ s.queue.rows, r'.thread = c.thread → r'.status = .queued →
        c.queueId ≤ r'.queueId) ∧
      Reached 1 c.queueId (s.step a) ∧
      ∃ r', (s.step a).queue.row c.queueId = some r' ∧ r'.status = .running := by
  cases a with
  | claimNext thread pid =>
    have h : (s.queue.claimNext thread pid).1 = some c := h
    rcases Queue.claimNext_cases s.queue thread pid with ⟨_, he⟩ | ⟨r, hr, hthread, hq, hfirst, he⟩
    · rw [he] at h
      cases h
    · rw [he] at h
      obtain rfl := Option.some.inj h
      subst hthread
      have hrow : (s.step (.claimNext r.thread pid)).queue.row r.queueId
          = some { r with status := .running, claimedBy := pid } := by
        show (s.queue.claimNext r.thread pid).2.row r.queueId = _
        rw [he, Queue.row_update, hr]
        simp [hq]
      exact ⟨r, hr, rfl, hq, hfirst, ⟨_, hrow, Nat.le_refl 1⟩, _, hrow, rfl⟩
  | _ => cases h

/-- Only a claim lets a prompt run. -/
theorem enters_iff : Enters s a id ↔ ∃ c, s.claimed a = some c ∧ c.queueId = id := by
  constructor
  · intro h
    obtain ⟨hbefore, r', hr', hrun⟩ := h
    cases hrow : s.queue.row id with
    | none =>
      obtain ⟨_, hq⟩ := step_new_row hrow hr'
      rw [hq] at hrun
      cases hrun
    | some r =>
      obtain ⟨r'', hr'', hm⟩ := step_row (a := a) hrow
      obtain rfl := Option.some.inj (hr'.symm.trans hr'')
      obtain ⟨_, rfl⟩ := Queue.mem_of_row hrow
      cases hm with
      | stays => exact absurd hrun (hbefore _ hrow)
      | claimed pid hq hfirst =>
        rcases Queue.claimNext_cases s.queue r.thread pid with ⟨hnone, _⟩ | ⟨c, hc, ht, hcq, hle, he⟩
        · exact absurd hq (hnone r (Queue.mem_of_row hrow).1 rfl)
        · refine ⟨{ c with status := .running }, by simp [claimed, he], ?_⟩
          have h₁ := hle r (Queue.mem_of_row hrow).1 rfl hq
          have h₂ := hfirst c (Queue.mem_of_row hc).1 ht hcq
          exact Nat.le_antisymm h₁ h₂
      | finished outcome => cases outcome <;> cases hrun
      | dropped => cases hrun
      | recovered => cases hrun
  · intro h
    obtain ⟨c, hc, rfl⟩ := h
    obtain ⟨r, hr, _, hq, _, _, hrun⟩ := claimed_spec hc
    refine ⟨fun r' hr' => ?_, hrun⟩
    obtain rfl := Option.some.inj (hr.symm.trans hr')
    rw [hq]
    decide

/-- What is claimed in a run is queued before, in its thread, or comes later. -/
theorem of_mem_claims {c : QueuedPrompt} : ∀ {as : List StoreAction} {s : Shared},
    c ∈ claims s as →
      (∃ r, s.queue.row c.queueId = some r ∧ r.thread = c.thread ∧ r.status = .queued) ∨
        s.queue.nextId ≤ c.queueId := by
  intro as
  induction as with
  | nil => intro s h; cases h
  | cons a as ih =>
    intro s h
    rcases List.mem_append.mp h with h | h
    · obtain ⟨r, hr, ht, hq, _⟩ := claimed_spec (Option.mem_toList.mp h)
      exact Or.inl ⟨r, hr, ht, hq⟩
    · rcases ih h with ⟨r', hr', ht', hq'⟩ | hnext
      · cases hrow : s.queue.row c.queueId with
        | none =>
          exact Or.inr (Nat.le_of_eq (step_new_row hrow hr').1.symm)
        | some r =>
          obtain ⟨r'', hr'', hm⟩ := step_row (a := a) hrow
          obtain rfl := Option.some.inj (hr'.symm.trans hr'')
          refine Or.inl ⟨r, rfl, hm.thread_eq.symm.trans ht', ?_⟩
          have := hm.rank_le
          rw [hq'] at this
          revert this
          cases r.status <;> decide
      · rcases nextId_step s a with he | ⟨he, _⟩
        · exact Or.inr (he ▸ hnext)
        · exact Or.inr (by omega)

/-- A claim comes before all later claims of its thread, and is none of them. -/
theorem claimed_lt {c c' : QueuedPrompt} {as : List StoreAction} (hc : s.claimed a = some c)
    (hc' : c' ∈ claims (s.step a) as) :
    c.queueId ≠ c'.queueId ∧ (c'.thread = c.thread → c.queueId < c'.queueId) := by
  obtain ⟨r, hr, ht, hq, hfirst, ⟨r₁, hr₁, hrank⟩, _⟩ := claimed_spec hc
  have hlt := Queue.lt_of_row hr
  rcases of_mem_claims hc' with ⟨r', hr', ht', hq'⟩ | hnext
  · have hne : c.queueId ≠ c'.queueId := by
      intro e
      rw [← e, hr₁] at hr'
      obtain rfl := Option.some.inj hr'
      rw [hq'] at hrank
      exact absurd hrank (by decide)
    refine ⟨hne, fun hthread => ?_⟩
    -- it was queued before the claim too, or is new
    cases hrow : s.queue.row c'.queueId with
    | none =>
      have := (step_new_row hrow hr').1
      omega
    | some r'' =>
      obtain ⟨r₂, hr₂, hm⟩ := step_row (a := a) hrow
      obtain rfl := Option.some.inj (hr'.symm.trans hr₂)
      have hq'' : r''.status = .queued := by
        have := hm.rank_le
        rw [hq'] at this
        revert this
        cases r''.status <;> decide
      obtain ⟨hmem, hid⟩ := Queue.mem_of_row hrow
      have := hfirst r'' hmem ((hm.thread_eq.symm.trans ht').trans hthread) hq''
      omega
  · have : s.queue.nextId ≤ (s.step a).queue.nextId := by
      rcases nextId_step s a with he | ⟨he, _⟩ <;> omega
    constructor
    · omega
    · intro _
      omega

/-- **A prompt runs once**: claims are all different. -/
theorem nodup_claims (s : Shared) (as : List StoreAction) :
    ((claims s as).map QueuedPrompt.queueId).Nodup := by
  induction as generalizing s with
  | nil => exact List.nodup_nil
  | cons a as ih =>
    unfold claims
    cases hc : s.claimed a with
    | none => exact ih _
    | some c =>
      refine List.nodup_cons.mpr ⟨fun hm => ?_, ih _⟩
      obtain ⟨c', hc', he⟩ := List.mem_map.mp hm
      exact (claimed_lt hc hc').1 he.symm

/-- **In order**: the claims of a thread count up. -/
theorem sorted_claims (thread : Thread) (s : Shared) (as : List StoreAction) :
    (((claims s as).filter fun c => c.thread == thread).map QueuedPrompt.queueId).Pairwise
      (· < ·) := by
  induction as generalizing s with
  | nil => exact List.Pairwise.nil
  | cons a as ih =>
    unfold claims
    cases hc : s.claimed a with
    | none => exact ih _
    | some c =>
      rw [Option.toList_some, List.singleton_append, List.filter_cons]
      split
      next hthread =>
        refine List.pairwise_cons.mpr ⟨fun id hm => ?_, ih _⟩
        obtain ⟨c', hc', rfl⟩ := List.mem_map.mp hm
        obtain ⟨hmem, ht'⟩ := List.mem_filter.mp hc'
        refine (claimed_lt hc hmem).2 ?_
        rw [beq_iff_eq] at hthread ht'
        rw [hthread, ht']
      next => exact ih _

/-- A prompt that the action cancels while it is queued. -/
def Cancels (s : Shared) (a : StoreAction) (id : Nat) : Prop :=
  ∃ r r', s.queue.row id = some r ∧ r.status = .queued ∧
    (s.step a).queue.row id = some r' ∧ r'.status = .cancelled

/-- **Prompts run once and in order**, over any interleaving of transactions:
a prompt enters the running state by a claim and at most once, the claims of a
thread count up and pass over no queued prompt, and a prompt that is cancelled
while queued never runs. -/
theorem prompts_run_once_in_order (as : List StoreAction) :
    Along step (fun s a => (∀ id, Enters s a id ↔ ∃ c, s.claimed a = some c ∧ c.queueId = id) ∧
      ∀ c, s.claimed a = some c → ∀ r ∈ s.queue.rows, r.thread = c.thread →
        r.queueId < c.queueId → r.status ≠ .queued) .empty as ∧
    ((claims .empty as).map QueuedPrompt.queueId).Nodup ∧
    (∀ thread, (((claims .empty as).filter fun c => c.thread == thread).map
      QueuedPrompt.queueId).Pairwise (· < ·)) ∧
    ∀ as₁ a as₂ id, as = as₁ ++ a :: as₂ → Cancels (run step .empty as₁) a id →
      Always step (fun s => ∀ r, s.queue.row id = some r → r.status ≠ .running)
        (run step .empty (as₁ ++ [a])) as₂ := by
  have hstep : ∀ s a, (∀ id, Enters s a id ↔ ∃ c, s.claimed a = some c ∧ c.queueId = id) ∧
      ∀ c, s.claimed a = some c → ∀ r ∈ s.queue.rows, r.thread = c.thread →
        r.queueId < c.queueId → r.status ≠ .queued := by
    intro s a
    refine ⟨fun id => enters_iff, fun c hc r hr hthread hlt hq => ?_⟩
    obtain ⟨_, _, _, _, hfirst, _⟩ := claimed_spec hc
    have := hfirst r hr hthread hq
    omega
  refine ⟨along_of_forall hstep _ _, nodup_claims _ _,
    fun thread => sorted_claims thread _ _, ?_⟩
  · intro as₁ a as₂ id heq h
    subst heq
    obtain ⟨r, r', _, _, hr', hcancelled⟩ := h
    rw [run_append]
    have hreached : Reached 2 id (run step (run step .empty as₁) [a]) :=
      ⟨r', hr', by rw [hcancelled]; decide⟩
    refine always_iff.mpr fun as₃ _ r₃ hr₃ hrun => ?_
    obtain ⟨r₄, hr₄, hrank⟩ := reached_run as₃ hreached
    obtain rfl := Option.some.inj (hr₃.symm.trans hr₄)
    rw [hrun] at hrank
    exact absurd hrank (by decide)

/-! ## No prompt is lost, and none starves -/

/-- What a run asks for, numbered from `n` on. -/
def requests : Nat → List StoreAction → List (Nat × Thread × Text × Text)
  | _, [] => []
  | n, .enqueue thread text source :: as => (n, thread, source, text) :: requests (n + 1) as
  | n, _ :: as => requests n as

/-- What stays of a row. -/
def request (r : QueuedPrompt) : Nat × Thread × Text × Text :=
  (r.queueId, r.thread, r.source, r.text)

theorem request_update (t : Queue) (sel : QueuedPrompt → Bool) (status : Status)
    (claimedBy : Option Nat) :
    (t.update sel status claimedBy).rows.map request = t.rows.map request := by
  unfold Queue.update
  rw [List.map_map]
  refine List.map_congr_left fun r _ => ?_
  dsimp only [Function.comp]
  split <;> rfl

/-- **No prompt is lost**: in any run the table has what was asked for, in its order. -/
theorem prompts_kept (s : Shared) (as : List StoreAction) :
    (run step s as).queue.rows.map request =
      s.queue.rows.map request ++ requests s.queue.nextId as := by
  induction as generalizing s with
  | nil => exact (List.append_nil _).symm
  | cons a as ih =>
    have hsame : (s.step a).queue.rows.map request = s.queue.rows.map request →
        (s.step a).queue.nextId = s.queue.nextId → (run step (s.step a) as).queue.rows.map request =
          s.queue.rows.map request ++ requests s.queue.nextId as :=
      fun hrows hnext => by rw [ih, hrows, hnext]
    cases a with
    | enqueue thread text source =>
      refine (ih _).trans ?_
      show (s.queue.rows ++ [_]).map request ++ requests (s.queue.nextId + 1) as = _
      rw [List.map_append, List.append_assoc]
      rfl
    | claimNext thread pid =>
      have hclaim : (s.queue.claimNext thread pid).2.rows.map request = s.queue.rows.map request ∧
          (s.queue.claimNext thread pid).2.nextId = s.queue.nextId := by
        rcases Queue.claimNext_cases s.queue thread pid with ⟨_, he⟩ | ⟨c, _, _, _, _, he⟩
        · rw [he]
          exact ⟨rfl, rfl⟩
        · rw [he]
          exact ⟨request_update _ _ _ _, rfl⟩
      exact hsame hclaim.1 hclaim.2
    | acquireLease | renewLease | releaseLease => exact hsame rfl rfl
    | finish | cancelQueued | recoverInterrupted => exact hsame (request_update _ _ _ _) rfl

/-- The prompts of a thread that are queued up to this one. -/
def ahead (s : Shared) (thread : Thread) (id : Nat) : List Nat :=
  (s.queue.rows.filter fun r => r.thread == thread && r.status == .queued && r.queueId ≤ id).map
    QueuedPrompt.queueId

theorem nodup_ahead (s : Shared) (thread : Thread) (id : Nat) : (s.ahead thread id).Nodup := by
  unfold ahead
  rw [List.Nodup, List.pairwise_map]
  exact (s.queue.sorted.sublist List.filter_sublist).imp fun h => Nat.ne_of_lt h

theorem mem_ahead {thread : Thread} {x : Nat} : x ∈ s.ahead thread id ↔
    ∃ r, s.queue.row x = some r ∧ r.thread = thread ∧ r.status = .queued ∧ x ≤ id := by
  unfold ahead
  simp only [List.mem_map, List.mem_filter, Bool.and_eq_true, beq_iff_eq, decide_eq_true_eq]
  constructor
  · rintro ⟨r, ⟨hmem, ⟨hthread, hq⟩, hle⟩, rfl⟩
    exact ⟨r, Queue.row_of_mem hmem, hthread, hq, hle⟩
  · rintro ⟨r, hr, hthread, hq, hle⟩
    obtain ⟨hmem, rfl⟩ := Queue.mem_of_row hr
    exact ⟨r, ⟨hmem, ⟨hthread, hq⟩, hle⟩, rfl⟩

/-- Nothing comes in front of a prompt. -/
theorem ahead_step {thread : Thread} (hid : id < s.queue.nextId) :
    (s.step a).ahead thread id ⊆ s.ahead thread id := by
  intro x hx
  obtain ⟨r', hr', hthread, hq, hle⟩ := mem_ahead.mp hx
  cases hrow : s.queue.row x with
  | none =>
    have := (step_new_row hrow hr').1
    omega
  | some r =>
    obtain ⟨r'', hr'', hm⟩ := step_row (a := a) hrow
    cases hr'.symm.trans hr''
    refine mem_ahead.mpr ⟨r, hrow, hm.thread_eq.symm.trans hthread, ?_, hle⟩
    have := hm.rank_le
    rw [hq] at this
    revert this
    cases r.status <;> decide

/-- The action claims in this thread. -/
def claimsIn (thread : Thread) : StoreAction → Bool
  | .claimNext thread' _ => thread' == thread
  | _ => false

/-- A claim takes one of those in front. -/
theorem ahead_claim (hr : s.queue.row id = some r) (hq : r.status = .queued)
    (ha : claimsIn r.thread a = true) :
    ((s.step a).ahead r.thread id).length < (s.ahead r.thread id).length := by
  cases a with
  | claimNext thread pid =>
    obtain rfl := beq_iff_eq.mp ha
    have hmem := (Queue.mem_of_row hr).1
    rcases Queue.claimNext_cases s.queue r.thread pid with ⟨hnone, _⟩ | ⟨c, hc, hthread, hcq, hfirst, he⟩
    · exact absurd hq (hnone r hmem rfl)
    · have hclaimed : s.claimed (.claimNext r.thread pid) = some { c with status := .running } := by
        show (s.queue.claimNext r.thread pid).1 = _
        rw [he]
      obtain ⟨_, _, _, _, _, _, r₁, hr₁, hrun⟩ := claimed_spec hclaimed
      have hin : c.queueId ∈ s.ahead r.thread id := by
        have hle := hfirst r hmem rfl hq
        rw [(Queue.mem_of_row hr).2] at hle
        exact mem_ahead.mpr ⟨c, hc, hthread, hcq, hle⟩
      have hout : c.queueId ∉ (s.step (.claimNext r.thread pid)).ahead r.thread id := by
        intro h
        obtain ⟨r₂, hr₂, _, hq₂, _⟩ := mem_ahead.mp h
        cases hr₁.symm.trans hr₂
        rw [hrun] at hq₂
        cases hq₂
      have hsub : c.queueId :: (s.step (.claimNext r.thread pid)).ahead r.thread id ⊆
          s.ahead r.thread id :=
        List.cons_subset.mpr ⟨hin, ahead_step (Queue.lt_of_row hr)⟩
      exact (List.subperm_of_subset (List.nodup_cons.mpr ⟨hout, nodup_ahead _ _ _⟩) hsub).length_le
  | _ => cases ha

/-- **No prompt starves**: from any state, whatever the processes do, a queued prompt is queued no
more when its thread was claimed as often as prompts were queued up to it. -/
theorem prompt_claimed (as : List StoreAction) (hr : s.queue.row id = some r)
    (hmany : (s.ahead r.thread id).length ≤ as.countP (claimsIn r.thread)) :
    ∃ r', (run step s as).queue.row id = some r' ∧ r'.status ≠ .queued := by
  induction as generalizing s r with
  | nil =>
    refine ⟨r, hr, fun hq => ?_⟩
    have hin : id ∈ s.ahead r.thread id := mem_ahead.mpr ⟨r, hr, rfl, hq, Nat.le_refl _⟩
    rw [List.eq_nil_of_length_eq_zero (Nat.le_zero.mp hmany)] at hin
    cases hin
  | cons a as ih =>
    by_cases hq : r.status = .queued
    · obtain ⟨r', hr', hm⟩ := step_row (a := a) hr
      refine ih hr' ?_
      have hle := (List.subperm_of_subset (nodup_ahead (s.step a) r.thread id)
        (ahead_step (Queue.lt_of_row hr))).length_le
      rw [List.countP_cons] at hmany
      rw [hm.thread_eq]
      split at hmany
      next ha =>
        have := ahead_claim hr hq ha
        omega
      next => omega
    · -- it has been taken or closed, and never goes back
      have hreached : Reached 1 id s := ⟨r, hr, by revert hq; cases r.status <;> decide⟩
      obtain ⟨r', hr', hrank⟩ := reached_run (a :: as) hreached
      refine ⟨r', hr', fun hq' => ?_⟩
      rw [hq'] at hrank
      exact absurd hrank (by decide)

/-- Of two prompts of a thread the second is taken by the second claim. -/
theorem prompt_claimed_second :
    ∃ r', (run step (run step .empty [.enqueue ([], []) [] [], .enqueue ([], []) [] []])
      [.claimNext ([], []) 1, .finish 1 .done, .claimNext ([], []) 2]).queue.row 2 = some r' ∧
        r'.status ≠ .queued :=
  prompt_claimed (r := ⟨2, ([], []), [], [], .queued, 0⟩) _ (by decide) (by decide)

end Shared

end Shamsu.Control
