import Shamsu.Py.Text

/-!
# The turn stream

`shamsu/runtime/turn_stream.py`: the events of a session's turns, recorded in a file
and fanned out to bounded subscriptions. What is queued is an `α` with an event in it,
so that a copy of an event can be told from another.
-/

namespace Shamsu.Runtime

open Shamsu.Py

/-- `TurnEvent`. Its number counts from 1 in each turn. The time, the session, the
workspace and the source are not looked at and left out; `data` is any text. -/
structure TurnEvent where
  seq : Nat
  kind : Text
  text : Text := []
  data : Text := []
  turnId : Text := []
  deriving DecidableEq, Inhabited, Repr

/-- `NEVER_DROPPED`. -/
def neverDropped : List String :=
  ["turn.start", "tool.call", "tool.result", "approval", "reasoning", "assistant", "turn.end",
    "error"]

/-- `DROP_ORDER`. -/
def dropOrder : List String := ["status", "activity"].filter fun kind => !neverDropped.contains kind

/-- A kind that a full queue may shed. -/
def TurnEvent.droppable (e : TurnEvent) : Bool := dropOrder.any fun kind => e.kind == kind.toList

/-- The turn that a position is in: the one that is named, or the last on record. -/
def turnToResume (recorded : List TurnEvent) (sinceTurn : Text) : Text :=
  if sinceTurn = [] then (recorded.getLast?.map TurnEvent.turnId).getD [] else sinceTurn

/-- `_after`. -/
def after {α : Type} (event : α → TurnEvent) (items : List α) (sinceSeq : Int)
    (sinceTurn : Text) : List α :=
  if sinceSeq < 0 then items
  else items.filter fun a =>
    !((event a).turnId == turnToResume (items.map event) sinceTurn &&
      decide (((event a).seq : Int) ≤ sinceSeq))

/-- `Subscription`. It keeps the events that were dropped, where the source keeps their
number. -/
structure Subscription (α : Type) where
  sinceSeq : Int
  resumeTurn : Option Text
  maxQueue : Nat
  closed : Bool := false
  queue : List α := []
  dropped : List α := []
  deriving DecidableEq, Repr

namespace Subscription

variable {α : Type} (event : α → TurnEvent)

/-- `__init__`. -/
def new (sinceSeq : Int) (sinceTurn : Text) (maxQueue : Nat) : Subscription α :=
  { sinceSeq := sinceSeq
    resumeTurn := if sinceTurn = [] then none else some sinceTurn
    maxQueue := max 1 maxQueue }

/-- The first element that meets a test, and the list without it. -/
def takeFirst (test : α → Bool) : List α → Option (α × List α)
  | [] => none
  | a :: l =>
    if test a then some (a, l)
    else (takeFirst test l).map fun r => (r.1, a :: r.2)

/-- `_make_room`: the event that goes, and the queue without it. -/
def makeRoom (queue : List α) : Option (α × List α) :=
  dropOrder.findSome? fun kind => takeFirst (fun a => (event a).kind == kind.toList) queue

/-- The loop of `offer`: the queue it leaves, and what it dropped. Each round drops one. -/
def shed (maxQueue : Nat) : Nat → List α → List α × List α
  | 0, queue => (queue, [])
  | fuel + 1, queue =>
    if queue.length ≤ maxQueue then (queue, [])
    else
      match makeRoom event queue with
      | none => (queue, [])
      | some (gone, queue') =>
        let (rest, dropped) := shed maxQueue fuel queue'
        (rest, gone :: dropped)

/-- Whether `offer` passes over an event, with the turn it has pinned by then. -/
def seen (s : Subscription α) (pinned : Text) (a : α) : Bool :=
  (event a).turnId == pinned && decide (((event a).seq : Int) ≤ s.sinceSeq)

/-- Append to the queue, and drop what is too much. -/
def enqueue (s : Subscription α) (a : α) : Subscription α :=
  { s with
    queue := (shed event s.maxQueue (s.queue.length + 1) (s.queue ++ [a])).1
    dropped := s.dropped ++ (shed event s.maxQueue (s.queue.length + 1) (s.queue ++ [a])).2 }

/-- `offer`. -/
def offer (s : Subscription α) (a : α) : Subscription α :=
  if s.closed then s
  else
    let pinned := s.resumeTurn.getD (event a).turnId
    let s := { s with resumeTurn := some pinned }
    if s.seen event pinned a then s else s.enqueue event a

/-- `drain`. -/
def drained (s : Subscription α) : Subscription α := { s with queue := [] }

/-- Some offers, in order. -/
def offerAll (s : Subscription α) (l : List α) : Subscription α := l.foldl (offer event) s

/-- `subscribe`, up to the registration. -/
def subscribe (recorded : List α) (sinceSeq : Int) (sinceTurn : Text) (maxQueue : Nat) :
    Subscription α :=
  let resume := turnToResume (recorded.map event) sinceTurn
  (new sinceSeq resume maxQueue).offerAll event (after event recorded sinceSeq resume)

section Shedding

variable {event}

theorem takeFirst_spec {test : α → Bool} {l rest : List α} {a : α}
    (h : takeFirst test l = some (a, rest)) : test a = true ∧ (a :: rest).Perm l := by
  induction l generalizing rest with
  | nil => cases h
  | cons b l ih =>
    unfold takeFirst at h
    split at h
    next hb =>
      cases h
      exact ⟨hb, List.Perm.refl _⟩
    next =>
      cases ht : takeFirst test l with
      | none => rw [ht] at h; cases h
      | some r =>
        rw [ht] at h
        cases h
        obtain ⟨htest, hperm⟩ := @ih r.2 ht
        exact ⟨htest, (List.Perm.swap _ _ _).trans (hperm.cons b)⟩

theorem takeFirst_eq_none {test : α → Bool} {l : List α} :
    takeFirst test l = none ↔ ∀ a ∈ l, test a = false := by
  induction l with
  | nil => exact ⟨fun _ a ha => absurd ha List.not_mem_nil, fun _ => rfl⟩
  | cons b l ih =>
    unfold takeFirst
    by_cases hb : test b = true
    · rw [if_pos hb]
      exact iff_of_false (by simp) fun h => by
        rw [h b (List.mem_cons_self ..)] at hb
        cases hb
    · rw [if_neg hb, Option.map_eq_none_iff, ih]
      simp [hb]

/-- What makes room is droppable, and the rest stays. -/
theorem makeRoom_spec {queue rest : List α} {a : α} (h : makeRoom event queue = some (a, rest)) :
    (event a).droppable = true ∧ (a :: rest).Perm queue := by
  unfold makeRoom at h
  obtain ⟨kind, hkind, ht⟩ := List.exists_of_findSome?_eq_some h
  obtain ⟨htest, hperm⟩ := takeFirst_spec ht
  exact ⟨List.any_eq_true.mpr ⟨kind, hkind, htest⟩, hperm⟩

theorem makeRoom_eq_none {queue : List α} :
    makeRoom event queue = none ↔ ∀ a ∈ queue, (event a).droppable = false := by
  unfold makeRoom TurnEvent.droppable
  rw [List.findSome?_eq_none_iff]
  constructor
  · intro h a ha
    rw [List.any_eq_false]
    intro kind hkind
    have := takeFirst_eq_none.mp (h kind hkind) a ha
    simpa using this
  · intro h kind hkind
    rw [takeFirst_eq_none]
    intro a ha
    have := List.any_eq_false.mp (h a ha) kind hkind
    simpa using this

/-- Shedding loses nothing but droppable events, and keeps track of them. -/
theorem shed_spec (maxQueue fuel : Nat) (queue : List α) :
    ((shed event maxQueue fuel queue).1 ++ (shed event maxQueue fuel queue).2).Perm queue ∧
      ∀ a ∈ (shed event maxQueue fuel queue).2, (event a).droppable = true := by
  induction fuel generalizing queue with
  | zero =>
    unfold shed
    exact ⟨by simp, by simp⟩
  | succ fuel ih =>
    unfold shed
    split
    · exact ⟨by simp, by simp⟩
    · split
      · exact ⟨by simp, by simp⟩
      next gone queue' hroom =>
        obtain ⟨hdrop, hperm⟩ := makeRoom_spec hroom
        obtain ⟨hrest, hall⟩ := ih queue'
        refine ⟨List.perm_middle.trans ((hrest.cons gone).trans hperm), ?_⟩
        intro a ha
        rcases List.mem_cons.mp ha with rfl | ha
        · exact hdrop
        · exact hall a ha

/-- The fuel suffices: what is left fits, or has nothing to drop. -/
theorem shed_done {maxQueue fuel : Nat} {queue : List α} (h : queue.length ≤ fuel) :
    (shed event maxQueue fuel queue).1.length ≤ maxQueue ∨
      ∀ a ∈ (shed event maxQueue fuel queue).1, (event a).droppable = false := by
  induction fuel generalizing queue with
  | zero =>
    unfold shed
    rw [List.length_eq_zero_iff.mp (Nat.le_zero.mp h)]
    exact Or.inl (Nat.zero_le _)
  | succ fuel ih =>
    unfold shed
    split
    next hle => exact Or.inl hle
    · split
      next hnone => exact Or.inr (makeRoom_eq_none.mp hnone)
      next gone queue' hroom =>
        have hlen := (makeRoom_spec hroom).2.length_eq
        rw [List.length_cons] at hlen
        exact ih (by omega)

/-- A queue that fits, or has nothing to drop, stays. -/
theorem shed_eq_self {maxQueue fuel : Nat} {queue : List α}
    (h : queue.length ≤ maxQueue ∨ ∀ a ∈ queue, (event a).droppable = false) :
    shed event maxQueue fuel queue = (queue, []) := by
  cases fuel with
  | zero => rfl
  | succ fuel =>
    unfold shed
    rcases h with hle | hnone
    · rw [if_pos hle]
    · rw [makeRoom_eq_none.mpr hnone]
      split <;> rfl

end Shedding

end Subscription

end Shamsu.Runtime
