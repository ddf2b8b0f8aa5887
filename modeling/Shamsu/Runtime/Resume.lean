import Shamsu.Runtime.TurnStream

/-!
# Resuming a turn stream

A client that has seen the first `n` recorded events, the last of them number `s` of
turn `t`, subscribes after that position and wants the rest: the other recorded events
and the live ones after them, each once and in order.

`resume_exact` says when it gets just that. The filter knows one turn only, the one of
the position (or, if that has no name, the one it pins): it must be the turn of all that
was seen, and must not come again with numbers that were. `older_turn_repeats` is a
client at the start of a second turn that gets the first one again.
-/

namespace Shamsu.Runtime

open Shamsu.Py
open Subscription

/-- Events that a queue takes without dropping any. -/
def Fits (maxQueue : Nat) (l : List TurnEvent) : Prop :=
  l.length ≤ maxQueue ∨ ∀ e ∈ l, e.droppable = false

theorem Fits.of_append {maxQueue : Nat} {l l' : List TurnEvent} (h : Fits maxQueue (l ++ l')) :
    Fits maxQueue l := by
  rcases h with hlen | hno
  · rw [List.length_append] at hlen
    exact Or.inl (by omega)
  · exact Or.inr fun e he => hno e (List.mem_append_left _ he)

namespace Subscription

variable {s : Subscription TurnEvent} {l : List TurnEvent} {a : TurnEvent} {pinned : Text}

/-- What `offer` does once a turn is pinned. -/
theorem offer_pinned (hopen : s.closed = false) (hp : s.resumeTurn = some pinned) :
    s.offer id a = if s.seen id pinned a then s else s.enqueue id a := by
  obtain ⟨since, resume, maxQueue, closed, queue, dropped⟩ := s
  dsimp only at hopen hp
  subst hopen hp
  rfl

/-- The first offer pins a turn, and it is as if it had been pinned before. -/
theorem offer_pin (hopen : s.closed = false) : s.offer id a = { s with
    resumeTurn := some (s.resumeTurn.getD a.turnId) }.offer id a := by
  obtain ⟨since, resume, maxQueue, closed, queue, dropped⟩ := s
  dsimp only at hopen
  subst hopen
  rfl

theorem offerAll_cons : s.offerAll id (a :: l) = (s.offer id a).offerAll id l := rfl

theorem enqueue_length : (s.enqueue id a).queue.length + (s.enqueue id a).dropped.length =
    s.queue.length + s.dropped.length + 1 := by
  have hlen := (@shed_spec _ id s.maxQueue (s.queue.length + 1) (s.queue ++ [a])).1.length_eq
  rw [List.length_append, List.length_append, List.length_singleton] at hlen
  show (shed id s.maxQueue (s.queue.length + 1) (s.queue ++ [a])).1.length +
    (s.dropped ++ (shed id s.maxQueue (s.queue.length + 1) (s.queue ++ [a])).2).length = _
  rw [List.length_append]
  omega

/-- Each offer is passed over, queued or dropped. -/
theorem offerAll_count (hopen : s.closed = false) (hp : s.resumeTurn = some pinned) :
    (s.offerAll id l).queue.length + (s.offerAll id l).dropped.length +
      l.countP (s.seen id pinned) = s.queue.length + s.dropped.length + l.length := by
  induction l generalizing s with
  | nil => rfl
  | cons a l ih =>
    rw [offerAll_cons, offer_pinned hopen hp]
    by_cases hseen : s.seen id pinned a = true
    · rw [if_pos hseen, List.countP_cons_of_pos hseen, List.length_cons]
      have := ih hopen hp
      omega
    · rw [if_neg hseen, List.countP_cons_of_neg hseen, List.length_cons]
      have hrest := @ih (s.enqueue id a) hopen hp
      have hone := @enqueue_length s a
      have hsame : l.countP ((s.enqueue id a).seen id pinned) = l.countP (s.seen id pinned) := rfl
      omega

/-- A queue fits after each offer. -/
theorem offerAll_fits (hopen : s.closed = false) (hp : s.resumeTurn = some pinned)
    (hfit : Fits s.maxQueue s.queue) : Fits s.maxQueue (s.offerAll id l).queue := by
  induction l generalizing s with
  | nil => exact hfit
  | cons a l ih =>
    rw [offerAll_cons, offer_pinned hopen hp]
    by_cases hseen : s.seen id pinned a = true
    · rw [if_pos hseen]
      exact ih hopen hp hfit
    · rw [if_neg hseen]
      refine @ih (s.enqueue id a) hopen hp ?_
      exact shed_done (by rw [List.length_append, List.length_singleton])

/-- Offers that are not seen and fit are queued. -/
theorem offerAll_queue (hopen : s.closed = false) (hp : s.resumeTurn = some pinned)
    (hnew : ∀ a ∈ l, s.seen id pinned a = false) (hfit : Fits s.maxQueue (s.queue ++ l)) :
    (s.offerAll id l).queue = s.queue ++ l := by
  induction l generalizing s with
  | nil => exact (List.append_nil _).symm
  | cons a l ih =>
    rw [List.append_cons] at hfit ⊢
    have hqueue : (s.enqueue id a).queue = s.queue ++ [a] := by
      show (shed id s.maxQueue _ (s.queue ++ [a])).1 = _
      rw [@shed_eq_self _ id _ _ _ hfit.of_append]
    rw [offerAll_cons, offer_pinned hopen hp, if_neg (by rw [hnew a (List.mem_cons_self ..)]; simp),
      @ih (s.enqueue id a) hopen hp (fun b hb => hnew b (List.mem_cons_of_mem _ hb))
        (by rw [hqueue]; exact hfit), hqueue]

/-- From an empty queue, offers are queued as they come exactly if none of them is passed
over and they fit. -/
theorem offerAll_eq_iff (hopen : s.closed = false) (hp : s.resumeTurn = some pinned)
    (hqueue : s.queue = []) (hdropped : s.dropped = []) :
    (s.offerAll id l).queue = l ↔
      (∀ a ∈ l, s.seen id pinned a = false) ∧ Fits s.maxQueue l := by
  constructor
  · intro h
    have hcount := @offerAll_count s l pinned hopen hp
    rw [h, hqueue, hdropped] at hcount
    simp only [List.length_nil, Nat.zero_add] at hcount
    constructor
    · have hzero : l.countP (s.seen id pinned) = 0 := by omega
      intro a ha
      simpa using List.countP_eq_zero.mp hzero a ha
    · rw [← h]
      exact offerAll_fits hopen hp (Or.inl (by rw [hqueue]; exact Nat.zero_le _))
  · intro hsome
    obtain ⟨hnew, hfit⟩ := hsome
    rw [offerAll_queue hopen hp hnew (by rw [hqueue]; exact hfit), hqueue]
    rfl

end Subscription

/-- The turn that is pinned when some events are offered: the one to resume in, or the turn
of the first event. -/
def pinnedTurn (resume : Text) (offered : List TurnEvent) : Text :=
  if resume = [] then (offered.head?.map TurnEvent.turnId).getD [] else resume

/-- A filter gives the end of a list exactly if it takes nothing before and all of it. -/
theorem filter_eq_drop {α : Type} {p : α → Bool} {l : List α} {n : Nat} :
    l.filter p = l.drop n ↔ (∀ a ∈ l.take n, p a = false) ∧ ∀ a ∈ l.drop n, p a = true := by
  have hsplit : l.filter p = (l.take n).filter p ++ (l.drop n).filter p := by
    rw [← List.filter_append, List.take_append_drop]
  rw [hsplit]
  constructor
  · intro h
    have hend : ∀ a ∈ l.drop n, p a = true := by
      intro a ha
      rw [← h, List.mem_append] at ha
      rcases ha with ha | ha <;> exact (List.mem_filter.mp ha).2
    rw [List.filter_eq_self.mpr hend] at h
    refine ⟨fun a ha => ?_, hend⟩
    have hnil : (l.take n).filter p = [] := by simpa using h
    simpa using List.filter_eq_nil_iff.mp hnil a ha
  · intro hsome
    obtain ⟨hbegin, hend⟩ := hsome
    rw [List.filter_eq_self.mpr hend, List.filter_eq_nil_iff.mpr (by simpa using hbegin),
      List.nil_append]

/-- An event of a turn with a number up to `s`. -/
def upTo (turn : Text) (s : Nat) (e : TurnEvent) : Prop := e.turnId = turn ∧ e.seq ≤ s

/-- When a position names what was seen: `t` and `s` after `n` recorded events. -/
structure Resumable (recorded live : List TurnEvent) (n s : Nat) (t : Text) (maxQueue : Nat) :
    Prop where
  before : ∀ e ∈ recorded.take n, upTo (turnToResume recorded t) s e
  rest : ∀ e ∈ recorded.drop n, ¬ upTo (turnToResume recorded t) s e
  pinned : ∀ e ∈ recorded.drop n ++ live,
    ¬ upTo (pinnedTurn (turnToResume recorded t) (recorded.drop n ++ live)) s e
  fits : Fits (max 1 maxQueue) (recorded.drop n ++ live)

section

variable {recorded live : List TurnEvent} {n s : Nat} {t : Text} {maxQueue : Nat}

theorem after_turnToResume (recorded : List TurnEvent) (s : Nat) (t : Text) :
    after id recorded s t = recorded.filter fun e =>
      !(e.turnId == turnToResume recorded t && decide (e.seq ≤ s)) := by
  unfold after
  rw [if_neg (by omega), List.map_id]
  apply List.filter_congr
  intro e _
  simp

theorem after_twice (recorded : List TurnEvent) (s : Nat) (t : Text) :
    after id recorded s (turnToResume recorded t) = after id recorded s t := by
  rw [after_turnToResume, after_turnToResume]
  have hsame : turnToResume recorded (turnToResume recorded t) = turnToResume recorded t := by
    unfold turnToResume
    by_cases ht : t = []
    · rw [if_pos ht]
      split <;> rfl
    · rw [if_neg ht, if_neg ht]
  rw [hsame]

theorem after_eq_drop : after id recorded s t = recorded.drop n ↔
    (∀ e ∈ recorded.take n, upTo (turnToResume recorded t) s e) ∧
      ∀ e ∈ recorded.drop n, ¬ upTo (turnToResume recorded t) s e := by
  rw [after_turnToResume, filter_eq_drop]
  have hseen : ∀ e : TurnEvent,
      (e.turnId == turnToResume recorded t && decide (e.seq ≤ s)) = true ↔
        upTo (turnToResume recorded t) s e := by
    intro e
    simp [upTo]
  simp only [Bool.not_eq_true', hseen, ← Bool.not_eq_true, not_not]

/-- Offers to a new subscription. -/
theorem new_offerAll_eq_iff (resume : Text) (l : List TurnEvent) :
    ((new (s : Int) resume maxQueue).offerAll id l).queue = l ↔
      (∀ e ∈ l, ¬ upTo (pinnedTurn resume l) s e) ∧ Fits (max 1 maxQueue) l := by
  cases l with
  | nil => exact iff_of_true rfl ⟨fun e he => absurd he List.not_mem_nil, Or.inl (Nat.zero_le _)⟩
  | cons a l =>
    have hpin : (new (s : Int) resume maxQueue).offerAll id (a :: l) =
        ({ new (s : Int) resume maxQueue with
            resumeTurn := some (pinnedTurn resume (a :: l)) } : Subscription TurnEvent).offerAll id
          (a :: l) := by
      show ((new (s : Int) resume maxQueue).offer id a).offerAll id l = _
      rw [offer_pin rfl]
      have hturn : (new (s : Int) resume maxQueue : Subscription TurnEvent).resumeTurn.getD a.turnId =
          pinnedTurn resume (a :: l) := by
        unfold new pinnedTurn
        dsimp only
        split <;> rfl
      rw [hturn]
      rfl
    rw [hpin, @offerAll_eq_iff _ (a :: l) (pinnedTurn resume (a :: l)) rfl rfl rfl rfl]
    unfold seen upTo
    simp [new]

end

/-- **When a client resumes exactly where it was**: `replay` gives the recorded events after
the first `n`, and `subscribe` these and then the live ones. -/
theorem resume_exact (recorded live : List TurnEvent) (n s : Nat) (t : Text) (maxQueue : Nat) :
    (after id recorded s t = recorded.drop n ∧
      ((subscribe id recorded s t maxQueue).offerAll id live).queue = recorded.drop n ++ live) ↔
      Resumable recorded live n s t maxQueue := by
  have hoffers : after id recorded s t = recorded.drop n →
      (subscribe id recorded s t maxQueue).offerAll id live =
        (new (s : Int) (turnToResume recorded t) maxQueue).offerAll id
          (recorded.drop n ++ live) := by
    intro h
    unfold subscribe
    rw [List.map_id]
    dsimp only
    rw [after_twice, h]
    exact (List.foldl_append ..).symm
  constructor
  · intro hsome
    obtain ⟨hafter, hqueue⟩ := hsome
    obtain ⟨hbefore, hrest⟩ := after_eq_drop.mp hafter
    rw [hoffers hafter, new_offerAll_eq_iff] at hqueue
    exact ⟨hbefore, hrest, hqueue.1, hqueue.2⟩
  · intro h
    have hafter := after_eq_drop.mpr ⟨h.before, h.rest⟩
    refine ⟨hafter, ?_⟩
    rw [hoffers hafter, new_offerAll_eq_iff]
    exact ⟨h.pinned, h.fits⟩

/-- **A client at the start of a second turn gets the first one again.** -/
theorem older_turn_repeats :
    let first : TurnEvent := { seq := 1, kind := "turn.start".toList, turnId := "a".toList }
    let second : TurnEvent := { seq := 2, kind := "turn.end".toList, turnId := "a".toList }
    let third : TurnEvent := { seq := 1, kind := "turn.start".toList, turnId := "b".toList }
    after id [first, second, third] third.seq third.turnId = [first, second] ∧
      [first, second, third].drop 3 = [] := by
  decide

end Shamsu.Runtime
