import Shamsu.Lib.Run
import Shamsu.Runtime.TurnStream

/-!
# A bounded subscription

What a `Subscription` keeps, over any offers and takes. A full queue sheds the first
`status`, else the first `activity`, and the rest stays whatever its length.

`queue_bounded`: in every state what was taken and what is queued are accepted events in
their order, with every one that may not be dropped; the queue fits, or has nothing to drop;
what is missing is what was dropped. And no offer drops an `activity` while there is a
`status`.
-/

namespace Shamsu.Runtime

open Shamsu.Lib

namespace Subscription

variable {α : Type} (event : α → TurnEvent)

/-- Whether `offer` queues an event. -/
def accepts (s : Subscription α) (a : α) : Bool :=
  !s.closed && !s.seen event (s.resumeTurn.getD (event a).turnId) a

/-- The queue is within the bound, or has nothing to drop. -/
def InBound (maxQueue : Nat) (queue : List α) : Prop :=
  queue.length ≤ maxQueue ∨ ∀ a ∈ queue, (event a).droppable = false

end Subscription

/-- A subscription, the events it accepted and those that were taken from it. -/
structure Backlog (α : Type) where
  sub : Subscription α
  accepted : List α := []
  taken : List α := []
  deriving Repr

/-- An event is offered, the queue is taken, or the subscription is closed. -/
inductive QueueAction (α : Type) where
  | offer (a : α)
  | take
  | close

namespace Backlog

variable {α : Type} (event : α → TurnEvent)

def step (t : Backlog α) : QueueAction α → Backlog α
  | .offer a =>
    { t with
      sub := t.sub.offer event a
      accepted := if t.sub.accepts event a then t.accepted ++ [a] else t.accepted }
  | .take => { t with sub := t.sub.drained, taken := t.taken ++ t.sub.queue }
  | .close => { t with sub := { t.sub with closed := true } }

/-- An event that is not to be dropped. -/
def stays (a : α) : Bool := !(event a).droppable

/-- What holds of a queue, its bound and its counter. -/
structure Bounded (t : Backlog α) : Prop where
  inOrder : (t.taken ++ t.sub.queue).Sublist t.accepted
  kept : (t.taken ++ t.sub.queue).filter (stays event) = t.accepted.filter (stays event)
  bound : Subscription.InBound event t.sub.maxQueue t.sub.queue
  counted : t.accepted.length = t.taken.length + t.sub.queue.length + t.sub.dropped.length

/-- An `activity` that an offer drops goes where no `status` is queued. -/
def StatusFirst (t : Backlog α) : QueueAction α → Prop
  | .offer a =>
    ∀ gone ∈ (t.step event (.offer a)).sub.dropped.drop t.sub.dropped.length,
      (event gone).kind = "activity".toList →
        ∀ b ∈ t.sub.queue ++ [a], (event b).kind ≠ "status".toList
  | _ => True

end Backlog

namespace Subscription

variable {α : Type} {event : α → TurnEvent}

theorem takeFirst_split {test : α → Bool} {l rest : List α} {a : α}
    (h : takeFirst test l = some (a, rest)) :
    ∃ front back, l = front ++ a :: back ∧ rest = front ++ back := by
  induction l generalizing rest with
  | nil => cases h
  | cons b l ih =>
    unfold takeFirst at h
    split at h
    next => cases h; exact ⟨[], l, rfl, rfl⟩
    next =>
      obtain ⟨found, hfound, heq⟩ := Option.map_eq_some_iff.mp h
      cases heq
      obtain ⟨front, back, rfl, hrest⟩ := ih hfound
      exact ⟨b :: front, back, rfl, by rw [hrest]; rfl⟩

theorem makeRoom_split {queue rest : List α} {gone : α}
    (h : makeRoom event queue = some (gone, rest)) :
    ∃ front back, queue = front ++ gone :: back ∧ rest = front ++ back := by
  unfold makeRoom at h
  obtain ⟨kind, _, hfirst⟩ := List.exists_of_findSome?_eq_some h
  exact takeFirst_split hfirst

/-- A `status` goes before an `activity`. -/
theorem makeRoom_statusFirst {queue rest : List α} {gone : α}
    (h : makeRoom event queue = some (gone, rest)) (hkind : (event gone).kind = "activity".toList) :
    ∀ b ∈ queue, (event b).kind ≠ "status".toList := by
  have horder : dropOrder = ["status", "activity"] := by decide
  intro b hb hstatus
  have hsome : takeFirst (fun a => (event a).kind == "status".toList) queue ≠ none := by
    intro hnone
    have := takeFirst_eq_none.mp hnone b hb
    rw [hstatus] at this
    cases this
  obtain ⟨⟨first, others⟩, hfirst⟩ := Option.ne_none_iff_exists'.mp hsome
  have htest := (takeFirst_spec hfirst).1
  rw [makeRoom, horder, List.findSome?_cons, hfirst] at h
  cases h
  rw [hkind] at htest
  exact absurd htest (by decide)

/-- One more event than a queue that is in its bound: it stays, or one event goes. -/
theorem shed_append {maxQueue fuel : Nat} {queue : List α} (h : InBound event maxQueue queue)
    (a : α) :
    shed event maxQueue (fuel + 1) (queue ++ [a]) = (queue ++ [a], []) ∨
      ∃ gone rest, makeRoom event (queue ++ [a]) = some (gone, rest) ∧
        shed event maxQueue (fuel + 1) (queue ++ [a]) = (rest, [gone]) := by
  unfold shed
  split
  · exact .inl rfl
  · split
    next => exact .inl rfl
    next gone rest hroom =>
      refine .inr ⟨gone, rest, hroom, ?_⟩
      obtain ⟨hdrop, hperm⟩ := makeRoom_spec hroom
      have hfits : rest.length ≤ maxQueue ∨ ∀ b ∈ rest, (event b).droppable = false := by
        rcases h with hlen | hnone
        · have hlength := hperm.length_eq
          rw [List.length_cons, List.length_append, List.length_singleton] at hlength
          exact .inl (by omega)
        · -- the queue had nothing to drop, so it is the new event that goes
          refine .inr fun b hb => ?_
          have hgone : gone = a := by
            have hmem := hperm.subset (List.mem_cons_self (a := gone) (l := rest))
            rcases List.mem_append.mp hmem with hmem | hmem
            · rw [hnone gone hmem] at hdrop
              cases hdrop
            · exact List.mem_singleton.mp hmem
          rw [hgone] at hperm
          have hrest := (hperm.trans (List.perm_append_singleton a queue)).cons_inv
          exact hnone b (hrest.subset hb)
      rw [shed_eq_self hfits]

/-- What an accepted offer does to the queue and to what was dropped. -/
theorem offer_accepted {s : Subscription α} {a : α} (h : s.accepts event a = true) :
    s.offer event a = { s with
      resumeTurn := some (s.resumeTurn.getD (event a).turnId) }.enqueue event a := by
  rw [accepts, Bool.and_eq_true, Bool.not_eq_true', Bool.not_eq_true'] at h
  unfold offer
  rw [if_neg (by rw [h.1]; decide)]
  exact if_neg (by rw [seen] at h ⊢; rw [h.2]; decide)

/-- An offer that is not accepted leaves both alone. -/
theorem offer_refused {s : Subscription α} {a : α} (h : s.accepts event a = false) :
    (s.offer event a).queue = s.queue ∧ (s.offer event a).dropped = s.dropped ∧
      (s.offer event a).maxQueue = s.maxQueue := by
  unfold offer
  split
  · exact ⟨rfl, rfl, rfl⟩
  next hopen =>
    have hseen : s.seen event (s.resumeTurn.getD (event a).turnId) a = true := by
      simpa [accepts, hopen] using h
    dsimp only
    rw [if_pos (by rw [seen] at hseen ⊢; exact hseen)]
    exact ⟨rfl, rfl, rfl⟩

/-- The two ways an accepted offer goes. -/
theorem offer_cases {s : Subscription α} {a : α} (h : s.accepts event a = true)
    (hbound : InBound event s.maxQueue s.queue) :
    (s.offer event a).maxQueue = s.maxQueue ∧
      InBound event s.maxQueue (s.offer event a).queue ∧
      ((s.offer event a).queue = s.queue ++ [a] ∧ (s.offer event a).dropped = s.dropped ∨
        ∃ gone, makeRoom event (s.queue ++ [a]) = some (gone, (s.offer event a).queue) ∧
          (s.offer event a).dropped = s.dropped ++ [gone]) := by
  rw [offer_accepted h]
  refine ⟨rfl, shed_done (by rw [List.length_append, List.length_singleton]), ?_⟩
  rcases @shed_append α event s.maxQueue s.queue.length s.queue hbound a with
    hstay | ⟨gone, rest, hroom, hgo⟩
  · refine .inl ⟨congrArg Prod.fst hstay, ?_⟩
    show s.dropped ++ _ = _
    rw [congrArg Prod.snd hstay, List.append_nil]
  · refine .inr ⟨gone, ?_, ?_⟩
    · show _ = some (gone, (shed event s.maxQueue (s.queue.length + 1) (s.queue ++ [a])).1)
      rw [hgo, hroom]
    · show s.dropped ++ _ = _
      rw [congrArg Prod.snd hgo]

end Subscription

namespace Backlog

open Subscription

variable {α : Type} {event : α → TurnEvent} {t : Backlog α}

theorem bounded_start (sinceSeq : Int) (sinceTurn : Shamsu.Py.Text) (maxQueue : Nat) :
    Bounded event { sub := Subscription.new sinceSeq sinceTurn maxQueue } :=
  ⟨List.Sublist.refl _, rfl, .inl (Nat.zero_le _), rfl⟩

/-- An offer that is not accepted changes nothing of it. -/
theorem bounded_refused (h : t.Bounded event) {a : α} (haccept : t.sub.accepts event a = false) :
    (t.step event (.offer a)).Bounded event := by
  obtain ⟨hqueue, hdropped, hmax⟩ := offer_refused haccept
  have hsame : (t.step event (.offer a)).accepted = t.accepted := by
    show (if t.sub.accepts event a then _ else _) = _
    rw [haccept]
    rfl
  refine ⟨?_, ?_, ?_, ?_⟩
  · rw [hsame]
    show (t.taken ++ (t.sub.offer event a).queue).Sublist _
    rw [hqueue]
    exact h.inOrder
  · rw [hsame]
    show (t.taken ++ (t.sub.offer event a).queue).filter _ = _
    rw [hqueue]
    exact h.kept
  · show InBound event (t.sub.offer event a).maxQueue (t.sub.offer event a).queue
    rw [hqueue, hmax]
    exact h.bound
  · rw [hsame]
    show _ = t.taken.length + (t.sub.offer event a).queue.length +
      (t.sub.offer event a).dropped.length
    rw [hqueue, hdropped]
    exact h.counted

theorem accepted_offer {a : α} (haccept : t.sub.accepts event a = true) :
    (t.step event (.offer a)).accepted = t.accepted ++ [a] := by
  show (if t.sub.accepts event a then _ else _) = _
  rw [haccept]
  rfl

/-- The queue with the offered event at its end, whether or not one goes. -/
theorem inOrder_append (h : t.Bounded event) (a : α) :
    (t.taken ++ (t.sub.queue ++ [a])).Sublist (t.accepted ++ [a]) := by
  rw [← List.append_assoc]
  exact h.inOrder.append (List.Sublist.refl _)

theorem kept_append (h : t.Bounded event) (a : α) :
    (t.taken ++ (t.sub.queue ++ [a])).filter (stays event) =
      (t.accepted ++ [a]).filter (stays event) := by
  rw [← List.append_assoc, List.filter_append, h.kept, List.filter_append]

/-- An accepted offer that fits. -/
theorem bounded_stayed (h : t.Bounded event) {a : α} (haccept : t.sub.accepts event a = true)
    (hqueue : (t.sub.offer event a).queue = t.sub.queue ++ [a])
    (hdropped : (t.sub.offer event a).dropped = t.sub.dropped) :
    (t.step event (.offer a)).Bounded event := by
  obtain ⟨hmax, hbound, -⟩ := offer_cases haccept h.bound
  have hcounted := h.counted
  refine ⟨?_, ?_, ?_, ?_⟩
  · rw [accepted_offer haccept]
    show (t.taken ++ (t.sub.offer event a).queue).Sublist _
    rw [hqueue]
    exact inOrder_append h a
  · rw [accepted_offer haccept]
    show (t.taken ++ (t.sub.offer event a).queue).filter _ = _
    rw [hqueue]
    exact kept_append h a
  · show InBound event (t.sub.offer event a).maxQueue _
    rw [hmax]
    exact hbound
  · rw [accepted_offer haccept]
    show _ = t.taken.length + (t.sub.offer event a).queue.length +
      (t.sub.offer event a).dropped.length
    rw [hqueue, hdropped, List.length_append, List.length_append, List.length_singleton]
    omega

/-- An accepted offer for which one event goes, which may be dropped. -/
theorem bounded_shed (h : t.Bounded event) {a gone : α}
    (haccept : t.sub.accepts event a = true)
    (hroom : makeRoom event (t.sub.queue ++ [a]) = some (gone, (t.sub.offer event a).queue))
    (hdropped : (t.sub.offer event a).dropped = t.sub.dropped ++ [gone]) :
    (t.step event (.offer a)).Bounded event := by
  obtain ⟨hmax, hbound, -⟩ := offer_cases haccept h.bound
  obtain ⟨front, back, hsplit, hrest⟩ := makeRoom_split hroom
  have hgone : stays event gone = false := by
    rw [stays, (makeRoom_spec hroom).1]
    rfl
  have hcounted := h.counted
  refine ⟨?_, ?_, ?_, ?_⟩
  · have hwhole := inOrder_append h a
    rw [hsplit] at hwhole
    rw [accepted_offer haccept]
    show (t.taken ++ (t.sub.offer event a).queue).Sublist _
    rw [hrest]
    refine List.Sublist.trans ?_ hwhole
    exact (List.Sublist.refl _).append ((List.Sublist.refl _).append (List.sublist_cons_self _ _))
  · rw [accepted_offer haccept]
    show (t.taken ++ (t.sub.offer event a).queue).filter _ = _
    rw [← kept_append h a, hsplit, hrest, List.filter_append, List.filter_append,
      List.filter_append, List.filter_append, List.filter_cons_of_neg (by rw [hgone]; decide)]
  · show InBound event (t.sub.offer event a).maxQueue _
    rw [hmax]
    exact hbound
  · have hlength := (makeRoom_spec hroom).2.length_eq
    rw [List.length_cons, List.length_append, List.length_singleton] at hlength
    rw [accepted_offer haccept]
    show _ = t.taken.length + (t.sub.offer event a).queue.length +
      (t.sub.offer event a).dropped.length
    simp only [hdropped, List.length_append, List.length_singleton]
    omega

/-- An offer keeps what holds. -/
theorem bounded_offer (h : t.Bounded event) (a : α) : (t.step event (.offer a)).Bounded event := by
  cases haccept : t.sub.accepts event a with
  | false => exact bounded_refused h haccept
  | true =>
    obtain ⟨-, -, hcases⟩ := offer_cases haccept h.bound
    rcases hcases with ⟨hqueue, hdropped⟩ | ⟨gone, hroom, hdropped⟩
    · exact bounded_stayed h haccept hqueue hdropped
    · exact bounded_shed h haccept hroom hdropped

theorem bounded_step (h : t.Bounded event) (action : QueueAction α) :
    (t.step event action).Bounded event := by
  cases action with
  | offer a => exact bounded_offer h a
  | close => exact ⟨h.inOrder, h.kept, h.bound, h.counted⟩
  | take =>
    have hempty : (t.step event .take).taken ++ (t.step event .take).sub.queue =
        t.taken ++ t.sub.queue := List.append_nil _
    refine ⟨hempty.symm ▸ h.inOrder, ?_, .inl (Nat.zero_le _), ?_⟩
    · rw [hempty]
      exact h.kept
    · show t.accepted.length = (t.taken ++ t.sub.queue).length + 0 + t.sub.dropped.length
      rw [List.length_append]
      exact h.counted

theorem statusFirst_step (h : t.Bounded event) (action : QueueAction α) :
    t.StatusFirst event action := by
  cases action with
  | take => trivial
  | close => trivial
  | offer a =>
    intro gone hgone hkind
    have hnone : ∀ {l : List α}, l = t.sub.dropped → gone ∉ l.drop t.sub.dropped.length := by
      intro l heq hmem
      subst heq
      rw [List.drop_length] at hmem
      cases hmem
    cases haccept : t.sub.accepts event a with
    | false => exact absurd hgone (hnone (offer_refused haccept).2.1)
    | true =>
      rcases (offer_cases haccept h.bound).2.2 with ⟨_, hdropped⟩ | ⟨first, hroom, hdropped⟩
      · exact absurd hgone (hnone hdropped)
      · have hdrop : (t.step event (.offer a)).sub.dropped.drop t.sub.dropped.length = [first] := by
          show (t.sub.offer event a).dropped.drop _ = _
          rw [hdropped, List.drop_left]
        rw [hdrop] at hgone
        rw [List.mem_singleton.mp hgone] at hkind
        exact makeRoom_statusFirst hroom hkind

/-- **A bounded queue** loses no event that stays and sheds a `status` first, over all
offers and takes. -/
theorem queue_bounded (event : α → TurnEvent) (sinceSeq : Int) (sinceTurn : Shamsu.Py.Text)
    (maxQueue : Nat) (actions : List (QueueAction α)) :
    Always (step event) (Bounded event) { sub := Subscription.new sinceSeq sinceTurn maxQueue }
        actions ∧
      Along (step event) (StatusFirst event)
        { sub := Subscription.new sinceSeq sinceTurn maxQueue } actions := by
  have hstart := @bounded_start α event sinceSeq sinceTurn maxQueue
  have htrue : Along (step event) (fun _ _ => True)
      { sub := Subscription.new sinceSeq sinceTurn maxQueue } actions :=
    along_of_forall (fun _ _ => trivial) _ _
  exact ⟨always_of_along (fun _ action h _ => bounded_step h action) hstart htrue,
    along_of_invariant (fun _ action h _ => bounded_step h action)
      (fun _ action h _ => statusFirst_step h action) hstart htrue⟩

end Backlog

end Shamsu.Runtime
