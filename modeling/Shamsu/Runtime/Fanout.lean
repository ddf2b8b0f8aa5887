import Shamsu.Lib.Run
import Shamsu.Runtime.TurnStream

/-!
# Publishing to subscribers

`TurnStream.publish` records an event and takes the list of subscriptions under the lock,
and offers the event to them afterwards, without it; `subscribe` reads the file and
registers under the lock. Here any number of publishers, subscribers and readers take
these steps in any order.

A recorded event and a subscription that is open and wants everything: the event is on
its way to the subscription, or the subscription has it, once (`Delivering.once`). What
a subscription has is what was drained, what is queued and what its full queue dropped,
and it drops nothing but status and activity events. `delivered_once` is this for every
state of every run.
-/

namespace Shamsu.Runtime

open Shamsu.Py Shamsu.Lib
open Subscription

/-- A copy of an event, with the number of its record if it has one. -/
structure Copy where
  place : Option Nat
  event : TurnEvent
  deriving DecidableEq, Repr

/-- What happens to an event on its way into the file and back: its text is redacted, its
data goes through JSON. -/
structure Wire where
  redact : Text → Text
  jsonData : Text → Text

/-- The event as it is read back. -/
def Wire.stored (w : Wire) (e : TurnEvent) : TurnEvent :=
  { e with text := w.redact e.text, data := w.jsonData e.data }

/-- A publish that has recorded its event: the subscriptions it has still to offer it to. -/
structure Flight where
  copy : Copy
  targets : List Nat
  deriving DecidableEq, Repr

/-- The file, the subscriptions by number, those that are registered, what readers have
drained from each, and the publishes under way. -/
structure Stream where
  recorded : List TurnEvent
  created : Nat
  subs : Nat → Subscription Copy
  registered : List Nat
  received : Nat → List Copy
  flights : List Flight

inductive StreamStep where
  | publish (e : TurnEvent)
  | deliver (flight : Nat)
  | subscribe (sinceSeq : Int) (sinceTurn : Text) (maxQueue : Nat)
  | close (sub : Nat)
  | remove (sub : Nat)
  | drain (sub : Nat)

namespace Stream

/-- A stream over a file. -/
def start (recorded : List TurnEvent) : Stream :=
  ⟨recorded, 0, fun _ => new (-1) [] 1, [], fun _ => [], []⟩

/-- What `_replay_unlocked` reads. -/
def copies (recorded : List TurnEvent) : List Copy :=
  recorded.zipIdx.map fun r => ⟨some r.2, r.1⟩

/-- One subscription is another. -/
def withSub (s : Stream) (k : Nat) (sub : Subscription Copy) : Stream :=
  { s with subs := fun i => if i = k then sub else s.subs i }

variable (w : Wire) (persist : Bool)

/-- One step. A publish offers to one subscription at a time; a subscription is removed
after it was closed. -/
def step (s : Stream) : StreamStep → Stream
  | .publish e =>
    let copy : Copy := ⟨if persist then some s.recorded.length else none, e⟩
    { s with
      recorded := if persist then s.recorded ++ [w.stored e] else s.recorded
      flights := s.flights ++ [⟨copy, s.registered⟩] }
  | .deliver i =>
    match s.flights[i]? with
    | some ⟨copy, k :: rest⟩ =>
      { s.withSub k ((s.subs k).offer Copy.event copy) with
        flights := s.flights.set i ⟨copy, rest⟩ }
    | _ => s
  | .subscribe sinceSeq sinceTurn maxQueue =>
    { s.withSub s.created
        (Subscription.subscribe Copy.event (copies s.recorded) sinceSeq sinceTurn maxQueue) with
      created := s.created + 1
      registered := s.registered ++ [s.created]
      received := fun i => if i = s.created then [] else s.received i }
  | .close k => s.withSub k { s.subs k with closed := true }
  | .remove k =>
    if (s.subs k).closed then { s with registered := s.registered.erase k } else s
  | .drain k =>
    { s.withSub k (s.subs k).drained with
      received := fun i => if i = k then s.received k ++ (s.subs k).queue else s.received i }

/-- What a subscription has had: drained, queued or dropped. -/
def holds (s : Stream) (k : Nat) : List Copy :=
  s.received k ++ ((s.subs k).queue ++ (s.subs k).dropped)

/-- How often it has the record with a number. -/
def has (s : Stream) (k i : Nat) : Nat := (s.holds k).countP fun c => c.place == some i

/-- How often the record is on its way to it. -/
def inFlight (s : Stream) (k i : Nat) : Nat :=
  s.flights.countP fun f => f.copy.place == some i && f.targets.contains k

/-- A subscription that is open and replayed from the start. -/
def Open (s : Stream) (k : Nat) : Prop :=
  k < s.created ∧ (s.subs k).closed = false ∧ (s.subs k).sinceSeq < 0

/-- The copy is of its record: the event as it is read back, or as it was published. -/
def Genuine (s : Stream) (c : Copy) : Prop :=
  ∀ i, c.place = some i → s.recorded[i]? = some c.event ∨ s.recorded[i]? = some (w.stored c.event)

/-- **Exactly once**, and what is dropped is a status or an activity event. -/
structure Delivering (s : Stream) : Prop where
  once : ∀ k, s.Open k → ∀ i < s.recorded.length, s.has k i + s.inFlight k i = 1
  dropped : ∀ k, ∀ c ∈ (s.subs k).dropped, c.event.droppable = true
  genuine : ∀ k, ∀ c ∈ s.holds k, s.Genuine w c

/-- No publish has anybody left to offer its event to. -/
def Settled (s : Stream) : Prop := ∀ f ∈ s.flights, f.targets = []

/-- What every step keeps besides. -/
structure Wired (s : Stream) : Prop where
  nodup : s.registered.Nodup
  known : ∀ k ∈ s.registered, k < s.created
  open_ : ∀ k < s.created, (s.subs k).closed = false → k ∈ s.registered
  targetsNodup : ∀ f ∈ s.flights, f.targets.Nodup
  targetsKnown : ∀ f ∈ s.flights, ∀ k ∈ f.targets, k < s.created
  flightPlace : ∀ f ∈ s.flights, s.Genuine w f.copy
  unborn : ∀ k, s.created ≤ k → s.holds k = []

end Stream

section Offers

variable {sub : Subscription Copy} {c : Copy} {items : List Copy}

/-- An open subscription that wants everything has the copy afterwards, and loses none. -/
theorem offer_wants (hopen : sub.closed = false) (hall : sub.sinceSeq < 0) :
    ((sub.offer Copy.event c).queue ++ (sub.offer Copy.event c).dropped).Perm
        (c :: (sub.queue ++ sub.dropped)) := by
  have hseen : ∀ pinned, ({ sub with resumeTurn := some pinned } : Subscription Copy).seen
      Copy.event pinned c = false := by
    intro pinned
    unfold seen
    have : ¬ ((c.event.seq : Int) ≤ sub.sinceSeq) := by omega
    simp [this]
  unfold offer
  rw [if_neg (by rw [hopen]; simp)]
  dsimp only
  rw [if_neg (by rw [hseen]; simp)]
  have hshed := (@shed_spec _ Copy.event sub.maxQueue (sub.queue.length + 1)
    (sub.queue ++ [c])).1
  show ((shed Copy.event sub.maxQueue (sub.queue.length + 1) (sub.queue ++ [c])).1 ++
    (sub.dropped ++
      (shed Copy.event sub.maxQueue (sub.queue.length + 1) (sub.queue ++ [c])).2)).Perm _
  generalize shed Copy.event sub.maxQueue (sub.queue.length + 1) (sub.queue ++ [c]) = r at hshed ⊢
  have hswap : (r.1 ++ (sub.dropped ++ r.2)).Perm ((r.1 ++ r.2) ++ sub.dropped) := by
    rw [List.append_assoc]
    exact List.perm_append_comm.append_left r.1
  refine hswap.trans ((hshed.append_right sub.dropped).trans ?_)
  rw [List.append_assoc]
  exact List.perm_middle

theorem offer_closed : (sub.offer Copy.event c).closed = sub.closed := by
  unfold offer
  split
  · rfl
  · dsimp only
    split <;> rfl

theorem offer_sinceSeq : (sub.offer Copy.event c).sinceSeq = sub.sinceSeq := by
  unfold offer
  split
  · rfl
  · dsimp only
    split <;> rfl

/-- What a subscription has after an offer it had before, or it is the copy. -/
theorem mem_offer {x : Copy}
    (h : x ∈ (sub.offer Copy.event c).queue ++ (sub.offer Copy.event c).dropped) :
    x = c ∨ x ∈ sub.queue ++ sub.dropped := by
  unfold offer at h
  split at h
  · exact Or.inr h
  · dsimp only at h
    split at h
    · exact Or.inr h
    · have hshed := (@shed_spec _ Copy.event sub.maxQueue (sub.queue.length + 1)
        (sub.queue ++ [c])).1
      have hx : x ∈ (shed Copy.event sub.maxQueue (sub.queue.length + 1) (sub.queue ++ [c])).1 ++
        (sub.dropped ++
          (shed Copy.event sub.maxQueue (sub.queue.length + 1) (sub.queue ++ [c])).2) := h
      have hmem := @List.Perm.mem_iff _ x _ _ hshed
      simp only [List.mem_append, List.mem_singleton] at hx hmem ⊢
      tauto

theorem offer_dropped (h : ∀ x ∈ sub.dropped, x.event.droppable = true) :
    ∀ x ∈ (sub.offer Copy.event c).dropped, x.event.droppable = true := by
  unfold offer
  split
  · exact h
  · dsimp only
    split
    · exact h
    · intro x hx
      rcases List.mem_append.mp hx with hx | hx
      · exact h x hx
      · exact (@shed_spec _ Copy.event sub.maxQueue (sub.queue.length + 1)
          (sub.queue ++ [c])).2 x hx

theorem offerAll_wants (hopen : sub.closed = false) (hall : sub.sinceSeq < 0) :
    ((sub.offerAll Copy.event items).queue ++ (sub.offerAll Copy.event items).dropped).Perm
      (items ++ (sub.queue ++ sub.dropped)) := by
  induction items generalizing sub with
  | nil => exact List.Perm.refl _
  | cons c items ih =>
    have hrest := @ih (sub.offer Copy.event c) (by rw [offer_closed]; exact hopen)
      (by rw [offer_sinceSeq]; exact hall)
    refine hrest.trans (((offer_wants hopen hall).append_left items).trans ?_)
    exact List.perm_middle

theorem mem_offerAll {x : Copy} (h : x ∈ (sub.offerAll Copy.event items).queue ++
    (sub.offerAll Copy.event items).dropped) : x ∈ items ∨ x ∈ sub.queue ++ sub.dropped := by
  induction items generalizing sub with
  | nil => exact Or.inr h
  | cons c items ih =>
    rcases ih h with hin | hin
    · exact Or.inl (List.mem_cons_of_mem _ hin)
    · rcases mem_offer hin with rfl | hin
      · exact Or.inl (List.mem_cons_self ..)
      · exact Or.inr hin

theorem offerAll_dropped (h : ∀ x ∈ sub.dropped, x.event.droppable = true) :
    ∀ x ∈ (sub.offerAll Copy.event items).dropped, x.event.droppable = true := by
  induction items generalizing sub with
  | nil => exact h
  | cons c items ih => exact ih (offer_dropped h)

theorem offerAll_sinceSeq : (sub.offerAll Copy.event items).sinceSeq = sub.sinceSeq := by
  induction items generalizing sub with
  | nil => rfl
  | cons c items ih => exact (@ih (sub.offer Copy.event c)).trans offer_sinceSeq

end Offers

namespace Stream

variable {w : Wire} {persist : Bool} {s : Stream} {k i : Nat}

theorem mem_copies {recorded : List TurnEvent} {c : Copy} (h : c ∈ copies recorded) :
    ∃ i, c.place = some i ∧ recorded[i]? = some c.event := by
  obtain ⟨r, hr, rfl⟩ := List.mem_map.mp h
  exact ⟨r.2, rfl, List.mem_zipIdx_iff_getElem?.mp hr⟩

/-- Each record is replayed once. -/
theorem countP_copies {recorded : List TurnEvent} (h : i < recorded.length) :
    (copies recorded).countP (fun c => c.place == some i) = 1 := by
  unfold copies
  rw [List.countP_map]
  have hsame : ((fun c : Copy => c.place == some i) ∘ fun r : TurnEvent × Nat => ⟨some r.2, r.1⟩) =
      (fun j => j == i) ∘ Prod.snd := by
    funext r
    simp
  rw [hsame, ← List.countP_map, List.zipIdx_map_snd]
  have hcount : (List.range' 0 recorded.length).countP (fun j => j == i) =
      (List.range' 0 recorded.length).count i := rfl
  rw [hcount, List.count_eq_one_of_mem List.nodup_range']
  rw [List.mem_range'_1]
  omega

theorem genuine_mono {s' : Stream} {c : Copy} (h : s.Genuine w c)
    (hgrow : s.recorded <+: s'.recorded) : s'.Genuine w c := by
  intro i hi
  have hkeep : ∀ e, s.recorded[i]? = some e → s'.recorded[i]? = some e :=
    fun e he => by
      obtain ⟨more, hmore⟩ := hgrow
      rw [← hmore, List.getElem?_append_left (List.getElem?_eq_some_iff.mp he).1]
      exact he
  exact (h i hi).imp (hkeep _) (hkeep _)

theorem Genuine.lt {c : Copy} (h : s.Genuine w c) (hi : c.place = some i) :
    i < s.recorded.length := by
  rcases h i hi with he | he <;> exact (List.getElem?_eq_some_iff.mp he).1

theorem holds_withSub_ne {sub : Subscription Copy} {j : Nat} (h : j ≠ k) :
    (s.withSub k sub).holds j = s.holds j := by
  unfold holds withSub
  dsimp only
  rw [if_neg h]

/-- Both invariants. -/
def Sound (w : Wire) (s : Stream) : Prop := s.Wired w ∧ s.Delivering w

theorem sound_start (recorded : List TurnEvent) : (start recorded).Sound w := by
  constructor
  · exact
      { nodup := List.nodup_nil
        known := fun k hk => absurd hk List.not_mem_nil
        open_ := fun k hk => absurd hk (Nat.not_lt_zero k)
        targetsNodup := fun f hf => absurd hf List.not_mem_nil
        targetsKnown := fun f hf => absurd hf List.not_mem_nil
        flightPlace := fun f hf => absurd hf List.not_mem_nil
        unborn := fun k _ => rfl }
  · exact
      { once := fun k hk => absurd hk.1 (Nat.not_lt_zero k)
        dropped := fun k c hc => absurd hc List.not_mem_nil
        genuine := fun k c hc => absurd hc List.not_mem_nil }

theorem has_of_perm {s s' : Stream} (h : (s'.holds k).Perm (s.holds k)) : s'.has k i = s.has k i :=
  h.countP_eq _

section Publishing

variable {e : TurnEvent}

theorem recorded_publish : s.recorded <+: (s.step w persist (.publish e)).recorded := by
  show s.recorded <+: if persist then s.recorded ++ [w.stored e] else s.recorded
  split
  · exact List.prefix_append _ _
  · exact List.prefix_refl _

theorem wired_publish (hw : s.Wired w) : (s.step w persist (.publish e)).Wired w := by
  have hmem : ∀ f ∈ (s.step w persist (.publish e)).flights, f ∈ s.flights ∨
      f = ⟨⟨if persist then some s.recorded.length else none, e⟩, s.registered⟩ := by
    intro f hf
    rcases List.mem_append.mp hf with hf | hf
    · exact Or.inl hf
    · exact Or.inr (List.mem_singleton.mp hf)
  refine
    { nodup := hw.nodup
      known := hw.known
      open_ := hw.open_
      targetsNodup := fun f hf => ?_
      targetsKnown := fun f hf => ?_
      flightPlace := fun f hf => ?_
      unborn := hw.unborn }
  · rcases hmem f hf with hf | rfl
    · exact hw.targetsNodup f hf
    · exact hw.nodup
  · rcases hmem f hf with hf | rfl
    · exact hw.targetsKnown f hf
    · exact hw.known
  · rcases hmem f hf with hf | rfl
    · exact genuine_mono (hw.flightPlace f hf) recorded_publish
    · intro i hi
      cases persist with
      | false => cases hi
      | true =>
        cases hi
        right
        show (s.recorded ++ [w.stored e])[s.recorded.length]? = _
        simp

/-- The new record, if there is one, is on its way to everyone who is registered. -/
theorem inFlight_publish (hreg : k ∈ s.registered) :
    (s.step w persist (.publish e)).inFlight k i = s.inFlight k i +
      if (if persist then some s.recorded.length else none) = some i then 1 else 0 := by
  show (s.flights ++ [_]).countP _ = _
  rw [List.countP_append]
  congr 1
  rw [List.countP_singleton]
  simp [hreg]

/-- Nobody has a record that does not exist yet, and it is on its way to nobody. -/
theorem none_beyond (hw : s.Wired w) (hd : s.Delivering w) (hi : s.recorded.length ≤ i) :
    s.has k i = 0 ∧ s.inFlight k i = 0 := by
  constructor
  · refine List.countP_eq_zero.mpr fun c hc hp => ?_
    have hlt := (hd.genuine k c hc).lt (beq_iff_eq.mp hp)
    omega
  · refine List.countP_eq_zero.mpr fun f hf hp => ?_
    rw [Bool.and_eq_true] at hp
    have hlt := (hw.flightPlace f hf).lt (beq_iff_eq.mp hp.1)
    omega

theorem delivering_publish (hw : s.Wired w) (hd : s.Delivering w) :
    (s.step w persist (.publish e)).Delivering w := by
  refine
    { once := fun k hk i hi => ?_
      dropped := hd.dropped
      genuine := fun k c hc => genuine_mono (hd.genuine k c hc) recorded_publish }
  rw [inFlight_publish (hw.open_ k hk.1 hk.2.1)]
  show s.has k i + _ = 1
  by_cases hold : i < s.recorded.length
  · -- an older record
    have hne : ¬ (if persist then some s.recorded.length else none) = some i := by
      cases persist <;> simp
      omega
    rw [if_neg hne]
    exact hd.once k hk i hold
  · cases persist with
    | false => exact absurd hi hold
    | true =>
      have hlen : i < (s.recorded ++ [w.stored e]).length := hi
      rw [List.length_append, List.length_singleton] at hlen
      have hnew : i = s.recorded.length := by omega
      obtain ⟨hhas, hnone⟩ := @none_beyond w s k i hw hd (by omega)
      rw [hhas, hnone, if_pos (by rw [hnew]; rfl)]

theorem sound_publish (h : s.Sound w) : (s.step w persist (.publish e)).Sound w :=
  ⟨wired_publish h.1, delivering_publish h.1 h.2⟩

end Publishing

/-- What holds of the subscription that is put in and of the others holds of all. -/
theorem forall_withSub {p : Nat → Subscription Copy → Prop} {sub : Subscription Copy}
    (hk : p k sub) (hrest : ∀ j, j ≠ k → p j (s.subs j)) (j : Nat) :
    p j ((s.withSub k sub).subs j) := by
  show p j (if j = k then sub else s.subs j)
  by_cases hjk : j = k
  · rw [if_pos hjk, hjk]
    exact hk
  · rw [if_neg hjk]
    exact hrest j hjk

/-- The state after a flight has reached the first of its targets. -/
def delivered (s : Stream) (n k : Nat) (copy : Copy) (rest : List Nat) : Stream :=
  { s.withSub k ((s.subs k).offer Copy.event copy) with flights := s.flights.set n ⟨copy, rest⟩ }

section Delivery

variable {n : Nat} {copy : Copy} {rest : List Nat}

theorem closed_delivered (j : Nat) :
    ((s.delivered n k copy rest).subs j).closed = (s.subs j).closed :=
  forall_withSub (p := fun j sub => sub.closed = (s.subs j).closed) offer_closed
    (fun _ _ => rfl) j

theorem sinceSeq_delivered (j : Nat) :
    ((s.delivered n k copy rest).subs j).sinceSeq = (s.subs j).sinceSeq :=
  forall_withSub (p := fun j sub => sub.sinceSeq = (s.subs j).sinceSeq) offer_sinceSeq
    (fun _ _ => rfl) j

/-- What a subscription has after a delivery it had before, or it is the copy. -/
theorem mem_holds_delivered {j : Nat} {c : Copy} (h : c ∈ (s.delivered n k copy rest).holds j) :
    c = copy ∨ c ∈ s.holds j := by
  revert h
  refine @forall_withSub s k (fun j sub => c ∈ s.received j ++ (sub.queue ++ sub.dropped) →
    c = copy ∨ c ∈ s.holds j) _ (fun h => ?_) (fun _ _ h => Or.inr h) j
  rcases List.mem_append.mp h with hr | hq
  · exact Or.inr (List.mem_append_left _ hr)
  · exact (mem_offer hq).imp_right fun hin => List.mem_append_right _ hin

/-- An open subscription that is delivered to has the copy once more. -/
theorem has_delivered {j : Nat} (hopen : s.Open j) :
    (s.delivered n k copy rest).has j i =
      s.has j i + if j = k ∧ copy.place = some i then 1 else 0 := by
  by_cases hjk : j = k
  · subst hjk
    have hperm : ((s.delivered n j copy rest).holds j).Perm (copy :: s.holds j) := by
      have hsub : (s.delivered n j copy rest).subs j = (s.subs j).offer Copy.event copy :=
        if_pos rfl
      unfold holds
      rw [hsub]
      exact ((offer_wants hopen.2.1 hopen.2.2).append_left _).trans List.perm_middle
    unfold has
    rw [hperm.countP_eq, List.countP_cons]
    simp
  · have hsame : (s.delivered n k copy rest).holds j = s.holds j :=
      @holds_withSub_ne s k ((s.subs k).offer Copy.event copy) j hjk
    unfold has
    rw [hsame, if_neg fun h => hjk h.1, Nat.add_zero]

/-- And it is on its way to it once less. -/
theorem inFlight_delivered (hf : s.flights[n]? = some ⟨copy, k :: rest⟩) (hno : k ∉ rest)
    (j : Nat) : (s.delivered n k copy rest).inFlight j i +
      (if j = k ∧ copy.place = some i then 1 else 0) = s.inFlight j i := by
  obtain ⟨hn, hfn⟩ := List.getElem?_eq_some_iff.mp hf
  have hbefore : s.flights = s.flights.take n ++ ⟨copy, k :: rest⟩ :: s.flights.drop (n + 1) := by
    rw [← hfn, List.getElem_cons_drop, List.take_append_drop]
  have hafter : (s.delivered n k copy rest).flights =
      s.flights.take n ++ ⟨copy, rest⟩ :: s.flights.drop (n + 1) :=
    List.set_eq_take_append_cons_drop.trans (if_pos hn)
  unfold inFlight
  rw [hafter]
  conv_rhs => rw [hbefore]
  rw [List.countP_append, List.countP_append, List.countP_cons, List.countP_cons]
  have hone : (if (copy.place == some i && rest.contains j) = true then 1 else 0) +
      (if j = k ∧ copy.place = some i then 1 else 0) =
      if (copy.place == some i && (k :: rest).contains j) = true then 1 else 0 := by
    by_cases hp : copy.place = some i
    · by_cases hjk : j = k
      · subst hjk
        simp [hp, hno]
      · simp [hp, hjk]
    · simp [hp]
  dsimp only
  omega

end Delivery

/-- A flight reaches the first of its targets. -/
theorem sound_deliver (h : s.Sound w) (n : Nat) : (s.step w persist (.deliver n)).Sound w := by
  obtain ⟨hw, hd⟩ := h
  -- delivering a flight that is not there, or has no target left, does nothing
  cases hf : s.flights[n]? with
  | none =>
    have hstep : s.step w persist (.deliver n) = s := by
      dsimp only [step]
      rw [hf]
    rw [hstep]
    exact ⟨hw, hd⟩
  | some f =>
    obtain ⟨copy, targets⟩ := f
    cases targets with
    | nil =>
      have hstep : s.step w persist (.deliver n) = s := by
        dsimp only [step]
        rw [hf]
      rw [hstep]
      exact ⟨hw, hd⟩
    | cons k rest =>
      have hstep : s.step w persist (.deliver n) = s.delivered n k copy rest := by
        dsimp only [step]
        rw [hf]
        rfl
      -- otherwise one copy goes from the flight to its target: once in all, as before
      have hin : (⟨copy, k :: rest⟩ : Flight) ∈ s.flights := List.mem_of_getElem? hf
      have hnodup := List.nodup_cons.mp (hw.targetsNodup _ hin)
      have hmem : ∀ f ∈ (s.delivered n k copy rest).flights, f ∈ s.flights ∨ f = ⟨copy, rest⟩ :=
        fun f hf => List.mem_or_eq_of_mem_set hf
      rw [hstep]
      constructor
      · refine
          { nodup := hw.nodup
            known := hw.known
            open_ := fun j hj hopen => hw.open_ j hj ((closed_delivered j).symm.trans hopen)
            targetsNodup := fun f hf => ?_
            targetsKnown := fun f hf => ?_
            flightPlace := fun f hf => ?_
            unborn := fun j hj => ?_ }
        · rcases hmem f hf with hf | rfl
          · exact hw.targetsNodup f hf
          · exact hnodup.2
        · rcases hmem f hf with hf | rfl
          · exact hw.targetsKnown f hf
          · exact fun j hj => hw.targetsKnown _ hin j (List.mem_cons_of_mem _ hj)
        · rcases hmem f hf with hf | rfl
          · exact hw.flightPlace f hf
          · exact hw.flightPlace ⟨copy, k :: rest⟩ hin
        · have hlt : k < s.created := hw.targetsKnown _ hin k (List.mem_cons_self ..)
          have hge : s.created ≤ j := hj
          have hne : j ≠ k := by omega
          exact (@holds_withSub_ne s k ((s.subs k).offer Copy.event copy) j hne).trans
            (hw.unborn j hj)
      · refine
          { once := fun j hj i hi => ?_
            dropped := forall_withSub
              (p := fun _ sub => ∀ c ∈ sub.dropped, c.event.droppable = true)
              (offer_dropped (hd.dropped k)) fun j _ => hd.dropped j
            genuine := fun j c hc => ?_ }
        · have hopen : s.Open j :=
            ⟨hj.1, (closed_delivered j).symm.trans hj.2.1, (sinceSeq_delivered j) ▸ hj.2.2⟩
          have honce := hd.once j hopen i hi
          have hflight := @inFlight_delivered s k i n copy rest hf hnodup.1 j
          rw [has_delivered hopen]
          omega
        · show s.Genuine w c
          rcases mem_holds_delivered hc with rfl | hc
          · exact hw.flightPlace _ hin
          · exact hd.genuine j c hc

/-- The replay of a new subscription: everything, if it wants everything. -/
theorem subscribe_wants {recorded : List Copy} {sinceSeq : Int} {sinceTurn : Text} {maxQueue : Nat}
    (hall : sinceSeq < 0) :
    ((Subscription.subscribe Copy.event recorded sinceSeq sinceTurn maxQueue).queue ++
      (Subscription.subscribe Copy.event recorded sinceSeq sinceTurn maxQueue).dropped).Perm
        recorded := by
  have hafter : after Copy.event recorded sinceSeq
      (turnToResume (recorded.map Copy.event) sinceTurn) = recorded := by
    unfold after
    rw [if_pos hall]
  unfold Subscription.subscribe
  dsimp only
  rw [hafter]
  refine (offerAll_wants rfl hall).trans ?_
  show (recorded ++ ([] ++ [])).Perm recorded
  rw [List.append_nil, List.append_nil]

theorem mem_subscribe {recorded : List Copy} {sinceSeq : Int} {sinceTurn : Text} {maxQueue : Nat}
    {c : Copy}
    (h : c ∈ (Subscription.subscribe Copy.event recorded sinceSeq sinceTurn maxQueue).queue ++
      (Subscription.subscribe Copy.event recorded sinceSeq sinceTurn maxQueue).dropped) :
    c ∈ recorded := by
  unfold Subscription.subscribe at h
  rcases mem_offerAll h with hin | hin
  · unfold after at hin
    split at hin
    · exact hin
    · exact (List.mem_filter.mp hin).1
  · exact absurd hin (by simp [Subscription.new])

section Subscribing

variable {sinceSeq : Int} {sinceTurn : Text} {maxQueue : Nat}

theorem subs_subscribe (hk : k ≠ s.created) :
    (s.step w persist (.subscribe sinceSeq sinceTurn maxQueue)).subs k = s.subs k := if_neg hk

theorem subs_subscribe_new : (s.step w persist (.subscribe sinceSeq sinceTurn maxQueue)).subs
    s.created = Subscription.subscribe Copy.event (copies s.recorded) sinceSeq sinceTurn maxQueue :=
  if_pos rfl

theorem holds_subscribe (hk : k ≠ s.created) :
    (s.step w persist (.subscribe sinceSeq sinceTurn maxQueue)).holds k = s.holds k := by
  unfold holds
  rw [subs_subscribe hk]
  congr 1
  exact if_neg hk

theorem holds_subscribe_new :
    (s.step w persist (.subscribe sinceSeq sinceTurn maxQueue)).holds s.created =
      (Subscription.subscribe Copy.event (copies s.recorded) sinceSeq sinceTurn maxQueue).queue ++
        (Subscription.subscribe Copy.event (copies s.recorded) sinceSeq sinceTurn
          maxQueue).dropped := by
  have hnone : (s.step w persist (.subscribe sinceSeq sinceTurn maxQueue)).received s.created =
      [] := if_pos rfl
  unfold holds
  rw [subs_subscribe_new, hnone, List.nil_append]

theorem wired_subscribe (hw : s.Wired w) :
    (s.step w persist (.subscribe sinceSeq sinceTurn maxQueue)).Wired w := by
  refine
    { nodup := ?_
      known := fun k hk => ?_
      open_ := fun k hk hopen => ?_
      targetsNodup := hw.targetsNodup
      targetsKnown := fun f hf k hk => Nat.lt_succ_of_lt (hw.targetsKnown f hf k hk)
      flightPlace := hw.flightPlace
      unborn := fun k hk => ?_ }
  · show (s.registered ++ [s.created]).Nodup
    rw [List.nodup_append]
    refine ⟨hw.nodup, List.nodup_singleton _, fun a ha b hb => ?_⟩
    have hlt := hw.known a ha
    have hb : b = s.created := List.mem_singleton.mp hb
    omega
  · rcases List.mem_append.mp hk with hk | hk
    · exact Nat.lt_succ_of_lt (hw.known k hk)
    · rw [List.mem_singleton.mp hk]
      exact Nat.lt_succ_self _
  · show k ∈ s.registered ++ [s.created]
    by_cases hkc : k = s.created
    · exact List.mem_append_right _ (List.mem_singleton.mpr hkc)
    · have hlt : k < s.created + 1 := hk
      rw [subs_subscribe hkc] at hopen
      exact List.mem_append_left _ (hw.open_ k (by omega) hopen)
  · have hge : s.created + 1 ≤ k := hk
    rw [holds_subscribe (by omega)]
    exact hw.unborn k (by omega)

/-- A new subscription from the start has every record once, and no publish under way knows
it. -/
theorem once_subscribe_new (hw : s.Wired w)
    (hopen : (s.step w persist (.subscribe sinceSeq sinceTurn maxQueue)).Open s.created)
    (hi : i < s.recorded.length) :
    (s.step w persist (.subscribe sinceSeq sinceTurn maxQueue)).has s.created i = 1 ∧
      (s.step w persist (.subscribe sinceSeq sinceTurn maxQueue)).inFlight s.created i = 0 := by
  have hsince : sinceSeq < 0 := by
    have hall := hopen.2.2
    rw [subs_subscribe_new] at hall
    unfold Subscription.subscribe at hall
    rw [offerAll_sinceSeq] at hall
    exact hall
  constructor
  · unfold has
    rw [holds_subscribe_new, (subscribe_wants hsince).countP_eq]
    exact countP_copies hi
  · refine List.countP_eq_zero.mpr fun f hf hp => ?_
    rw [Bool.and_eq_true] at hp
    have hin : s.created ∈ f.targets := by simpa using hp.2
    exact Nat.lt_irrefl _ (hw.targetsKnown f hf _ hin)

theorem delivering_subscribe (hw : s.Wired w) (hd : s.Delivering w) :
    (s.step w persist (.subscribe sinceSeq sinceTurn maxQueue)).Delivering w := by
  refine
    { once := fun k hk i hi => ?_
      dropped := fun k => ?_
      genuine := fun k c hc => ?_ }
  · by_cases hkc : k = s.created
    · subst hkc
      obtain ⟨hhas, hnone⟩ := once_subscribe_new hw hk hi
      rw [hhas, hnone]
    · have hopen : s.Open k := by
        have hlt : k < s.created + 1 := hk.1
        have hrest := hk.2
        rw [subs_subscribe hkc] at hrest
        exact ⟨by omega, hrest⟩
      unfold has
      rw [holds_subscribe hkc]
      exact hd.once k hopen i hi
  · by_cases hkc : k = s.created
    · subst hkc
      rw [subs_subscribe_new]
      unfold Subscription.subscribe
      exact offerAll_dropped fun x hx => absurd hx List.not_mem_nil
    · rw [subs_subscribe hkc]
      exact hd.dropped k
  · show s.Genuine w c
    by_cases hkc : k = s.created
    · subst hkc
      rw [holds_subscribe_new] at hc
      obtain ⟨j, hj, hrec⟩ := mem_copies (mem_subscribe hc)
      intro i hi
      rw [hj] at hi
      cases hi
      exact Or.inl hrec
    · rw [holds_subscribe hkc] at hc
      exact hd.genuine k c hc

theorem sound_subscribe (h : s.Sound w) :
    (s.step w persist (.subscribe sinceSeq sinceTurn maxQueue)).Sound w :=
  ⟨wired_subscribe h.1, delivering_subscribe h.1 h.2⟩

end Subscribing

/-- A step that changes no more than subscriptions, keeps what they have, and opens none. -/
theorem sound_of_same {s' : Stream} (h : s.Sound w) (hrec : s'.recorded = s.recorded)
    (hcreated : s'.created = s.created) (hflights : s'.flights = s.flights)
    (hnodup : s'.registered.Nodup) (hsub : ∀ k ∈ s'.registered, k ∈ s.registered)
    (hreg : ∀ k ∈ s.registered, (s'.subs k).closed = false → k ∈ s'.registered)
    (hclosed : ∀ k, (s'.subs k).closed = false → (s.subs k).closed = false)
    (hsince : ∀ k, (s'.subs k).sinceSeq = (s.subs k).sinceSeq)
    (hdropped : ∀ k, (s'.subs k).dropped = (s.subs k).dropped)
    (hholds : ∀ k, (s'.holds k).Perm (s.holds k)) : s'.Sound w := by
  obtain ⟨hw, hd⟩ := h
  have hgenuine : ∀ c, s'.Genuine w c ↔ s.Genuine w c := by
    intro c
    unfold Genuine
    rw [hrec]
  -- what is in flight is unchanged, and what a subscription has is the same up to order
  constructor
  · refine
      { nodup := hnodup
        known := fun k hk => ?_
        open_ := fun k hk hopen => ?_
        targetsNodup := fun f hf => ?_
        targetsKnown := fun f hf => ?_
        flightPlace := fun f hf => ?_
        unborn := fun k hk => ?_ }
    · rw [hcreated]
      exact hw.known k (hsub k hk)
    · rw [hcreated] at hk
      exact hreg k (hw.open_ k hk (hclosed k hopen)) hopen
    · rw [hflights] at hf
      exact hw.targetsNodup f hf
    · rw [hflights] at hf
      rw [hcreated]
      exact hw.targetsKnown f hf
    · rw [hflights] at hf
      exact (hgenuine _).mpr (hw.flightPlace f hf)
    · rw [hcreated] at hk
      have hperm := hholds k
      rw [hw.unborn k hk] at hperm
      exact hperm.eq_nil
  · refine
      { once := fun k hk i hi => ?_
        dropped := fun k => ?_
        genuine := fun k c hc => ?_ }
    · have hopen : s.Open k :=
        ⟨hcreated ▸ hk.1, hclosed k hk.2.1, (hsince k) ▸ hk.2.2⟩
      have hlt : i < s.recorded.length := hrec ▸ hi
      have hin : s'.inFlight k i = s.inFlight k i := by
        unfold inFlight
        rw [hflights]
      rw [has_of_perm (hholds k), hin]
      exact hd.once k hopen i hlt
    · rw [hdropped k]
      exact hd.dropped k
    · exact (hgenuine c).mpr (hd.genuine k c ((hholds k).mem_iff.mp hc))

theorem sound_close (h : s.Sound w) (k : Nat) : (s.step w persist (.close k)).Sound w := by
  refine sound_of_same h rfl rfl rfl h.1.nodup (fun _ hj => hj) (fun _ hj _ => hj) ?_ ?_ ?_ ?_
  · exact forall_withSub (p := fun j sub => sub.closed = false → (s.subs j).closed = false)
      (fun hc => by cases hc) fun _ _ hc => hc
  · exact forall_withSub (p := fun j sub => sub.sinceSeq = (s.subs j).sinceSeq) rfl fun _ _ => rfl
  · exact forall_withSub (p := fun j sub => sub.dropped = (s.subs j).dropped) rfl fun _ _ => rfl
  · exact forall_withSub
      (p := fun j sub => (s.received j ++ (sub.queue ++ sub.dropped)).Perm (s.holds j))
      (List.Perm.refl _) fun _ _ => List.Perm.refl _

/-- Only a closed subscription goes from the list. -/
theorem sound_remove (h : s.Sound w) (k : Nat) : (s.step w persist (.remove k)).Sound w := by
  by_cases hc : (s.subs k).closed = true
  · have hstep : s.step w persist (.remove k) = { s with registered := s.registered.erase k } :=
      if_pos hc
    rw [hstep]
    refine sound_of_same h rfl rfl rfl (h.1.nodup.erase k) (fun _ hj => List.mem_of_mem_erase hj)
      (fun j hj hopen => ?_) (fun _ hj => hj) (fun _ => rfl) (fun _ => rfl)
      (fun _ => List.Perm.refl _)
    have hjk : j ≠ k := by
      intro heq
      subst heq
      have hopen : (s.subs j).closed = false := hopen
      rw [hc] at hopen
      cases hopen
    exact (List.mem_erase_of_ne hjk).mpr hj
  · have hstep : s.step w persist (.remove k) = s := if_neg hc
    rw [hstep]
    exact h

/-- What is drained is kept by the reader. -/
theorem sound_drain (h : s.Sound w) (k : Nat) : (s.step w persist (.drain k)).Sound w := by
  refine sound_of_same h rfl rfl rfl h.1.nodup (fun _ hj => hj) (fun _ hj _ => hj) ?_ ?_ ?_ ?_
  · exact forall_withSub (p := fun j sub => sub.closed = false → (s.subs j).closed = false)
      (fun hc => hc) fun _ _ hc => hc
  · exact forall_withSub (p := fun j sub => sub.sinceSeq = (s.subs j).sinceSeq) rfl fun _ _ => rfl
  · exact forall_withSub (p := fun j sub => sub.dropped = (s.subs j).dropped) rfl fun _ _ => rfl
  · refine forall_withSub (p := fun j sub =>
      ((if j = k then s.received k ++ (s.subs k).queue else s.received j) ++
        (sub.queue ++ sub.dropped)).Perm (s.holds j)) ?_ fun j hj => ?_
    · rw [if_pos rfl, List.append_assoc]
      exact List.Perm.refl _
    · rw [if_neg hj]
      exact List.Perm.refl _

theorem sound_step (h : s.Sound w) (a : StreamStep) : (s.step w persist a).Sound w := by
  cases a with
  | publish e => exact sound_publish h
  | deliver n => exact sound_deliver h n
  | subscribe sinceSeq sinceTurn maxQueue => exact sound_subscribe h
  | close k => exact sound_close h k
  | remove k => exact sound_remove h k
  | drain k => exact sound_drain h k

/-- Once the publishes are through, an open subscription has each record once. -/
theorem Delivering.has_of_settled (h : s.Delivering w) (hs : s.Settled) (hk : s.Open k)
    (hi : i < s.recorded.length) : s.has k i = 1 := by
  have hnone : s.inFlight k i = 0 := by
    refine List.countP_eq_zero.mpr fun f hf hp => ?_
    rw [hs f hf] at hp
    simp at hp
  have honce := h.once k hk i hi
  omega

end Stream

/-- **Every record once.** In every state of every run an open subscription from the start
has each recorded event or has it coming, once in all; it has dropped only status and
activity events; and when the publishes are through it has each. -/
theorem delivered_once (w : Wire) (persist : Bool) (recorded : List TurnEvent)
    (steps : List StreamStep) :
    Always (Stream.step w persist) (fun s => s.Delivering w ∧
      (s.Settled → ∀ k, s.Open k → ∀ i < s.recorded.length, s.has k i = 1))
      (Stream.start recorded) steps := by
  have hsound : Always (Stream.step w persist) (Stream.Sound w) (Stream.start recorded) steps :=
    always_of_along (fun s a h _ => Stream.sound_step h a) (Stream.sound_start recorded)
      (along_of_forall (fun _ _ => trivial) _ _)
  exact hsound.mono fun s h => ⟨h.2, fun hs k hk i hi => h.2.has_of_settled hs hk hi⟩

end Shamsu.Runtime
