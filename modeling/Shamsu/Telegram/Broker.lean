import Shamsu.Control.Store
import Shamsu.Lib.Run

/-!
# An approval asked over Telegram

`approve` publishes a question in the control store and waits for the first
answer: from a button pressed here, which it sees in the pending entry, or from
another surface, which it sees in the store. Presses, answers from elsewhere and
`approve` itself take atomic steps in any order (`step`).

`approve_agrees`: what `approve` returns is what the store has on record, when
every button pressed here is pressed on an open question or repeats the recorded
answer, and no ALLOW is on record when `approve` gives up.
-/

namespace Shamsu.Telegram

open Shamsu.Lib Shamsu.Py Shamsu.Control

/-- An entry of `_pending`: whether the event is set, and the local answer. -/
structure Entry where
  isSet : Bool
  answer : Option Bool
  deriving DecidableEq, Repr

/-- Where `approve` stands. -/
inductive ApprovePoint where
  /-- Not called yet. -/
  | uncalled
  /-- The pending entry is made, about to raise the approval. -/
  | registered
  /-- In the loop, about to test the deadline. -/
  | testing (deadline : Time)
  /-- In `event.wait`. -/
  | listening (deadline : Time)
  /-- The event was set, about to look up the local answer. -/
  | fetching (deadline : Time)
  /-- About to read the control store. -/
  | polling (deadline : Time)
  /-- Nobody answered, about to record the denial. -/
  | closing
  /-- Decided, about to drop the pending entry. -/
  | leaving (approved : Bool)
  | returned (approved : Bool)
  /-- The approval could not be raised. -/
  | raised
  deriving DecidableEq, Repr

/-- One button press: `resolve` writes the store, then the pending entry. -/
inductive Press where
  | unpressed
  /-- The store is written, and whether this was the first answer. -/
  | written (approved won : Bool)
  /-- What `resolve` returned. -/
  | handled (result : Bool)
  deriving DecidableEq, Repr

/-- The broker of one approval: the store, `_pending`, the call and the presses. -/
structure Broker where
  approvals : Approvals
  pending : AList fun _ : Text => Entry
  approve : ApprovePoint
  presses : Nat → Press

/-- The question, and how long `approve` waits for the answer. -/
structure Question where
  id : Text
  timeout : Time

inductive Action where
  /-- The next piece of `approve`; `woken` is whether `event.wait` returns before
  its quarter of a second is over. -/
  | approve (wall monotonic : Time) (woken : Bool)
  /-- A button is pressed: `resolve` writes the store. -/
  | press (button : Nat) (approved : Bool) (wall : Time)
  /-- `resolve` goes on to write the pending entry. -/
  | settle (button : Nat)
  /-- Another surface answers this question or another one. -/
  | answer (id : Text) (decision : Decision) (surface : Text) (wall : Time)
  deriving DecidableEq, Repr

/-- `ALLOW if approved else DENY`. -/
def decisionOf (approved : Bool) : Decision := if approved then .allow else .deny

/-- The local answer of `self._pending.get(approval_id, (event, None))`. -/
def Broker.localAnswer (b : Broker) (id : Text) : Option Bool :=
  (b.pending.lookup id).bind Entry.answer

/-- One piece of `approve`. -/
def advanceApprove (q : Question) (b : Broker) (wall monotonic : Time) (woken : Bool) : Broker :=
  match b.approve with
  | .uncalled =>
    { b with
      pending := b.pending.insert q.id { isSet := false, answer := none }, approve := .registered }
  | .registered =>
    match b.approvals.raiseApproval q.id wall q.timeout with
    | some t => { b with approvals := t, approve := .testing (monotonic + q.timeout) }
    | none => { b with approve := .raised }
  | .testing deadline =>
    { b with approve := if monotonic < deadline then .listening deadline else .closing }
  | .listening deadline =>
    -- an event that is set wakes the waiter at once, one that is not never does
    match (b.pending.lookup q.id).map Entry.isSet with
    | some true => { b with approve := if woken then .fetching deadline else .polling deadline }
    | _ => { b with approve := .polling deadline }
  | .fetching deadline =>
    match b.localAnswer q.id with
    | some approved => { b with approve := .leaving approved }
    | none => { b with approve := .polling deadline }
  | .polling deadline =>
    match b.approvals.lookup q.id with
    | none => { b with approve := .closing }
    | some record =>
      match record.decision with
      | some d => { b with approve := .leaving (d == .allow) }
      | none => { b with approve := .testing deadline }
  | .closing =>
    { b with
      approvals := (b.approvals.resolveApproval q.id .deny "timeout".toList wall).2
      approve := .leaving false }
  | .leaving approved => { b with pending := b.pending.erase q.id, approve := .returned approved }
  | .returned _ => b
  | .raised => b

/-- The first half of `resolve`: the control store says who won. -/
def pressButton (q : Question) (b : Broker) (button : Nat) (approved : Bool) (wall : Time) :
    Broker :=
  let (won, t) :=
    b.approvals.resolveApproval q.id (decisionOf approved) "telegram".toList wall
  { b with approvals := t, presses := Function.update b.presses button (.written approved won) }

/-- The second half: the pending entry, whoever won. -/
def settlePress (q : Question) (b : Broker) (button : Nat) (approved won : Bool) : Broker :=
  match b.pending.lookup q.id with
  | some _ =>
    { b with
      pending := b.pending.insert q.id { isSet := true, answer := some approved }
      presses := Function.update b.presses button (.handled true) }
  | none => { b with presses := Function.update b.presses button (.handled won) }

/-- One action. -/
def step (q : Question) (b : Broker) : Action → Broker
  | .approve wall monotonic woken => advanceApprove q b wall monotonic woken
  | .press button approved wall =>
    if b.presses button = .unpressed then pressButton q b button approved wall else b
  | .settle button =>
    match b.presses button with
    | .written approved won => settlePress q b button approved won
    | _ => b
  | .answer id d surface wall =>
    { b with approvals := (b.approvals.resolveApproval id d surface wall).2 }

/-- The decision on record for the question. -/
def Broker.recorded (b : Broker) (q : Question) : Option Decision := b.approvals.recorded q.id

/-! ## Agreement -/

section Agreement

variable {q : Question} {b : Broker}

/-- Buttons are pressed on a published question that is open or has the same
answer already, and no ALLOW is on record when `approve` gives up. -/
def Heeded (q : Question) (b : Broker) : Action → Prop
  | .press _ approved _ => (b.approvals.lookup q.id).isSome = true ∧
      ∀ d, b.recorded q = some d → d = decisionOf approved
  | .approve _ _ _ => b.approve = .closing → b.recorded q ≠ some .allow
  | _ => True

/-- The question is in the store, and not answered by `approve` yet. -/
def ApprovePoint.isPublished : ApprovePoint → Bool
  | .testing _ | .listening _ | .fetching _ | .polling _ | .closing => true
  | _ => false

/-- The answer `approve` is about to give, or gave. -/
def ApprovePoint.answer : ApprovePoint → Option Bool
  | .leaving approved | .returned approved => some approved
  | _ => none

/-- Every answer the broker holds is the recorded one. -/
structure Truthful (q : Question) (b : Broker) : Prop where
  published : b.approve.isPublished = true → (b.approvals.lookup q.id).isSome = true
  pressed : ∀ button approved won, b.presses button = .written approved won →
    b.recorded q = some (decisionOf approved)
  pending : ∀ approved, b.localAnswer q.id = some approved →
    b.recorded q = some (decisionOf approved)
  answered : ∀ approved, b.approve.answer = some approved →
    b.recorded q = some (decisionOf approved)

/-- The store only grows. -/
theorem step_extends (q : Question) (b : Broker) (a : Action) :
    b.approvals.Extends (step q b a).approvals := by
  cases a with
  | approve wall monotonic woken =>
    show b.approvals.Extends (advanceApprove q b wall monotonic woken).approvals
    unfold advanceApprove
    split
    · exact .refl _
    · split
      next t ht => exact Approvals.raiseApproval_extends ht
      next => exact .refl _
    · exact .refl _
    · split <;> exact .refl _
    · split <;> exact .refl _
    · split
      · exact .refl _
      · split <;> exact .refl _
    · exact Approvals.resolveApproval_extends _ _ _ _ _
    · exact .refl _
    · exact .refl _
    · exact .refl _
  | press button approved wall =>
    unfold step
    dsimp only
    split
    · exact Approvals.resolveApproval_extends _ _ _ _ _
    · exact .refl _
  | settle button =>
    unfold step
    dsimp only
    split
    · unfold settlePress
      split <;> exact .refl _
    · exact .refl _
  | answer id d surface wall => exact Approvals.resolveApproval_extends _ _ _ _ _

theorem lookup_isSome_of_extends {t t' : Approvals} {id : Text} (h : t.Extends t')
    (hrow : (t.lookup id).isSome = true) : (t'.lookup id).isSome = true := by
  obtain ⟨record, hr⟩ := Option.isSome_iff_exists.mp hrow
  obtain ⟨record', hr', _⟩ := h id record hr
  rw [hr']
  rfl

/-- A step of `approve` that writes no entry of `_pending`: what is left to show
is that the question is there and the answer is recorded. -/
theorem Truthful.advance {b' : Broker} (h : Truthful q b) (hgrow : b.approvals.Extends b'.approvals)
    (hpresses : b'.presses = b.presses)
    (hlocal : ∀ approved, b'.localAnswer q.id = some approved → b.localAnswer q.id = some approved)
    (hpublished : b'.approve.isPublished = true → (b'.approvals.lookup q.id).isSome = true)
    (hanswer : ∀ approved, b'.approve.answer = some approved →
      b'.recorded q = some (decisionOf approved)) : Truthful q b' where
  published := hpublished
  pressed := fun button approved won hp =>
    hgrow.recorded (h.pressed button approved won (hpresses ▸ hp))
  pending := fun approved hp => hgrow.recorded (h.pending approved (hlocal approved hp))
  answered := hanswer

theorem decisionOf_beq (d : Decision) : decisionOf (d == .allow) = d := by
  cases d <;> rfl

theorem advanceApprove_truthful {wall monotonic : Time} {woken : Bool} (h : Truthful q b)
    (hheeded : b.approve = .closing → b.recorded q ≠ some .allow) :
    Truthful q (advanceApprove q b wall monotonic woken) := by
  have hgrow := step_extends q b (.approve wall monotonic woken)
  have hgrow : b.approvals.Extends (advanceApprove q b wall monotonic woken).approvals := hgrow
  -- the points before an answer only need the question to be there
  have hmove : ∀ point, point.answer = none →
      (point.isPublished = true → (b.approvals.lookup q.id).isSome = true) →
      Truthful q { b with approve := point } := by
    intro point hno hpub
    refine h.advance (.refl _) rfl (fun _ hl => hl) hpub fun approved ha => ?_
    rw [hno] at ha
    cases ha
  unfold advanceApprove at hgrow ⊢
  split
  next hpoint =>
    rw [hpoint] at hgrow
    refine h.advance hgrow rfl ?_ (fun hp => by cases hp) fun _ ha => by cases ha
    intro approved ha
    simp [Broker.localAnswer] at ha
  next hpoint =>
    split
    next t ht =>
      refine h.advance (Approvals.raiseApproval_extends ht) rfl (fun _ hl => hl) (fun _ => ?_)
        fun _ ha => by cases ha
      unfold Approvals.raiseApproval at ht
      split at ht
      · cases ht
      · cases ht
        simp
    next => exact hmove .raised rfl fun hp => by cases hp
  next deadline hpoint =>
    have hrow := h.published (by rw [hpoint]; rfl)
    split
    · exact hmove (.listening deadline) rfl fun _ => hrow
    · exact hmove .closing rfl fun _ => hrow
  next deadline hpoint =>
    have hrow := h.published (by rw [hpoint]; rfl)
    split
    · split
      · exact hmove (.fetching deadline) rfl fun _ => hrow
      · exact hmove (.polling deadline) rfl fun _ => hrow
    · exact hmove (.polling deadline) rfl fun _ => hrow
  next deadline hpoint =>
    have hrow := h.published (by rw [hpoint]; rfl)
    split
    next approved hlocal =>
      refine h.advance (.refl _) rfl (fun _ hl => hl) (fun hp => by cases hp) fun approved' ha => ?_
      obtain rfl : approved = approved' := Option.some.inj ha
      exact h.pending approved hlocal
    next => exact hmove (.polling deadline) rfl fun _ => hrow
  next deadline hpoint =>
    have hrow := h.published (by rw [hpoint]; rfl)
    split
    next hnone => rw [hnone] at hrow; cases hrow
    next record hlook =>
      split
      next d hd =>
        refine h.advance (.refl _) rfl (fun _ hl => hl) (fun hp => by cases hp) fun approved ha => ?_
        obtain rfl : (d == .allow) = approved := Option.some.inj ha
        show (b.approvals.lookup q.id).bind Approval.decision = _
        rw [hlook, decisionOf_beq]
        exact hd
      next => exact hmove (.testing deadline) rfl fun _ => hrow
  next hpoint =>
    have hrow := h.published (by rw [hpoint]; rfl)
    rw [hpoint] at hgrow
    refine h.advance hgrow rfl (fun _ hl => hl) (fun hp => by cases hp) fun approved ha => ?_
    obtain rfl : false = approved := Option.some.inj ha
    -- the denial is on record: the question was open, or denied already
    show Approvals.recorded _ q.id = some .deny
    rw [Approvals.recorded_resolveApproval hrow]
    have hno := hheeded hpoint
    unfold Broker.recorded at hno
    cases hd : b.approvals.recorded q.id with
    | none => rfl
    | some d =>
      cases d with
      | allow => exact absurd hd hno
      | deny => rfl
  next approved hpoint =>
    refine h.advance (.refl _) rfl ?_ (fun hp => by cases hp) fun approved' ha => ?_
    · intro approved' ha
      simp [Broker.localAnswer] at ha
    · obtain rfl : approved = approved' := Option.some.inj ha
      exact h.answered approved (by rw [hpoint]; rfl)
  next => exact h
  next => exact h

theorem pressButton_truthful {button : Nat} {approved : Bool} {wall : Time} (h : Truthful q b)
    (hrow : (b.approvals.lookup q.id).isSome = true)
    (hsame : ∀ d, b.recorded q = some d → d = decisionOf approved) :
    Truthful q (pressButton q b button approved wall) := by
  have hgrow : b.approvals.Extends (pressButton q b button approved wall).approvals :=
    Approvals.resolveApproval_extends _ _ _ _ _
  have hrec : (pressButton q b button approved wall).recorded q = some (decisionOf approved) := by
    show Approvals.recorded _ q.id = _
    unfold pressButton
    rw [Approvals.recorded_resolveApproval hrow]
    cases hd : b.approvals.recorded q.id with
    | none => rfl
    | some d => exact congrArg some (hsame d hd)
  refine ⟨fun hp => lookup_isSome_of_extends hgrow (h.published hp), ?_,
    fun a ha => hgrow.recorded (h.pending a ha), fun a ha => hgrow.recorded (h.answered a ha)⟩
  intro other a won hother
  by_cases hb : other = button
  · subst hb
    have hself : (pressButton q b other approved wall).presses other =
        .written approved (b.approvals.resolveApproval q.id (decisionOf approved)
          "telegram".toList wall).1 := Function.update_self ..
    rw [hself] at hother
    cases hother
    exact hrec
  · have hne : (pressButton q b button approved wall).presses other = b.presses other :=
      Function.update_of_ne hb ..
    rw [hne] at hother
    exact hgrow.recorded (h.pressed other a won hother)

theorem settlePress_truthful {button : Nat} {approved won : Bool} (h : Truthful q b)
    (hpress : b.presses button = .written approved won) :
    Truthful q (settlePress q b button approved won) := by
  have hrec := h.pressed button approved won hpress
  -- the press is over, the others are as they were
  have hpressed : ∀ result other a w,
      Function.update b.presses button (.handled result) other = .written a w →
      b.recorded q = some (decisionOf a) := by
    intro result other a w hother
    by_cases hb : other = button
    · rw [hb, Function.update_self] at hother; cases hother
    · rw [Function.update_of_ne hb] at hother
      exact h.pressed other a w hother
  unfold settlePress
  split
  next entry hentry =>
    refine ⟨h.published, hpressed true, fun a ha => ?_, h.answered⟩
    have hlocal : some approved = some a := by simpa [Broker.localAnswer] using ha
    obtain rfl := Option.some.inj hlocal
    exact hrec
  next => exact ⟨h.published, hpressed won, h.pending, h.answered⟩

/-- **The step**: heeded actions keep every answer the recorded one. -/
theorem step_truthful {a : Action} (h : Truthful q b) (hheeded : Heeded q b a) :
    Truthful q (step q b a) := by
  cases a with
  | approve wall monotonic woken => exact advanceApprove_truthful h hheeded
  | press button approved wall =>
    unfold step
    dsimp only
    split
    · exact pressButton_truthful h hheeded.1 hheeded.2
    · exact h
  | settle button =>
    unfold step
    dsimp only
    split
    next approved won hpress => exact settlePress_truthful h hpress
    next => exact h
  | answer id d surface wall =>
    have hgrow : b.approvals.Extends (step q b (.answer id d surface wall)).approvals :=
      Approvals.resolveApproval_extends _ _ _ _ _
    exact ⟨fun hp => lookup_isSome_of_extends hgrow (h.published hp),
      fun button a won hp => hgrow.recorded (h.pressed button a won hp),
      fun a ha => hgrow.recorded (h.pending a ha), fun a ha => hgrow.recorded (h.answered a ha)⟩

/-- The call has not begun and its id is new to the broker. -/
structure IsFresh (q : Question) (b : Broker) : Prop where
  uncalled : b.approve = .uncalled
  unpressed : ∀ button, b.presses button = .unpressed
  unregistered : b.pending.lookup q.id = none

/-- **`approve` returns what the store has on record**, in any order of presses,
answers from elsewhere and its own steps in which every action is heeded. -/
theorem approve_agrees {as : List Action} {approved : Bool} (hfresh : IsFresh q b)
    (hheeded : Along (step q) (Heeded q) b as)
    (hreturned : (run (step q) b as).approve = .returned approved) :
    approved = true ↔ (run (step q) b as).recorded q = some .allow := by
  have hstart : Truthful q b := by
    refine ⟨fun hp => ?_, fun button a won hp => ?_, fun a ha => ?_, fun a ha => ?_⟩
    · rw [hfresh.uncalled] at hp; cases hp
    · rw [hfresh.unpressed] at hp; cases hp
    · unfold Broker.localAnswer at ha
      rw [hfresh.unregistered] at ha
      cases ha
    · rw [hfresh.uncalled] at ha; cases ha
  have hend : Truthful q (run (step q) b as) :=
    run_invariant (I := Truthful q) (fun _ _ h hP => step_truthful h hP) hstart hheeded
  have hrec := hend.answered approved (by rw [hreturned]; rfl)
  rw [hrec]
  cases approved <;> simp [decisionOf]

end Agreement

/-- A broker with nothing in it. -/
def Broker.idle : Broker :=
  { approvals := ∅, pending := ∅, approve := .uncalled, presses := fun _ => .unpressed }

theorem idle_isFresh (q : Question) : IsFresh q .idle := ⟨rfl, fun _ => rfl, rfl⟩

def firewall : Question := { id := "q".toList, timeout := 900 }

/-- Asked, and allowed by the button. -/
def pressedOnce : List Action :=
  [.approve 0 0 false, .approve 0 0 false, .approve 1 1 false, .press 1 true 2, .settle 1,
   .approve 3 3 true, .approve 3 3 false, .approve 3 3 false]

/-- The theorem on a run: the button allowed it, and so does the record. -/
theorem approve_agrees_pressedOnce :
    (true = true ↔ (run (step firewall) .idle pressedOnce).recorded firewall = some .allow) := by
  refine approve_agrees (idle_isFresh firewall) ?_ (by decide)
  refine ⟨fun h => ?_, fun h => ?_, fun h => ?_, ⟨by decide, fun d h => ?_⟩, trivial,
    fun h => ?_, fun h => ?_, fun h => ?_, trivial⟩
  · exact absurd h (by decide)
  · exact absurd h (by decide)
  · exact absurd h (by decide)
  · exact absurd h (by revert d; decide)
  · exact absurd h (by decide)
  · exact absurd h (by decide)
  · exact absurd h (by decide)

/-- The terminal denies, then the button is pressed. -/
def pressedTooLate : List Action :=
  [.approve 0 0 false, .approve 0 0 false, .approve 1 1 false,
   .answer "q".toList .deny "cli".toList 2, .press 1 true 3, .settle 1,
   .approve 4 4 true, .approve 4 4 false, .approve 4 4 false]

/-- Without the condition it fails: `approve` returns True, on record is DENY. -/
theorem approve_overrules :
    ¬ ∀ (q : Question) (b : Broker) (as : List Action) (approved : Bool), IsFresh q b →
      (run (step q) b as).approve = .returned approved →
      (approved = true ↔ (run (step q) b as).recorded q = some .allow) := by
  intro h
  have hiff := h firewall .idle pressedTooLate true (idle_isFresh firewall) (by decide)
  exact absurd (hiff.mp rfl) (by decide)

end Shamsu.Telegram
