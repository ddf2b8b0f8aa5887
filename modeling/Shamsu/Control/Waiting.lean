import Shamsu.Control.Store
import Shamsu.Lib.Run

/-!
# Waiting for a decision, among others

Callers in any number of processes wait for decisions, expire questions, raise
and answer them. `step` runs one atomic piece of one call: a transaction, or the
reading of a clock between two of them. A list of actions is an interleaving.

- `resolve_once`: a recorded decision is never changed;
- `wait_agrees_iff`: what a waiter returns is what is on record, exactly when no
  ALLOW is on record at the moment it gives up;
- `call_ends`: a wait and an expiry end, whatever the others do;
- `timely_iff`: no ALLOW is recorded or returned after the question expired,
  exactly when the answers are given, and read, in time.
-/

namespace Shamsu.Control

open Shamsu.Lib Shamsu.Py

/-- A reading of the two clocks: `datetime.now` and `time.monotonic`. -/
structure Clock where
  wall : Time
  monotonic : Time
  deriving DecidableEq, Repr

/-- Where the loop of `wait_for_decision` stands. -/
inductive WaitPoint where
  /-- About to test the deadline and `should_stop`. -/
  | testing
  /-- About to read the record. -/
  | reading
  /-- The record was unanswered, about to look whether it expired. -/
  | judging (record : Approval)
  /-- Given up, about to record the denial. -/
  | closing
  deriving DecidableEq, Repr

/-- A call by one caller. -/
inductive Call where
  | idle
  /-- `wait_for_decision`, until the deadline. -/
  | waiting (id : Text) (deadline : Time) (point : WaitPoint)
  /-- It returned this decision, at this time. -/
  | decided (id : Text) (decision : Decision) (time : Time)
  /-- `expire_approvals` with these rows to go, and the number expired. -/
  | expiring (rows : List (Text × Approval)) (expired : Nat)
  /-- It found this row overdue and is about to resolve it. -/
  | stamping (id : Text) (rows : List (Text × Approval)) (expired : Nat)
  | expired (count : Nat)
  deriving DecidableEq, Repr

/-- The store and the calls in progress. -/
structure Plane where
  approvals : Approvals
  calls : Nat → Call

namespace Plane

/-- An empty store and nobody at work. -/
def empty : Plane := { approvals := ∅, calls := fun _ => .idle }

/-- The decision on record. -/
def recorded (s : Plane) (id : Text) : Option Decision := s.approvals.recorded id

/-- Where the call of one caller stands now. -/
def setCall (s : Plane) (caller : Nat) (call : Call) : Plane :=
  { s with calls := Function.update s.calls caller call }

variable (s : Plane) {caller other : Nat} (call : Call)

@[simp] theorem calls_setCall_self : (s.setCall caller call).calls caller = call :=
  Function.update_self ..

theorem calls_setCall_ne (h : other ≠ caller) :
    (s.setCall caller call).calls other = s.calls other :=
  Function.update_of_ne h ..

end Plane

inductive Action where
  /-- `raise_approval`. -/
  | raise (id : Text) (timeout : Time) (clock : Clock)
  /-- `resolve_approval`, from any surface. -/
  | resolve (id : Text) (decision : Decision) (decidedBy : Text) (clock : Clock)
  /-- `wait_for_decision` is called. -/
  | wait (caller : Nat) (id : Text) (timeout : Time) (clock : Clock)
  /-- `expire_approvals` is called, and selects its rows. -/
  | expire (caller : Nat)
  /-- The next piece of the caller's call, with what `should_stop` says. -/
  | advance (caller : Nat) (clock : Clock) (stop : Bool)
  deriving DecidableEq, Repr

/-- One piece of `wait_for_decision`. -/
def advanceWait (t : Approvals) (id : Text) (deadline : Time) (clock : Clock) (stop : Bool) :
    WaitPoint → Approvals × Call
  | .testing =>
    if clock.monotonic < deadline && !stop then (t, .waiting id deadline .reading)
    else (t, .waiting id deadline .closing)
  | .reading =>
    match t.lookup id with
    | none => (t, .decided id .deny clock.wall)
    | some record =>
      match record.decision with
      | some d => (t, .decided id d clock.wall)
      | none => (t, .waiting id deadline (.judging record))
  | .judging record =>
    if record.expired clock.wall then (t, .waiting id deadline .closing)
    else (t, .waiting id deadline .testing)
  | .closing =>
    ((t.resolveApproval id .deny "timeout".toList clock.wall).2, .decided id .deny clock.wall)

/-- One piece of `expire_approvals`. -/
def advanceExpire (t : Approvals) (rows : List (Text × Approval)) (count : Nat) (clock : Clock) :
    Approvals × Call :=
  match rows with
  | [] => (t, .expired count)
  | (id, record) :: rows =>
    if record.expired clock.wall then (t, .stamping id rows count) else (t, .expiring rows count)

/-- The next piece of a call. -/
def advanceCall (t : Approvals) (clock : Clock) (stop : Bool) : Call → Approvals × Call
  | .waiting id deadline point => advanceWait t id deadline clock stop point
  | .expiring rows count => advanceExpire t rows count clock
  | .stamping id rows count =>
    let (won, t) := t.resolveApproval id .deny "timeout".toList clock.wall
    (t, .expiring rows (if won then count + 1 else count))
  | c => (t, c)

/-- One action. A caller takes up a call when it is idle. -/
def step (s : Plane) : Action → Plane
  | .raise id timeout clock =>
    { s with approvals := (s.approvals.raiseApproval id clock.wall timeout).getD s.approvals }
  | .resolve id d who clock =>
    { s with approvals := (s.approvals.resolveApproval id d who clock.wall).2 }
  | .wait caller id timeout clock =>
    if s.calls caller = .idle then
      s.setCall caller (.waiting id (clock.monotonic + timeout) .testing)
    else s
  | .expire caller =>
    if s.calls caller = .idle then s.setCall caller (.expiring s.approvals.unanswered 0) else s
  | .advance caller clock stop =>
    let (t, call) := advanceCall s.approvals clock stop (s.calls caller)
    { s with approvals := t }.setCall caller call

/-! ## The record -/

/-- The waiter writes when it gives up, and only then. -/
theorem advanceWait_store (t : Approvals) (id : Text) (deadline : Time) (clock : Clock)
    (stop : Bool) {point : WaitPoint} (h : point ≠ .closing) :
    (advanceWait t id deadline clock stop point).1 = t := by
  unfold advanceWait
  cases point with
  | testing => dsimp only; split <;> rfl
  | reading =>
    dsimp only
    split
    · rfl
    · split <;> rfl
  | judging record => dsimp only; split <;> rfl
  | closing => exact absurd rfl h

theorem advanceExpire_store (t : Approvals) (rows : List (Text × Approval)) (count : Nat)
    (clock : Clock) : (advanceExpire t rows count clock).1 = t := by
  unfold advanceExpire
  split
  · rfl
  · split <;> rfl

/-- **What a piece of a call writes**: nothing, or a denial. -/
theorem advanceCall_store (t : Approvals) (clock : Clock) (stop : Bool) (call : Call) :
    (advanceCall t clock stop call).1 = t ∨ ∃ id,
      (advanceCall t clock stop call).1 =
        (t.resolveApproval id .deny "timeout".toList clock.wall).2 := by
  cases call with
  | waiting id deadline point =>
    by_cases h : point = .closing
    · subst h
      exact Or.inr ⟨id, rfl⟩
    · exact Or.inl (advanceWait_store t id deadline clock stop h)
  | expiring rows count => exact Or.inl (advanceExpire_store t rows count clock)
  | stamping id rows count => exact Or.inr ⟨id, rfl⟩
  | idle => exact Or.inl rfl
  | decided id d time => exact Or.inl rfl
  | expired count => exact Or.inl rfl

/-- Whatever is done, questions stay and answered ones stay as they are. -/
theorem step_extends (s : Plane) (a : Action) : s.approvals.Extends (step s a).approvals := by
  cases a with
  | raise id timeout clock =>
    show s.approvals.Extends ((s.approvals.raiseApproval id clock.wall timeout).getD s.approvals)
    cases h : s.approvals.raiseApproval id clock.wall timeout with
    | none => exact .refl _
    | some t => exact Approvals.raiseApproval_extends h
  | resolve id d who clock => exact Approvals.resolveApproval_extends _ _ _ _ _
  | wait caller id timeout clock =>
    show s.approvals.Extends (Plane.approvals (if _ then _ else _))
    split <;> exact .refl _
  | expire caller =>
    show s.approvals.Extends (Plane.approvals (if _ then _ else _))
    split <;> exact .refl _
  | advance caller clock stop =>
    show s.approvals.Extends (advanceCall s.approvals clock stop (s.calls caller)).1
    rcases advanceCall_store s.approvals clock stop (s.calls caller) with he | ⟨id, he⟩
    · rw [he]; exact .refl _
    · rw [he]; exact Approvals.resolveApproval_extends _ _ _ _ _

theorem run_extends (s : Plane) (as : List Action) :
    s.approvals.Extends (run step s as).approvals :=
  run_keeps (R := fun s s' => Approvals.Extends s.approvals s'.approvals)
    (fun _ => .refl _) (fun _ _ _ => .trans) step_extends s as

/-! ## One waiter -/

section Waiter

variable {s : Plane} {me : Nat} {id : Text}

/-- When `me` gives up on `id`, no ALLOW is on record for it. -/
def ClosesFairly (me : Nat) (id : Text) (s : Plane) (a : Action) : Prop :=
  ∀ deadline clock stop, a = .advance me clock stop →
    s.calls me = .waiting id deadline .closing → s.recorded id ≠ some .allow

/-- The question is on record; what `me` has returned is too. -/
def Agreed (me : Nat) (id : Text) (s : Plane) : Prop :=
  (s.approvals.lookup id).isSome = true ∧
    ((∃ deadline point, s.calls me = .waiting id deadline point) ∨
      ∃ d time, s.calls me = .decided id d time ∧ s.recorded id = some d)

/-- `me` has returned a denial, and the record says ALLOW. -/
def Clashed (me : Nat) (id : Text) (s : Plane) : Prop :=
  (∃ time, s.calls me = .decided id .deny time) ∧ s.recorded id = some .allow

/-- What others do leaves the call of `me` alone. -/
theorem calls_of_not_mine {a : Action} (hbusy : s.calls me ≠ .idle)
    (h : ∀ clock stop, a ≠ .advance me clock stop) : (step s a).calls me = s.calls me := by
  -- a call is only taken up by somebody idle
  have hother : ∀ caller, s.calls caller = .idle → me ≠ caller := by
    intro caller hidle e
    rw [e] at hbusy
    exact hbusy hidle
  cases a with
  | raise id timeout clock => rfl
  | resolve id d who clock => rfl
  | wait caller id timeout clock =>
    unfold step
    dsimp only
    split
    next hidle => exact s.calls_setCall_ne _ (hother caller hidle)
    next => rfl
  | expire caller =>
    unfold step
    dsimp only
    split
    next hidle => exact s.calls_setCall_ne _ (hother caller hidle)
    next => rfl
  | advance caller clock stop =>
    exact Plane.calls_setCall_ne _ _ fun e : me = caller => h clock stop (by rw [e])

/-- What the caller's own step makes of its call. -/
theorem calls_advance (s : Plane) (me : Nat) (clock : Clock) (stop : Bool) :
    (step s (.advance me clock stop)).calls me =
      (advanceCall s.approvals clock stop (s.calls me)).2 :=
  Plane.calls_setCall_self _ _

/-- A decided call stays decided. -/
theorem decided_step {d : Decision} {time : Time} (a : Action)
    (h : s.calls me = .decided id d time) : (step s a).calls me = .decided id d time := by
  by_cases hmine : ∃ clock stop, a = .advance me clock stop
  · obtain ⟨clock, stop, rfl⟩ := hmine
    rw [calls_advance, h]
    rfl
  · rw [calls_of_not_mine (by rw [h]; simp) fun clock stop e => hmine ⟨clock, stop, e⟩]
    exact h

/-- **The step of the waiter**: with the condition it stays in agreement, and
without it there is a clash. -/
theorem agreed_step {a : Action} (h : Agreed me id s) :
    (ClosesFairly me id s a → Agreed me id (step s a)) ∧
    (¬ ClosesFairly me id s a → Clashed me id (step s a)) := by
  obtain ⟨hrow, hcall⟩ := h
  have hrow' : ((step s a).approvals.lookup id).isSome = true := by
    obtain ⟨record, hr⟩ := Option.isSome_iff_exists.mp hrow
    obtain ⟨record', hr', _⟩ := step_extends s a id record hr
    rw [hr']
    rfl
  by_cases hmine : ∃ clock stop, a = .advance me clock stop
  swap
  · -- somebody else's step
    have hbusy : s.calls me ≠ .idle := by
      rcases hcall with ⟨_, _, h⟩ | ⟨_, _, h, _⟩ <;> rw [h] <;> simp
    have hsame := calls_of_not_mine hbusy fun clock stop e => hmine ⟨clock, stop, e⟩
    refine ⟨fun _ => ⟨hrow', ?_⟩, fun hunfair => absurd ?_ hunfair⟩
    · rw [hsame]
      rcases hcall with hwait | ⟨d, time, hd, hrec⟩
      · exact Or.inl hwait
      · exact Or.inr ⟨d, time, hd, (step_extends s a).recorded hrec⟩
    · exact fun _ clock stop e _ => absurd ⟨clock, stop, e⟩ hmine
  obtain ⟨clock, stop, rfl⟩ := hmine
  have hself := calls_advance s me clock stop
  rcases hcall with ⟨deadline, point, hwait⟩ | ⟨d, time, hd, hrec⟩
  swap
  · refine ⟨fun _ => ⟨hrow', Or.inr ⟨d, time, decided_step _ hd, (step_extends s _).recorded hrec⟩⟩,
      fun hunfair => absurd ?_ hunfair⟩
    intro _ _ _ _ hclosing
    rw [hd] at hclosing
    cases hclosing
  rw [hwait] at hself
  -- every point but `closing` is harmless
  have hfair : point ≠ .closing → ClosesFairly me id s (.advance me clock stop) := by
    intro hpoint deadline' _ _ _ hclosing
    rw [hwait] at hclosing
    cases hclosing
    exact absurd rfl hpoint
  cases point with
  | testing =>
    refine ⟨fun _ => ⟨hrow', Or.inl ?_⟩, fun hunfair => absurd (hfair (by simp)) hunfair⟩
    rw [hself]
    show ∃ d p, (advanceWait s.approvals id deadline clock stop .testing).2 = _
    unfold advanceWait
    dsimp only
    split
    · exact ⟨deadline, .reading, rfl⟩
    · exact ⟨deadline, .closing, rfl⟩
  | reading =>
    refine ⟨fun _ => ⟨hrow', ?_⟩, fun hunfair => absurd (hfair (by simp)) hunfair⟩
    obtain ⟨record, hlook⟩ := Option.isSome_iff_exists.mp hrow
    rw [hself]
    cases hdec : record.decision with
    | none =>
      refine Or.inl ⟨deadline, .judging record, ?_⟩
      simp [advanceCall, advanceWait, hlook, hdec]
    | some d =>
      refine Or.inr ⟨d, clock.wall, ?_, ?_⟩
      · simp [advanceCall, advanceWait, hlook, hdec]
      · refine (step_extends s _).recorded ?_
        simp [Approvals.recorded, hlook, hdec]
  | judging record =>
    refine ⟨fun _ => ⟨hrow', Or.inl ?_⟩, fun hunfair => absurd (hfair (by simp)) hunfair⟩
    rw [hself]
    show ∃ d p, (advanceWait s.approvals id deadline clock stop (.judging record)).2 = _
    unfold advanceWait
    dsimp only
    split
    · exact ⟨deadline, .closing, rfl⟩
    · exact ⟨deadline, .testing, rfl⟩
  | closing =>
    -- the denial is on record, unless ALLOW already was
    have hrec : (step s (.advance me clock stop)).recorded id =
        some ((s.recorded id).getD .deny) := by
      show ((advanceCall s.approvals clock stop (s.calls me)).1).recorded id = _
      rw [hwait]
      exact Approvals.recorded_resolveApproval hrow
    constructor
    · intro hclose
      have hno := hclose deadline clock stop rfl hwait
      refine ⟨hrow', Or.inr ⟨.deny, clock.wall, hself, ?_⟩⟩
      rw [hrec]
      cases hd : s.recorded id with
      | none => rfl
      | some d =>
        cases d with
        | allow => exact absurd hd hno
        | deny => rfl
    · intro hunfair
      have hallow : s.recorded id = some .allow := by
        by_contra hno
        exact hunfair fun _ _ _ _ _ => hno
      refine ⟨⟨clock.wall, hself⟩, ?_⟩
      rw [hrec, hallow]
      rfl

theorem clashed_step (s : Plane) (a : Action) (h : Clashed me id s) :
    Clashed me id (step s a) := by
  obtain ⟨⟨time, hcall⟩, hrec⟩ := h
  exact ⟨⟨time, decided_step a hcall⟩, (step_extends s a).recorded hrec⟩

/-- A run of the waiter ends in agreement or in a clash. -/
theorem agreed_run {as : List Action} (h : Agreed me id s) :
    (Along step (ClosesFairly me id) s as → Agreed me id (run step s as)) ∧
    (¬ Along step (ClosesFairly me id) s as → Clashed me id (run step s as)) := by
  constructor
  · exact run_invariant (fun s a hs hP => (agreed_step hs).1 hP) h
  · intro hnot
    obtain ⟨as₁, a, as₂, rfl, hfair, hunfair⟩ := not_along_iff.mp hnot
    have hagreed : Agreed me id (run step s as₁) :=
      run_invariant (I := Agreed me id) (fun s a hs hP => (agreed_step hs).1 hP) h hfair
    rw [run_append, run_cons]
    exact run_invariant (P := fun _ _ => True) (fun s a hs _ => clashed_step s a hs)
      ((agreed_step hagreed).2 hunfair) (along_of_forall (fun _ _ => trivial) _ _)

/-- **What the waiter returns is on record**: it waits for a question that was
raised, others answer, expire and raise in between. When it has returned a
decision, this is the recorded one exactly when no ALLOW was on record at the
moment it gave up. -/
theorem wait_agrees_iff {timeout time : Time} {clock : Clock} {as : List Action} {d : Decision}
    (hrow : (s.approvals.lookup id).isSome = true) (hidle : s.calls me = .idle)
    (hdone : (run step (step s (.wait me id timeout clock)) as).calls me = .decided id d time) :
    (run step (step s (.wait me id timeout clock)) as).recorded id = some d ↔
      Along step (ClosesFairly me id) (step s (.wait me id timeout clock)) as := by
  have hstart : Agreed me id (step s (.wait me id timeout clock)) := by
    unfold step
    dsimp only
    rw [if_pos hidle]
    exact ⟨hrow, Or.inl ⟨_, _, s.calls_setCall_self _⟩⟩
  constructor
  · intro hrec
    by_contra hnot
    obtain ⟨⟨time', hcall⟩, hallow⟩ := (agreed_run hstart).2 hnot
    rw [hdone] at hcall
    cases hcall
    rw [hallow] at hrec
    cases hrec
  · intro hfair
    obtain ⟨_, ⟨_, _, hwait⟩ | ⟨d', time', hd, hrec⟩⟩ := (agreed_run hstart).1 hfair
    · rw [hdone] at hwait; cases hwait
    · rw [hdone] at hd; cases hd
      exact hrec

end Waiter

/-- A question raised, waited for and answered in time. -/
def answeredInTime : List Action :=
  [.advance 1 ⟨1, 1⟩ false, .advance 1 ⟨2, 2⟩ false, .advance 1 ⟨3, 3⟩ false,
   .resolve "q".toList .allow "cli".toList ⟨4, 4⟩,
   .advance 1 ⟨5, 5⟩ false, .advance 1 ⟨6, 6⟩ false]

/-- The store with one question, which expires at 10. -/
def oneQuestion : Plane := step .empty (.raise "q".toList 10 ⟨0, 0⟩)

/-- The theorem on a run: the answer that was read is on record. -/
theorem wait_agrees_iff_answeredInTime :
    (run step (step oneQuestion (.wait 1 "q".toList 10 ⟨0, 0⟩)) answeredInTime).recorded
        "q".toList = some .allow ↔
      Along step (ClosesFairly 1 "q".toList) (step oneQuestion (.wait 1 "q".toList 10 ⟨0, 0⟩))
        answeredInTime := by
  have hdone : (run step (step oneQuestion (.wait 1 "q".toList 10 ⟨0, 0⟩)) answeredInTime).calls 1 =
      .decided "q".toList .allow 6 := by decide
  exact wait_agrees_iff (by decide) (by decide) hdone

/-- The user answers between the last look of the waiter and its giving up. -/
def answeredLast : List Action :=
  [.advance 1 ⟨1, 1⟩ false, .advance 1 ⟨2, 2⟩ false, .advance 1 ⟨3, 3⟩ false,
   .advance 1 ⟨9, 10⟩ false, .resolve "q".toList .allow "cli".toList ⟨9, 10⟩,
   .advance 1 ⟨9, 10⟩ false]

/-- Without the condition it fails: the waiter returns DENY, on record is ALLOW. -/
theorem wait_disagrees :
    ¬ ∀ (s : Plane) (me : Nat) (id : Text) (timeout time : Time) (clock : Clock)
      (as : List Action) (d : Decision), (s.approvals.lookup id).isSome = true →
      s.calls me = .idle →
      (run step (step s (.wait me id timeout clock)) as).calls me = .decided id d time →
      (run step (step s (.wait me id timeout clock)) as).recorded id = some d := by
  intro h
  have hrec := h oneQuestion 1 "q".toList 10 9 ⟨0, 0⟩ answeredLast .deny (by decide)
    (by decide) (by decide)
  exact absurd hrec (by decide)

/-! ## Answers in time -/

section InTime

variable {s : Plane}

/-- Every ALLOW was recorded, and returned, before its question expired. -/
structure InTime (s : Plane) : Prop where
  recorded : ∀ id record, s.approvals.lookup id = some record → record.decision = some .allow →
    ∃ time, record.decidedAt = some time ∧ time < record.expiresAt
  returned : ∀ caller id time, s.calls caller = .decided id .allow time →
    ∃ record, s.approvals.lookup id = some record ∧ time < record.expiresAt

/-- An ALLOW that is given, or read by a waiter, comes before the expiry. -/
def Timely (s : Plane) : Action → Prop
  | .resolve id d _ clock => d = .allow → ∀ record, s.approvals.lookup id = some record →
      record.decision = none → clock.wall < record.expiresAt
  | .advance caller clock _ => ∀ id deadline record,
      s.calls caller = .waiting id deadline .reading → s.approvals.lookup id = some record →
      record.decision = some .allow → clock.wall < record.expiresAt
  | _ => True

/-- The row after a resolve: an old one, or the one that was answered. -/
theorem lookup_resolve {t : Approvals} {id k : Text} {d : Decision} {who : Text} {now : Time}
    {record : Approval} (h : (t.resolveApproval id d who now).2.lookup k = some record) :
    t.lookup k = some record ∨ ∃ old, k = id ∧ t.lookup id = some old ∧ old.decision = none ∧
      record = { old with decision := some d, decidedBy := who, decidedAt := some now } := by
  rcases Approvals.resolveApproval_cases t id d who now with ⟨old, hrow, hdec, he⟩ | ⟨_, he⟩
  · rw [he] at h
    by_cases hk : k = id
    · rw [hk, AList.lookup_insert] at h
      exact Or.inr ⟨old, hk, hrow, hdec, (Option.some.inj h).symm⟩
    · rw [AList.lookup_insert_ne hk] at h
      exact Or.inl h
  · rw [he] at h
    exact Or.inl h

/-- **Where an ALLOW on record comes from**: it was there, or this is the answer. -/
theorem allow_step {a : Action} {id : Text} {record : Approval}
    (h : (step s a).approvals.lookup id = some record) (hd : record.decision = some .allow) :
    s.approvals.lookup id = some record ∨ ∃ who clock old, a = .resolve id .allow who clock ∧
      s.approvals.lookup id = some old ∧ old.decision = none ∧
      record.decidedAt = some clock.wall ∧ record.expiresAt = old.expiresAt := by
  cases a with
  | raise k timeout clock =>
    have h : ((s.approvals.raiseApproval k clock.wall timeout).getD s.approvals).lookup id =
        some record := h
    unfold Approvals.raiseApproval at h
    split at h
    · exact Or.inl h
    · by_cases hk : id = k
      · -- a new question is not answered
        rw [hk, Option.getD_some, AList.lookup_insert] at h
        obtain rfl := Option.some.inj h
        cases hd
      · rw [Option.getD_some, AList.lookup_insert_ne hk] at h
        exact Or.inl h
  | resolve k d who clock =>
    rcases lookup_resolve h with h | ⟨old, rfl, hrow, hdec, rfl⟩
    · exact Or.inl h
    · obtain rfl : d = .allow := Option.some.inj hd
      exact Or.inr ⟨who, clock, old, rfl, hrow, hdec, rfl, rfl⟩
  | wait caller k timeout clock =>
    unfold step at h
    dsimp only at h
    split at h <;> exact Or.inl h
  | expire caller =>
    unfold step at h
    dsimp only at h
    split at h <;> exact Or.inl h
  | advance caller clock stop =>
    have h : (advanceCall s.approvals clock stop (s.calls caller)).1.lookup id = some record := h
    rcases advanceCall_store s.approvals clock stop (s.calls caller) with he | ⟨k, he⟩
    · rw [he] at h
      exact Or.inl h
    · rw [he] at h
      rcases lookup_resolve h with h | ⟨old, rfl, hrow, hdec, rfl⟩
      · exact Or.inl h
      · cases hd

/-- An ALLOW that a piece of a call returns was read by a waiter. -/
theorem advanceCall_allow {t : Approvals} {clock : Clock} {stop : Bool} {call : Call} {id : Text}
    {time : Time} (h : (advanceCall t clock stop call).2 = .decided id .allow time) :
    call = .decided id .allow time ∨ ∃ deadline record, call = .waiting id deadline .reading ∧
      t.lookup id = some record ∧ record.decision = some .allow ∧ time = clock.wall := by
  cases call with
  | idle => cases h
  | expired count => cases h
  | decided k d time' => exact Or.inl h
  | expiring rows count =>
    have h : (advanceExpire t rows count clock).2 = .decided id .allow time := h
    unfold advanceExpire at h
    split at h
    · cases h
    · split at h <;> cases h
  | stamping k rows count => cases h
  | waiting k deadline point =>
    have h : (advanceWait t k deadline clock stop point).2 = .decided id .allow time := h
    unfold advanceWait at h
    cases point with
    | testing => dsimp only at h; split at h <;> cases h
    | judging record => dsimp only at h; split at h <;> cases h
    | closing => cases h
    | reading =>
      dsimp only at h
      split at h
      · cases h
      next record hrow =>
        split at h
        next d hdec =>
          cases h
          exact Or.inr ⟨deadline, record, rfl, hrow, hdec, rfl⟩
        next => cases h

/-- **Where a returned ALLOW comes from**: it was returned, or this is the read. -/
theorem returned_step {a : Action} {caller : Nat} {id : Text} {time : Time}
    (h : (step s a).calls caller = .decided id .allow time) :
    s.calls caller = .decided id .allow time ∨ ∃ clock stop deadline record,
      a = .advance caller clock stop ∧ s.calls caller = .waiting id deadline .reading ∧
      s.approvals.lookup id = some record ∧ record.decision = some .allow ∧
      time = clock.wall := by
  cases a with
  | raise k timeout clock => exact Or.inl h
  | resolve k d who clock => exact Or.inl h
  | wait other k timeout clock =>
    unfold step at h
    dsimp only at h
    split at h
    · by_cases ho : caller = other
      · rw [ho, Plane.calls_setCall_self] at h; cases h
      · rw [Plane.calls_setCall_ne _ _ ho] at h
        exact Or.inl h
    · exact Or.inl h
  | expire other =>
    unfold step at h
    dsimp only at h
    split at h
    · by_cases ho : caller = other
      · rw [ho, Plane.calls_setCall_self] at h; cases h
      · rw [Plane.calls_setCall_ne _ _ ho] at h
        exact Or.inl h
    · exact Or.inl h
  | advance other clock stop =>
    by_cases ho : caller = other
    · subst ho
      rw [calls_advance] at h
      rcases advanceCall_allow h with h | ⟨deadline, record, hcall, hrow, hdec, ht⟩
      · exact Or.inl h
      · exact Or.inr ⟨clock, stop, deadline, record, rfl, hcall, hrow, hdec, ht⟩
    · have hne : (step s (.advance other clock stop)).calls caller = s.calls caller :=
        Plane.calls_setCall_ne _ _ ho
      rw [hne] at h
      exact Or.inl h

/-- **The step**: what keeps the ALLOWs in time is that the action is timely. -/
theorem inTime_step (a : Action) (h : InTime s) : Timely s a ↔ InTime (step s a) := by
  constructor
  · intro htimely
    constructor
    · intro id record hrow hd
      rcases allow_step hrow hd with hrow | ⟨who, clock, old, rfl, hold, hopen, hat, hexp⟩
      · exact h.recorded id record hrow hd
      · exact ⟨clock.wall, hat, hexp ▸ htimely rfl old hold hopen⟩
    · intro caller id time hcall
      rcases returned_step hcall with hcall | ⟨clock, stop, dl, record, rfl, hread, hrow, hd, rfl⟩
      · obtain ⟨record, hrow, ht⟩ := h.returned caller id time hcall
        obtain ⟨record', hrow', hexp, _⟩ := step_extends s a id record hrow
        exact ⟨record', hrow', hexp.symm ▸ ht⟩
      · obtain ⟨record', hrow', hexp, _⟩ := step_extends s _ id record hrow
        exact ⟨record', hrow', hexp.symm ▸ htimely id dl record hread hrow hd⟩
  · intro h'
    cases a with
    | raise k timeout clock => trivial
    | wait caller k timeout clock => trivial
    | expire caller => trivial
    | resolve id d who clock =>
      intro heq record hrow hopen
      subst heq
      have hnew : (step s (.resolve id .allow who clock)).approvals.lookup id = some
          { record with
            decision := some .allow, decidedBy := who, decidedAt := some clock.wall } := by
        show (s.approvals.resolveApproval id .allow who clock.wall).2.lookup id = _
        unfold Approvals.resolveApproval
        simp [hrow, hopen]
      obtain ⟨time, hat, ht⟩ := h'.recorded id _ hnew rfl
      cases hat
      exact ht
    | advance caller clock stop =>
      intro id deadline record hread hrow hd
      have hnew : (step s (.advance caller clock stop)).calls caller =
          .decided id .allow clock.wall := by
        rw [calls_advance, hread]
        simp [advanceCall, advanceWait, hrow, hd]
      obtain ⟨record', hrow', ht⟩ := h'.returned caller id clock.wall hnew
      obtain ⟨record'', hrow'', hexp, _⟩ := step_extends s (.advance caller clock stop) id record hrow
      obtain rfl := Option.some.inj (hrow'.symm.trans hrow'')
      rw [← hexp]
      exact ht

end InTime

theorem inTime_empty : InTime .empty :=
  ⟨fun _ _ h => by simp [Plane.empty] at h, fun _ _ _ h => by simp [Plane.empty] at h⟩

/-- **Answers are set once, and in time**: over any run from an empty store, an
answered question keeps its row, decision and all; and every ALLOW is recorded
and returned before its question expires, exactly when every ALLOW is given, and
read by a waiter, before that. -/
theorem decisions_timely_iff (as : List Action) :
    (∀ as₁ as₂ id record, as = as₁ ++ as₂ →
      (run step .empty as₁).approvals.lookup id = some record → record.decision.isSome = true →
      (run step .empty as).approvals.lookup id = some record) ∧
    (Always step InTime .empty as ↔ Along step Timely .empty as) := by
  constructor
  · intro as₁ as₂ id record heq hrow hd
    subst heq
    rw [run_append]
    obtain ⟨record', hrow', _, hsame⟩ := run_extends (run step .empty as₁) as₂ id record hrow
    rw [hrow', hsame hd]
  · exact (along_iff_always (fun s a h => inTime_step a h) inTime_empty).symm

/-- Raised at 0, expired at 10, answered at 20. -/
def answeredLate : List Action :=
  [.raise "q".toList 10 ⟨0, 0⟩, .resolve "q".toList .allow "web".toList ⟨20, 20⟩]

/-- Without the condition it fails: the late ALLOW is recorded. -/
theorem decisions_late : ¬ ∀ as : List Action, Always step InTime .empty as := by
  intro h
  have hall := always_iff.mp (h answeredLate) answeredLate (List.prefix_refl _)
  have hrow : (run step .empty answeredLate).approvals.lookup "q".toList = some
      { expiresAt := 10, decision := some .allow, decidedBy := "web".toList,
        decidedAt := some 20 } := by decide
  obtain ⟨time, hat, ht⟩ := hall.recorded _ _ hrow rfl
  cases hat
  exact absurd ht (by decide)

/-! ## Every call ends -/

/-- The pieces that are left of a call: of a late wait, and of an expiry two for each row. -/
def Call.left : Call → Nat
  | .waiting _ _ .reading => 4
  | .waiting _ _ (.judging _) => 3
  | .waiting _ _ .testing => 2
  | .waiting _ _ .closing => 1
  | .expiring rows _ => 2 * rows.length + 1
  | .stamping _ rows _ => 2 * rows.length + 2
  | _ => 0

/-- Of a wait: its deadline is over, or it is to stop. -/
def Call.Late (clock : Clock) (stop : Bool) : Call → Prop
  | .waiting _ deadline _ => deadline ≤ clock.monotonic ∨ stop = true
  | _ => True

/-- The action is a piece of this caller's call. -/
def Action.isOf (me : Nat) : Action → Bool
  | .advance caller _ _ => caller == me
  | _ => false

/-- **What a piece leaves** of a call that is late. -/
theorem advanceCall_left {t : Approvals} {clock : Clock} {stop : Bool} {c : Call}
    (hbusy : c ≠ .idle) (hlate : c.Late clock stop) :
    (advanceCall t clock stop c).2 ≠ .idle ∧ (advanceCall t clock stop c).2.left ≤ c.left - 1 ∧
      ∀ clock' stop', c.Late clock' stop' → (advanceCall t clock stop c).2.Late clock' stop' := by
  cases c with
  | idle => exact absurd rfl hbusy
  | decided id d time => exact ⟨hbusy, Nat.le_refl _, fun _ _ h => h⟩
  | expired count => exact ⟨hbusy, Nat.le_refl _, fun _ _ h => h⟩
  | stamping id rows count => exact ⟨nofun, Nat.le_refl _, fun _ _ h => h⟩
  | expiring rows count =>
    unfold advanceCall advanceExpire
    cases rows with
    | nil => exact ⟨nofun, Nat.le_refl _, fun _ _ h => h⟩
    | cons row rows =>
      dsimp only
      split
      · exact ⟨nofun, Nat.le_refl _, fun _ _ h => h⟩
      · exact ⟨nofun, Nat.le_succ _, fun _ _ h => h⟩
  | waiting id deadline point =>
    unfold advanceCall advanceWait
    cases point with
    | testing =>
      dsimp only
      split
      next hearly =>
        rw [Bool.and_eq_true, decide_eq_true_eq, Bool.not_eq_true'] at hearly
        rcases hlate with hlate | hstop
        · exact absurd hlate (Int.not_le.mpr hearly.1)
        · rw [hstop] at hearly
          cases hearly.2
      next => exact ⟨nofun, Nat.le_refl _, fun _ _ h => h⟩
    | reading =>
      dsimp only
      split
      · exact ⟨nofun, Nat.zero_le _, fun _ _ _ => trivial⟩
      · split
        · exact ⟨nofun, Nat.zero_le _, fun _ _ _ => trivial⟩
        · exact ⟨nofun, Nat.le_refl _, fun _ _ h => h⟩
    | judging record =>
      dsimp only
      split
      · exact ⟨nofun, Nat.le_succ _, fun _ _ h => h⟩
      · exact ⟨nofun, Nat.le_refl _, fun _ _ h => h⟩
    | closing => exact ⟨nofun, Nat.le_refl _, fun _ _ _ => trivial⟩

/-- **Every call ends**: whatever the others do, a wait and an expiry are over when as many of
their pieces were run as they have left, those of the wait after its deadline. -/
theorem call_ends {s : Plane} {me : Nat} (as : List Action) (hbusy : s.calls me ≠ .idle)
    (hlate : ∀ clock stop, .advance me clock stop ∈ as → (s.calls me).Late clock stop)
    (hmany : (s.calls me).left ≤ as.countP (Action.isOf me)) :
    (∃ id d time, (run step s as).calls me = .decided id d time) ∨
      ∃ count, (run step s as).calls me = .expired count := by
  induction as generalizing s with
  | nil =>
    have hnone := Nat.le_zero.mp hmany
    rw [run_nil]
    cases hcall : s.calls me with
    | idle => exact absurd hcall hbusy
    | decided id d time => exact .inl ⟨id, d, time, rfl⟩
    | expired count => exact .inr ⟨count, rfl⟩
    | expiring rows count => rw [hcall] at hnone; cases hnone
    | stamping id rows count => rw [hcall] at hnone; cases hnone
    | waiting id deadline point => rw [hcall] at hnone; cases point <;> cases hnone
  | cons a as ih =>
    rw [List.countP_cons] at hmany
    by_cases hmine : ∃ clock stop, a = .advance me clock stop
    · obtain ⟨clock, stop, rfl⟩ := hmine
      obtain ⟨hbusy', hleft, hlate'⟩ := advanceCall_left (t := s.approvals) hbusy
        (hlate clock stop List.mem_cons_self)
      have hown : Action.isOf me (.advance me clock stop) = true := beq_self_eq_true me
      rw [if_pos hown] at hmany
      refine ih ?_ (fun clock' stop' hmem => ?_) ?_ <;> rw [calls_advance]
      · exact hbusy'
      · exact hlate' _ _ (hlate clock' stop' (List.mem_cons_of_mem _ hmem))
      · omega
    · have hsame := calls_of_not_mine hbusy fun clock stop e => hmine ⟨clock, stop, e⟩
      have hother : Action.isOf me a = false := by
        cases a with
        | advance caller clock stop =>
          exact beq_false_of_ne fun e => hmine ⟨clock, stop, by rw [e]⟩
        | _ => rfl
      rw [hother, if_neg Bool.false_ne_true] at hmany
      refine ih ?_ (fun clock' stop' hmem => ?_) ?_ <;> rw [hsame]
      · exact hbusy
      · exact hlate _ _ (List.mem_cons_of_mem _ hmem)
      · exact hmany

/-- An expiry of one question, that is answered meanwhile. -/
theorem call_ends_expired :
    let s := run step .empty [.raise [] 9 ⟨0, 0⟩, .expire 1]
    let as : List Action := [.advance 1 ⟨10, 0⟩ false, .resolve [] .allow [] ⟨10, 0⟩,
      .advance 1 ⟨10, 0⟩ false, .advance 1 ⟨10, 0⟩ false]
    (∃ id d time, (run step s as).calls 1 = .decided id d time) ∨
      ∃ count, (run step s as).calls 1 = .expired count :=
  call_ends _ nofun (fun _ _ _ => trivial) (by decide)

end Shamsu.Control
