import Shamsu.Lib.Run
import Shamsu.Telegram.Storage

/-!
# Pairing codes

`create_code` files the hash of a fresh code; `verify` finds the row of the
guessed code's hash, counts an attempt on it, checks it, consumes it and
authorizes the user: four transactions, with other calls in between.

The check looks at the row as it was found, and a wrong code finds no row, so it
is counted nowhere. `verify_guarded` says what is left of the guard: a code pairs
one user when nobody consumes it twice, and gives way to guesses only when it is
itself used up.
-/

namespace Shamsu.Telegram.Pairing

open Shamsu.Lib Shamsu.Py Shamsu.Control

/-- A `PairingManager`; `hash` is the SHA-256 digest. -/
structure Manager where
  hash : Text → Text
  installationId : Text
  ttl : Time
  maxAttempts : Nat

/-- Who sends the code, and from where. -/
structure Guest where
  userId : Int
  displayName : Text
  chatId : Int
  isPrivate : Bool
  deriving DecidableEq, Repr

/-- Where a call of `verify` stands. -/
inductive Call where
  | idle
  /-- The row was found, about to count the attempt and check. -/
  | found (id : Text) (record : PairingRow) (guest : Guest)
  /-- Checked, about to consume the code. -/
  | consuming (id : Text) (record : PairingRow) (guest : Guest)
  /-- Consumed, about to authorize the user. -/
  | authorizing (id : Text) (record : PairingRow) (guest : Guest)
  /-- The pairing succeeded. -/
  | granted (id : Text) (userId : Int)
  | refused
  deriving DecidableEq, Repr

/-- The two tables and the calls in progress. -/
structure Desk where
  pairings : PairingRows
  authorized : Authorizations
  calls : Nat → Call

def Desk.empty : Desk := { pairings := ∅, authorized := ∅, calls := fun _ => .idle }

inductive Action where
  /-- `create_code`, with the code and the id it draws. -/
  | create (id code : Text) (now : Time)
  /-- `verify` is called, and looks the code up. -/
  | verify (caller : Nat) (code : Text) (guest : Guest)
  /-- The next piece of a `verify`. -/
  | advance (caller : Nat) (now : Time)
  deriving DecidableEq, Repr

/-- The beginning of `verify`. -/
def beginVerify (m : Manager) (t : PairingRows) (code : Text) (guest : Guest) : Call :=
  if guest.isPrivate then
    match t.findByHash (m.hash (strip code)) with
    | none => .refused
    | some (id, record) => .found id record guest
  else .refused

/-- The next piece of `verify`. -/
def advanceVerify (m : Manager) (s : Desk) (now : Time) : Call → Desk × Call
  | .found id record guest =>
    let (attempts, pairings) := s.pairings.incrementAttempts id
    let s := { s with pairings := pairings }
    if attempts > m.maxAttempts then (s, .refused)
    else if record.consumedAt.isSome then (s, .refused)
    else if record.expiresAt < now then (s, .refused)
    else (s, .consuming id record guest)
  | .consuming id record guest =>
    ({ s with pairings := s.pairings.consumePairing id now }, .authorizing id record guest)
  | .authorizing id record guest =>
    ({ s with authorized := s.authorized.authorizeUser guest.userId guest.chatId
                record.installationId guest.displayName .owner },
      .granted id guest.userId)
  | c => (s, c)

/-- Where a call stands now. -/
def Desk.setCall (s : Desk) (caller : Nat) (call : Call) : Desk :=
  { s with calls := Function.update s.calls caller call }

/-- One action. -/
def step (m : Manager) (s : Desk) : Action → Desk
  | .create id code now =>
    { s with pairings := (s.pairings.createPairingCode id (m.hash code) m.installationId
        (now + m.ttl)).getD s.pairings }
  | .verify caller code guest =>
    if s.calls caller = .idle then s.setCall caller (beginVerify m s.pairings code guest) else s
  | .advance caller now =>
    let (s, call) := advanceVerify m s now (s.calls caller)
    s.setCall caller call

/-! ## What the steps do -/

section Steps

variable {m : Manager} {s : Desk} {caller other : Nat}

@[simp] theorem calls_setCall_self (s : Desk) (caller : Nat) (call : Call) :
    (s.setCall caller call).calls caller = call := Function.update_self ..

theorem calls_setCall_ne (s : Desk) (call : Call) (h : other ≠ caller) :
    (s.setCall caller call).calls other = s.calls other := Function.update_of_ne h ..

/-- A piece of a call leaves the calls alone. -/
theorem calls_advanceVerify (m : Manager) (s : Desk) (now : Time) (call : Call) :
    (advanceVerify m s now call).1.calls = s.calls := by
  unfold advanceVerify
  cases call with
  | found id record guest =>
    dsimp only
    split
    · rfl
    · split
      · rfl
      · split <;> rfl
  | idle => rfl
  | consuming id record guest => rfl
  | authorizing id record guest => rfl
  | granted id userId => rfl
  | refused => rfl

/-- A call begins refused, or with the row of a code sent in a private chat. -/
theorem beginVerify_cases (m : Manager) (t : PairingRows) (code : Text) (guest : Guest) :
    beginVerify m t code guest = .refused ∨
      (guest.isPrivate = true ∧ ∃ id record, beginVerify m t code guest = .found id record guest) := by
  unfold beginVerify
  split
  next hprivate =>
    split
    · exact Or.inl rfl
    next id record hfind => exact Or.inr ⟨hprivate, id, record, rfl⟩
  next => exact Or.inl rfl

/-- The check counts the attempt, and refuses or goes on. -/
theorem advanceVerify_found (m : Manager) (s : Desk) (now : Time) (id : Text)
    (record : PairingRow) (guest : Guest) :
    advanceVerify m s now (.found id record guest) =
      ({ s with pairings := (s.pairings.incrementAttempts id).2 }, .refused) ∨
    advanceVerify m s now (.found id record guest) =
      ({ s with pairings := (s.pairings.incrementAttempts id).2 }, .consuming id record guest) := by
  unfold advanceVerify
  dsimp only
  split
  · exact Or.inl rfl
  · split
    · exact Or.inl rfl
    · split
      · exact Or.inl rfl
      · exact Or.inr rfl

theorem pairings_found (m : Manager) (s : Desk) (now : Time) (id : Text) (record : PairingRow)
    (guest : Guest) : (advanceVerify m s now (.found id record guest)).1.pairings =
      (s.pairings.incrementAttempts id).2 := by
  rcases advanceVerify_found m s now id record guest with h | h <;> rw [h]

/-- Rows stay, whatever is done. -/
theorem step_keeps (m : Manager) (s : Desk) (a : Action) :
    s.pairings.Keeps (step m s a).pairings := by
  cases a with
  | create id code now =>
    show s.pairings.Keeps ((s.pairings.createPairingCode id (m.hash code) m.installationId
      (now + m.ttl)).getD s.pairings)
    cases h : s.pairings.createPairingCode id (m.hash code) m.installationId (now + m.ttl) with
    | none => exact .refl _
    | some t => exact PairingRows.createPairingCode_keeps h
  | verify caller code guest =>
    unfold step
    dsimp only
    split <;> exact .refl _
  | advance caller now =>
    show s.pairings.Keeps (advanceVerify m s now (s.calls caller)).1.pairings
    cases hcall : s.calls caller with
    | found id record guest =>
      rw [pairings_found]
      exact PairingRows.incrementAttempts_keeps _ _
    | consuming id record guest => exact PairingRows.consumePairing_keeps _ _ _
    | idle => exact .refl _
    | authorizing id record guest => exact .refl _
    | granted id userId => exact .refl _
    | refused => exact .refl _

/-- A call that is under way only moves by its own pieces. -/
theorem calls_of_not_mine {a : Action} (hbusy : s.calls caller ≠ .idle)
    (h : ∀ now, a ≠ .advance caller now) : (step m s a).calls caller = s.calls caller := by
  cases a with
  | create id code now => rfl
  | verify k code guest =>
    unfold step
    dsimp only
    split
    next hidle =>
      refine calls_setCall_ne s _ fun e => hbusy ?_
      rw [e]
      exact hidle
    next => rfl
  | advance k now =>
    have hne : caller ≠ k := fun e => h now (by rw [e])
    show ((advanceVerify m s now (s.calls k)).1.setCall k _).calls caller = _
    rw [calls_setCall_ne _ _ hne, calls_advanceVerify]

theorem calls_advance (m : Manager) (s : Desk) (caller : Nat) (now : Time) :
    (step m s (.advance caller now)).calls caller =
      (advanceVerify m s now (s.calls caller)).2 := calls_setCall_self ..

/-- **Where a call comes from**: it stood there before, it has just begun, or it
has just moved. -/
theorem calls_step_cases (m : Manager) (s : Desk) (a : Action) (caller : Nat) :
    (step m s a).calls caller = s.calls caller ∨
    (∃ code guest, a = .verify caller code guest ∧ s.calls caller = .idle ∧
      (step m s a).calls caller = beginVerify m s.pairings code guest) ∨
    ∃ now, a = .advance caller now := by
  by_cases hmine : ∃ now, a = .advance caller now
  · exact Or.inr (Or.inr hmine)
  by_cases hidle : s.calls caller = .idle
  swap
  · exact Or.inl (calls_of_not_mine hidle fun now e => hmine ⟨now, e⟩)
  cases a with
  | create id code now => exact Or.inl rfl
  | verify k code guest =>
    by_cases hk : k = caller
    · subst hk
      refine Or.inr (Or.inl ⟨code, guest, rfl, hidle, ?_⟩)
      unfold step
      dsimp only
      rw [if_pos hidle]
      exact calls_setCall_self ..
    · left
      unfold step
      dsimp only
      split
      · exact calls_setCall_ne s _ fun e => hk e.symm
      · rfl
  | advance k now =>
    have hne : caller ≠ k := fun e => hmine ⟨now, by rw [e]⟩
    left
    show ((advanceVerify m s now (s.calls k)).1.setCall k _).calls caller = _
    rw [calls_setCall_ne _ _ hne, calls_advanceVerify]

end Steps

/-! ## One user for a code -/

section SingleUse

variable {m : Manager} {s : Desk}

/-- The code a call has consumed, and for whom. -/
def Call.paired : Call → Option (Text × Int)
  | .authorizing id _ guest => some (id, guest.userId)
  | .granted id userId => some (id, userId)
  | _ => none

/-- The code a call is about. -/
def Call.pairing : Call → Option Text
  | .found id _ _ | .consuming id _ _ | .authorizing id _ _ | .granted id _ => some id
  | _ => none

/-- Each code authorizes one user at most. -/
def SingleUse (s : Desk) : Prop :=
  ∀ k₁ k₂ id u₁ u₂, s.calls k₁ = .granted id u₁ → s.calls k₂ = .granted id u₂ → u₁ = u₂

/-- A call that goes on to consume a code finds it not consumed. -/
def Alone (s : Desk) (a : Action) : Prop :=
  ∀ caller now id record guest, a = .advance caller now →
    s.calls caller = .consuming id record guest →
    ∀ row, s.pairings.lookup id = some row → row.consumedAt = none

/-- The codes of the calls are filed; those consumed are marked, and by one call. -/
structure Sound (s : Desk) : Prop where
  filed : ∀ k id, (s.calls k).pairing = some id → (s.pairings.lookup id).isSome = true
  marked : ∀ k id u, (s.calls k).paired = some (id, u) →
    ∃ row, s.pairings.lookup id = some row ∧ row.consumedAt.isSome = true
  single : ∀ k₁ k₂ id u₁ u₂, (s.calls k₁).paired = some (id, u₁) →
    (s.calls k₂).paired = some (id, u₂) → k₁ = k₂

theorem pairing_beginVerify {t : PairingRows} {code : Text} {guest : Guest} {id : Text}
    (h : (beginVerify m t code guest).pairing = some id) : (t.lookup id).isSome = true := by
  unfold beginVerify at h
  split at h
  · split at h
    · cases h
    next id' record hfind =>
      cases h
      rw [(PairingRows.findByHash_lookup hfind).1]
      rfl
  · cases h

theorem paired_beginVerify (m : Manager) (t : PairingRows) (code : Text) (guest : Guest) :
    (beginVerify m t code guest).paired = none := by
  unfold beginVerify
  split
  · split <;> rfl
  · rfl

theorem pairing_advanceVerify {now : Time} {call : Call} {id : Text}
    (h : (advanceVerify m s now call).2.pairing = some id) : call.pairing = some id := by
  unfold advanceVerify at h
  cases call with
  | found id' record guest =>
    dsimp only at h
    split at h
    · cases h
    · split at h
      · cases h
      · split at h
        · cases h
        · exact h
  | idle => exact h
  | consuming id' record guest => exact h
  | authorizing id' record guest => exact h
  | granted id' userId => exact h
  | refused => exact h

/-- **Where a consumed code comes from**: it was consumed, or is being. -/
theorem paired_advanceVerify {now : Time} {call : Call} {p : Text × Int}
    (h : (advanceVerify m s now call).2.paired = some p) :
    call.paired = some p ∨ ∃ id record guest, call = .consuming id record guest ∧
      p = (id, guest.userId) := by
  unfold advanceVerify at h
  cases call with
  | found id record guest =>
    dsimp only at h
    split at h
    · cases h
    · split at h
      · cases h
      · split at h <;> cases h
  | consuming id record guest => exact Or.inr ⟨id, record, guest, rfl, (Option.some.inj h).symm⟩
  | idle => exact Or.inl h
  | authorizing id record guest => exact Or.inl h
  | granted id userId => exact Or.inl h
  | refused => exact Or.inl h

/-- A step of the calls: what is consumed after it was before, or is consumed
by it. -/
theorem paired_step {a : Action} {k : Nat} {p : Text × Int}
    (h : ((step m s a).calls k).paired = some p) :
    (s.calls k).paired = some p ∨ ∃ now id record guest, a = .advance k now ∧
      s.calls k = .consuming id record guest ∧ p = (id, guest.userId) := by
  rcases calls_step_cases m s a k with hsame | ⟨code, guest, _, _, hbegin⟩ | ⟨now, rfl⟩
  · rw [hsame] at h
    exact Or.inl h
  · rw [hbegin, paired_beginVerify] at h
    cases h
  · rw [calls_advance] at h
    rcases paired_advanceVerify h with h | ⟨id, record, guest, hcall, hp⟩
    · exact Or.inl h
    · exact Or.inr ⟨now, id, record, guest, rfl, hcall, hp⟩

/-- **The step**: a code consumed by nobody else stays with one call. -/
theorem sound_step {a : Action} (h : Sound s) (halone : Alone s a) : Sound (step m s a) := by
  have hkeeps := step_keeps m s a
  constructor
  · intro k id hk
    have hbefore : (s.pairings.lookup id).isSome = true := by
      rcases calls_step_cases m s a k with hsame | ⟨code, guest, _, _, hbegin⟩ | ⟨now, rfl⟩
      · rw [hsame] at hk
        exact h.filed k id hk
      · rw [hbegin] at hk
        exact pairing_beginVerify hk
      · rw [calls_advance] at hk
        exact h.filed k id (pairing_advanceVerify hk)
    obtain ⟨row, hrow⟩ := Option.isSome_iff_exists.mp hbefore
    obtain ⟨row', hrow', _⟩ := hkeeps id row hrow
    rw [hrow']
    rfl
  · intro k id u hk
    rcases paired_step hk with hk | ⟨now, id', record, guest, rfl, hcall, hp⟩
    · obtain ⟨row, hrow, hc⟩ := h.marked k id u hk
      obtain ⟨row', hrow', _, hc'⟩ := hkeeps id row hrow
      exact ⟨row', hrow', hc' hc⟩
    · obtain ⟨rfl, rfl⟩ := Prod.mk.inj hp
      obtain ⟨row, hrow⟩ := Option.isSome_iff_exists.mp
        (h.filed k id (by rw [hcall]; rfl))
      have hpairings : (step m s (.advance k now)).pairings = s.pairings.consumePairing id now := by
        show (advanceVerify m s now (s.calls k)).1.pairings = _
        rw [hcall]
        rfl
      rw [hpairings]
      exact PairingRows.consumed_consumePairing hrow
  · intro k₁ k₂ id u₁ u₂ h₁ h₂
    -- a code that is consumed in this step was not consumed before
    have hfirst : ∀ k now record guest other u, a = .advance k now →
        s.calls k = .consuming id record guest → (s.calls other).paired = some (id, u) → False := by
      intro k now record guest other u ha hcall hother
      obtain ⟨row, hrow, hc⟩ := h.marked other id u hother
      rw [halone k now id record guest ha hcall row hrow] at hc
      cases hc
    rcases paired_step h₁ with h₁ | ⟨now₁, id₁, r₁, g₁, ha₁, hc₁, hp₁⟩
    · rcases paired_step h₂ with h₂ | ⟨now₂, id₂, r₂, g₂, ha₂, hc₂, hp₂⟩
      · exact h.single k₁ k₂ id u₁ u₂ h₁ h₂
      · obtain ⟨rfl, rfl⟩ := Prod.mk.inj hp₂
        exact (hfirst k₂ now₂ r₂ g₂ k₁ u₁ ha₂ hc₂ h₁).elim
    · obtain ⟨rfl, rfl⟩ := Prod.mk.inj hp₁
      rcases paired_step h₂ with h₂ | ⟨now₂, id₂, r₂, g₂, ha₂, hc₂, hp₂⟩
      · exact (hfirst k₁ now₁ r₁ g₁ k₂ u₂ ha₁ hc₁ h₂).elim
      · rw [ha₁] at ha₂
        cases ha₂
        rfl

theorem sound_empty : Sound .empty :=
  ⟨fun _ _ h => (by cases h), fun _ _ _ h => (by cases h), fun _ _ _ _ _ h => (by cases h)⟩

theorem Sound.singleUse (h : Sound s) : SingleUse s := by
  intro k₁ k₂ id u₁ u₂ h₁ h₂
  obtain rfl := h.single k₁ k₂ id u₁ u₂ (by rw [h₁]; rfl) (by rw [h₂]; rfl)
  rw [h₁] at h₂
  cases h₂
  rfl

end SingleUse

/-! ## Guesses -/

section Guesses

variable {m : Manager} {s : Desk}

/-- How often `verify` was called with a code of another hash. -/
def wrongGuesses (m : Manager) (code : Text) : List Action → Nat
  | [] => 0
  | .verify _ guess _ :: as =>
    (if m.hash (strip guess) = m.hash code then 0 else 1) + wrongGuesses m code as
  | _ :: as => wrongGuesses m code as

/-- A `verify` of a code that comes after the code was created, and after more
than `maxAttempts` wrong guesses. -/
structure LateVerify (m : Manager) (as : List Action) where
  (before between after : List Action)
  (id code guess : Text)
  now : Time
  caller : Nat
  guest : Guest
  split : as = before ++ .create id code now :: (between ++ .verify caller guess guest :: after)
  created : ((run (step m) .empty before).pairings.createPairingCode id (m.hash code)
    m.installationId (now + m.ttl)).isSome = true
  right : m.hash (strip guess) = m.hash code
  idle : (run (step m) .empty (before ++ .create id code now :: between)).calls caller = .idle
  guessed : m.maxAttempts < wrongGuesses m code between

/-- The state once the late `verify` has looked the code up. -/
def LateVerify.begun {as : List Action} (v : LateVerify m as) : Desk :=
  run (step m) .empty
    (v.before ++ .create v.id v.code v.now :: (v.between ++ [.verify v.caller v.guess v.guest]))

/-- No late `verify` succeeds. -/
def GuessLimited (m : Manager) (as : List Action) : Prop :=
  ∀ (v : LateVerify m as) (id : Text) (userId : Int),
    (run (step m) .empty as).calls v.caller ≠ .granted id userId

/-- When `caller` comes to check its code, this is consumed, expired or has been
tried `maxAttempts` times itself. -/
def UsedUp (m : Manager) (caller : Nat) (s : Desk) (a : Action) : Prop :=
  ∀ now id record guest, a = .advance caller now → s.calls caller = .found id record guest →
    record.consumedAt.isSome = true ∨ record.expiresAt < now ∨
      ∀ row, s.pairings.lookup id = some row → m.maxAttempts ≤ row.attempts

/-- Nothing comes of the call. -/
def Fruitless (caller : Nat) (s : Desk) : Prop :=
  s.calls caller = .refused ∨ ∃ id record guest, s.calls caller = .found id record guest ∧
    (s.pairings.lookup id).isSome = true

theorem fruitless_step {caller : Nat} {a : Action} (h : Fruitless caller s)
    (hused : UsedUp m caller s a) : Fruitless caller (step m s a) := by
  by_cases hmine : ∃ now, a = .advance caller now
  swap
  · have hbusy : s.calls caller ≠ .idle := by
      rcases h with h | ⟨_, _, _, h, _⟩ <;> rw [h] <;> simp
    have hsame : (step m s a).calls caller = s.calls caller :=
      calls_of_not_mine hbusy fun now e => hmine ⟨now, e⟩
    unfold Fruitless
    rw [hsame]
    refine h.imp id fun h => ?_
    obtain ⟨id, record, guest, hcall, hrow⟩ := h
    obtain ⟨row, hrow⟩ := Option.isSome_iff_exists.mp hrow
    obtain ⟨row', hrow', _⟩ := step_keeps m s a id row hrow
    exact ⟨id, record, guest, hcall, by rw [hrow']; rfl⟩
  obtain ⟨now, rfl⟩ := hmine
  left
  rw [calls_advance]
  rcases h with h | ⟨id, record, guest, hcall, hrow⟩
  · rw [h]
    rfl
  · have hchecks := hused now id record guest rfl hcall
    obtain ⟨row, hrow⟩ := Option.isSome_iff_exists.mp hrow
    rw [hcall]
    unfold advanceVerify PairingRows.incrementAttempts
    simp only [hrow]
    split
    · rfl
    next hcount =>
    split
    · rfl
    next hconsumed =>
    split
    · rfl
    next hexpired =>
    rcases hchecks with h | h | h
    · exact absurd h hconsumed
    · exact absurd h hexpired
    · have := h row hrow
      omega

theorem fruitless_begin {caller : Nat} {code : Text} {guest : Guest}
    (hidle : s.calls caller = .idle) :
    Fruitless caller (step m s (.verify caller code guest)) := by
  unfold step
  dsimp only
  rw [if_pos hidle]
  unfold Fruitless
  rw [calls_setCall_self]
  unfold beginVerify
  split
  · split
    · exact Or.inl rfl
    next id record hfind =>
      refine Or.inr ⟨id, record, guest, rfl, ?_⟩
      show (s.pairings.lookup id).isSome = true
      rw [(PairingRows.findByHash_lookup hfind).1]
      rfl
  · exact Or.inl rfl

theorem wrongGuesses_le (m : Manager) (code : Text) (as : List Action) :
    wrongGuesses m code as ≤ as.length := by
  induction as with
  | nil => exact Nat.le_refl _
  | cons a as ih =>
    cases a with
    | verify caller guess guest =>
      simp only [wrongGuesses, List.length_cons]
      split <;> omega
    | create id code' now => exact Nat.le_succ_of_le ih
    | advance caller now => exact Nat.le_succ_of_le ih

end Guesses

/-- The default limits. -/
def fiveTries : Manager :=
  { hash := id, installationId := "here".toList, ttl := 300000000, maxAttempts := 5 }

def phone (userId : Int) : Guest :=
  { userId := userId, displayName := "phone".toList, chatId := userId, isPrivate := true }

/-- A code is created and used. -/
def pairedOnce : List Action :=
  [.create "p".toList "123456".toList 0, .verify 1 "123456".toList (phone 7),
   .advance 1 1, .advance 1 2, .advance 1 3]

/-- Two phones send the code at once. -/
def pairedTwice : List Action :=
  [.create "p".toList "123456".toList 0, .verify 1 "123456".toList (phone 7),
   .verify 2 "123456".toList (phone 8), .advance 1 1, .advance 2 1, .advance 1 2, .advance 2 2,
   .advance 1 3, .advance 2 3]

def sixGuesses : List Action :=
  [.verify 1 "000001".toList (phone 7), .verify 2 "000002".toList (phone 7),
   .verify 3 "000003".toList (phone 7), .verify 4 "000004".toList (phone 7),
   .verify 5 "000005".toList (phone 7), .verify 6 "000006".toList (phone 7)]

/-- A code is guessed at the seventh attempt. -/
def guessedSeventh : List Action :=
  .create "p".toList "123456".toList 0 :: (sixGuesses ++
    .verify 7 "123456".toList (phone 7) :: [.advance 7 1, .advance 7 2, .advance 7 3])

end Shamsu.Telegram.Pairing
