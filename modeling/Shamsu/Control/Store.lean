import Shamsu.Py.Text

/-!
# The control store

One small database that several processes agree through: approvals (a question
exactly one surface may answer) and leases (who is running a slot). Each
function here is one transaction, so it is a function of the table; what other
processes do in between is the business of the modules that run them.

The rule for approvals is `Extends`: a transaction adds questions and answers
unanswered ones, and an answered one stays as it is.
-/

namespace Shamsu.Control

open Shamsu.Py

/-- A reading of a clock, in microseconds. -/
abbrev Time := Int

/-! ## Approvals -/

/-- `ALLOW` and `DENY`. -/
inductive Decision where
  | allow | deny
  deriving DecidableEq, Repr

/-- A row of `approvals`; an unanswered one has no decision. -/
structure Approval where
  expiresAt : Time
  decision : Option Decision
  decidedBy : Text
  decidedAt : Option Time
  deriving DecidableEq, Repr

/-- The table, by `approval_id`. -/
abbrev Approvals := AList fun _ : Text => Approval

/-- `_expired`. -/
def Approval.expired (record : Approval) (now : Time) : Bool :=
  if record.decision.isSome then false else decide (record.expiresAt ≤ now)

namespace Approvals

/-- `raise_approval`: `none` when the id is taken (the insert fails). -/
def raiseApproval (t : Approvals) (id : Text) (created timeout : Time) : Option Approvals :=
  if (t.lookup id).isSome then none
  else some (t.insert id
    { expiresAt := created + timeout, decision := none, decidedBy := [], decidedAt := none })

/-- `resolve_approval`: an update of the row if it is unanswered, and whether
there was such a row. -/
def resolveApproval (t : Approvals) (id : Text) (decision : Decision) (decidedBy : Text)
    (now : Time) : Bool × Approvals :=
  match t.lookup id with
  | some record =>
    if record.decision.isNone then
      (true, t.insert id
        { record with decision := some decision, decidedBy := decidedBy, decidedAt := some now })
    else (false, t)
  | none => (false, t)

/-- The rows `expire_approvals` selects. -/
def unanswered (t : Approvals) : List (Text × Approval) :=
  (t.entries.map fun e => (e.1, e.2)).filter fun e => e.2.decision.isNone

/-- The decision on record. -/
def recorded (t : Approvals) (id : Text) : Option Decision :=
  (t.lookup id).bind Approval.decision

variable {t t' : Approvals} {id : Text} {record : Approval}

/-- Questions stay, with their expiry, and answered ones stay as they are. -/
def Extends (t t' : Approvals) : Prop :=
  ∀ id record, t.lookup id = some record → ∃ record', t'.lookup id = some record' ∧
    record'.expiresAt = record.expiresAt ∧ (record.decision.isSome = true → record' = record)

theorem Extends.refl (t : Approvals) : Extends t t :=
  fun _ record h => ⟨record, h, rfl, fun _ => rfl⟩

theorem Extends.trans {a b c : Approvals} (h₁ : Extends a b) (h₂ : Extends b c) :
    Extends a c := by
  intro id record h
  obtain ⟨r₁, hr₁, he₁, hd₁⟩ := h₁ id record h
  obtain ⟨r₂, hr₂, he₂, hd₂⟩ := h₂ id r₁ hr₁
  refine ⟨r₂, hr₂, he₂.trans he₁, fun hd => ?_⟩
  have hr : r₁ = record := hd₁ hd
  subst hr
  exact hd₂ hd

/-- What is on record stays on record. -/
theorem Extends.recorded {d : Decision} (h : Extends t t') (hd : t.recorded id = some d) :
    t'.recorded id = some d := by
  unfold Approvals.recorded at hd ⊢
  obtain ⟨record, hrow, hdec⟩ := Option.bind_eq_some_iff.mp hd
  obtain ⟨record', hrow', _, hsame⟩ := h id record hrow
  rw [hrow', hsame (by rw [hdec]; rfl)]
  exact hdec

theorem raiseApproval_extends {created timeout : Time}
    (h : t.raiseApproval id created timeout = some t') : Extends t t' := by
  unfold raiseApproval at h
  split at h
  · cases h
  next hfree =>
    cases h
    intro k record hk
    have hne : k ≠ id := by
      intro e
      rw [← e, hk] at hfree
      exact hfree rfl
    exact ⟨record, by rw [AList.lookup_insert_ne hne]; exact hk, rfl, fun _ => rfl⟩

/-- The two things a resolve can do. -/
theorem resolveApproval_cases (t : Approvals) (id : Text) (d : Decision) (who : Text)
    (now : Time) :
    (∃ record, t.lookup id = some record ∧ record.decision = none ∧
      t.resolveApproval id d who now = (true, t.insert id
        { record with decision := some d, decidedBy := who, decidedAt := some now })) ∨
    ((∀ record, t.lookup id = some record → record.decision ≠ none) ∧
      t.resolveApproval id d who now = (false, t)) := by
  unfold resolveApproval
  cases hrow : t.lookup id with
  | none => exact Or.inr ⟨fun _ h => by simp at h, rfl⟩
  | some record =>
    dsimp only
    cases hdec : record.decision with
    | none => exact Or.inl ⟨record, rfl, hdec, by simp⟩
    | some d' =>
      refine Or.inr ⟨fun r hr => ?_, by simp⟩
      obtain rfl := Option.some.inj hr
      rw [hdec]
      simp

theorem resolveApproval_extends (t : Approvals) (id : Text) (d : Decision) (who : Text)
    (now : Time) : Extends t (t.resolveApproval id d who now).2 := by
  rcases resolveApproval_cases t id d who now with ⟨record, hrow, hdec, he⟩ | ⟨_, he⟩
  · rw [he]
    intro k r hk
    by_cases hkid : k = id
    · subst hkid
      obtain rfl := Option.some.inj (hrow.symm.trans hk)
      exact ⟨_, AList.lookup_insert _, rfl, fun h => by rw [hdec] at h; cases h⟩
    · exact ⟨r, by rw [AList.lookup_insert_ne hkid]; exact hk, rfl, fun _ => rfl⟩
  · rw [he]
    exact Extends.refl t

/-- After a resolve the question is answered: as told if it was open, and as
before if it was not. -/
theorem recorded_resolveApproval {d : Decision} {who : Text} {now : Time}
    (hrow : (t.lookup id).isSome = true) :
    (t.resolveApproval id d who now).2.recorded id = some ((t.recorded id).getD d) := by
  rcases resolveApproval_cases t id d who now with ⟨record, hlook, hdec, he⟩ | ⟨hall, he⟩
  · rw [he]
    simp [recorded, hlook, hdec]
  · rw [he]
    obtain ⟨record, hlook⟩ := Option.isSome_iff_exists.mp hrow
    have hdec := hall record hlook
    obtain ⟨d', hd'⟩ := Option.ne_none_iff_exists'.mp hdec
    simp [recorded, hlook, hd']

end Approvals

/-! ## Leases -/

/-- `LEASE_STALE_SECONDS`. -/
def leaseStale : Time := 90000000

/-- A row of `leases`. -/
structure Lease where
  ownerPid : Nat
  ownerSurface : Text
  heartbeat : Time
  deriving DecidableEq, Repr

/-- The table, by workspace and session. -/
abbrev Leases := AList fun _ : Text × Text => Lease

/-- `_lease_is_live`; `alive` is what `_pid_alive` finds. -/
def Lease.isLive (lease : Lease) (alive : Nat → Bool) (now : Time) : Bool :=
  alive lease.ownerPid && decide (now - lease.heartbeat ≤ leaseStale)

namespace Leases

/-- `acquire_lease`, re-entrant. -/
def acquireLease (t : Leases) (slot : Text × Text) (pid : Nat) (surface : Text)
    (alive : Nat → Bool) (now : Time) : Bool × Leases :=
  match t.lookup slot with
  | some lease =>
    if lease.isLive alive now && lease.ownerPid != pid then (false, t)
    else (true, t.insert slot { ownerPid := pid, ownerSurface := surface, heartbeat := now })
  | none => (true, t.insert slot { ownerPid := pid, ownerSurface := surface, heartbeat := now })

/-- `renew_lease`. -/
def renewLease (t : Leases) (slot : Text × Text) (pid : Nat) (now : Time) : Bool × Leases :=
  match t.lookup slot with
  | some lease =>
    if lease.ownerPid = pid then (true, t.insert slot { lease with heartbeat := now }) else (false, t)
  | none => (false, t)

/-- `release_lease`. -/
def releaseLease (t : Leases) (slot : Text × Text) (pid : Nat) : Bool × Leases :=
  match t.lookup slot with
  | some lease => if lease.ownerPid = pid then (true, t.erase slot) else (false, t)
  | none => (false, t)

/-- Who holds the slot. -/
def owner (t : Leases) (slot : Text × Text) : Option Nat :=
  (t.lookup slot).map Lease.ownerPid

variable {t : Leases} {slot : Text × Text} {pid : Nat}

/-- A claim is refused by a live lease of another process, and else makes the
claimant the owner. -/
theorem acquireLease_cases (t : Leases) (slot : Text × Text) (pid : Nat) (surface : Text)
    (alive : Nat → Bool) (now : Time) :
    (∃ lease, t.lookup slot = some lease ∧ lease.isLive alive now = true ∧
      lease.ownerPid ≠ pid ∧ t.acquireLease slot pid surface alive now = (false, t)) ∨
    ((∀ lease, t.lookup slot = some lease → lease.ownerPid = pid ∨ lease.isLive alive now = false) ∧
      t.acquireLease slot pid surface alive now =
        (true, t.insert slot { ownerPid := pid, ownerSurface := surface, heartbeat := now })) := by
  unfold acquireLease
  cases hrow : t.lookup slot with
  | none => exact Or.inr ⟨fun _ h => by simp at h, rfl⟩
  | some lease =>
    dsimp only
    split
    next h =>
      simp only [Bool.and_eq_true, bne_iff_ne] at h
      exact Or.inl ⟨lease, rfl, h.1, h.2, rfl⟩
    next h =>
      refine Or.inr ⟨fun l hl => ?_, rfl⟩
      obtain rfl := Option.some.inj hl
      by_cases hpid : lease.ownerPid = pid
      · exact Or.inl hpid
      · exact Or.inr (by simpa [hpid] using h)

theorem owner_renewLease (t : Leases) (slot : Text × Text) (pid : Nat) (now : Time) :
    (t.renewLease slot pid now).2.owner slot = t.owner slot := by
  unfold renewLease owner
  cases hrow : t.lookup slot with
  | none => simp [hrow]
  | some lease =>
    dsimp only
    split
    · simp
    · simp [hrow]

/-- A lease can be renewed by its owner only. -/
theorem renewLease_fst (t : Leases) (slot : Text × Text) (pid : Nat) (now : Time) :
    (t.renewLease slot pid now).1 = true ↔ t.owner slot = some pid := by
  unfold renewLease owner
  cases hrow : t.lookup slot with
  | none => simp
  | some lease =>
    dsimp only
    split <;> simp_all

end Leases

end Shamsu.Control
