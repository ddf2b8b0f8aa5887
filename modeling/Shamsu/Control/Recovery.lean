import Shamsu.Control.Queue

/-!
# Leases of many processes

Mutual exclusion of leases over all interleavings (`leases_exclusive`), and what
`recover_interrupted` leaves running. It asks whether the thread of a running
prompt has a live lease, not whose, and `finish` asks nothing: that a prompt
still running belongs to the holder of the lease, and that a closed one stays as
it is, is kept by the steps that are `Tidy`.
-/

namespace Shamsu.Control

open Shamsu.Lib Shamsu.Py

namespace Leases

variable {t : Leases} {slot slot' : Text × Text} {pid : Nat}

theorem lookup_renewLease_ne {now : Time} {lease : Lease} (h : t.lookup slot' = some lease)
    (hne : lease.ownerPid ≠ pid) : (t.renewLease slot pid now).2.lookup slot' = some lease := by
  unfold renewLease
  cases hrow : t.lookup slot with
  | none => exact h
  | some l =>
    dsimp only
    split
    next hpid =>
      have : slot' ≠ slot := by
        intro heq
        subst heq
        rw [h] at hrow
        obtain rfl := Option.some.inj hrow
        exact hne hpid
      rw [AList.lookup_insert_ne this]
      exact h
    next => exact h

theorem lookup_releaseLease_ne {lease : Lease} (h : t.lookup slot' = some lease)
    (hne : lease.ownerPid ≠ pid) : (t.releaseLease slot pid).2.lookup slot' = some lease := by
  unfold releaseLease
  cases hrow : t.lookup slot with
  | none => exact h
  | some l =>
    dsimp only
    split
    next hpid =>
      have : slot' ≠ slot := by
        intro heq
        subst heq
        rw [h] at hrow
        obtain rfl := Option.some.inj hrow
        exact hne hpid
      rw [AList.lookup_erase_ne this]
      exact h
    next => exact h

/-- A heartbeat changes no owner. -/
theorem renewLease_owner (t : Leases) (slot slot' : Text × Text) (pid : Nat) (now : Time) :
    (t.renewLease slot pid now).2.owner slot' = t.owner slot' := by
  by_cases he : slot' = slot
  · rw [he, owner_renewLease]
  · unfold renewLease
    cases hrow : t.lookup slot with
    | none => rfl
    | some lease =>
      dsimp only
      split
      · unfold owner
        rw [AList.lookup_insert_ne he]
      · rfl

/-- A renewed lease was there before. -/
theorem lookup_renewLease {now : Time} {lease : Lease}
    (h : (t.renewLease slot pid now).2.lookup slot' = some lease) :
    ∃ lease', t.lookup slot' = some lease' ∧ lease'.ownerPid = lease.ownerPid := by
  have hown := renewLease_owner t slot slot' pid now
  unfold owner at hown
  rw [h] at hown
  exact Option.map_eq_some_iff.mp hown.symm

theorem lookup_releaseLease {lease : Lease}
    (h : (t.releaseLease slot pid).2.lookup slot' = some lease) : t.lookup slot' = some lease := by
  unfold releaseLease at h
  cases hrow : t.lookup slot with
  | none =>
    rw [hrow] at h
    exact h
  | some l =>
    rw [hrow] at h
    dsimp only at h
    split at h
    · by_cases he : slot' = slot
      · rw [he, AList.lookup_erase] at h
        cases h
      · rwa [AList.lookup_erase_ne he] at h
    · exact h

end Leases

namespace Shared

variable {s : Shared} {a : StoreAction}

/-! ## Exclusion -/

/-- The process has a live lease on the slot, by this reading of the machine. -/
def Holds (s : Shared) (slot : Text × Text) (pid : Nat) (alive : Nat → Bool) (now : Time) :
    Prop :=
  ∃ lease, s.leases.lookup slot = some lease ∧ lease.ownerPid = pid ∧
    lease.isLive alive now = true

/-- A lease is taken from another process only when it is not live, and renewed
and released by its owner only. -/
def Respects (s : Shared) : StoreAction → Prop
  | .acquireLease slot pid surface reentrant alive now =>
    (s.leases.acquire slot pid surface reentrant alive now).1 = true →
      ∀ lease, s.leases.lookup slot = some lease → lease.ownerPid ≠ pid →
        lease.isLive alive now = false
  | a@(.renewLease _ pid _) | a@(.releaseLease _ pid) =>
    ∀ slot lease, s.leases.lookup slot = some lease → lease.ownerPid ≠ pid →
      (s.step a).leases.lookup slot = some lease
  | _ => True

theorem respects (s : Shared) (a : StoreAction) : s.Respects a := by
  cases a with
  | acquireLease slot pid surface reentrant alive now =>
    intro hok lease hlease hne
    rcases Leases.acquire_cases s.leases slot pid surface reentrant alive now with
      ⟨_, _, _, _, he⟩ | ⟨hfree, _⟩
    · rw [he] at hok
      cases hok
    · exact (hfree lease hlease).resolve_left fun h => hne h.1
  | renewLease => exact fun slot lease h hne => Leases.lookup_renewLease_ne h hne
  | releaseLease => exact fun slot lease h hne => Leases.lookup_releaseLease_ne h hne
  | _ => trivial

/-- **One holder**: over any interleaving and any readings, a lease passes to
another process only when it is not live, nobody touches the lease of another,
and nowhere are there two holders of one slot. -/
theorem leases_exclusive (s : Shared) (as : List StoreAction) :
    Along step Respects s as ∧
    Always step (fun s => ∀ slot pid pid' alive now, s.Holds slot pid alive now →
      s.Holds slot pid' alive now → pid = pid') s as := by
  refine ⟨along_of_forall respects _ _, always_iff.mpr fun _ _ => ?_⟩
  intro slot pid pid' alive now h hsome
  obtain ⟨lease, hlease, rfl, _⟩ := h
  obtain ⟨lease', hlease', rfl, _⟩ := hsome
  rw [hlease] at hlease'
  rw [Option.some.inj hlease']

/-! ## What is still running -/

/-- The claimant of a running prompt owns the lease of its thread, if there is one. -/
def Owned (s : Shared) : Prop :=
  ∀ r ∈ s.queue.rows, r.status = .running → ∀ lease, s.leases.lookup r.thread = some lease →
    lease.ownerPid = r.claimedBy

/-- A lease is taken, or a prompt claimed, only where no prompt of another
process is running; and only a prompt that is not closed is finished. -/
def Tidy (s : Shared) : StoreAction → Prop
  | .acquireLease slot pid _ reentrant alive now =>
    (∃ lease ∈ s.leases.lookup slot, lease.isLive alive now = true ∧
      (lease.ownerPid ≠ pid ∨ reentrant = false)) ∨
    ∀ r ∈ s.queue.rows, r.thread = slot → r.status = .running → r.claimedBy = pid
  | .claimNext thread pid => ∀ lease ∈ s.leases.lookup thread, lease.ownerPid = pid
  | .finish id outcome => ∀ r ∈ s.queue.row id, r.status.rank = 2 → r.status = outcome.status
  | _ => True

instance (s : Shared) : (a : StoreAction) → Decidable (s.Tidy a)
  | .acquireLease slot pid _ reentrant alive now =>
    inferInstanceAs (Decidable ((∃ lease ∈ s.leases.lookup slot, lease.isLive alive now = true ∧
      (lease.ownerPid ≠ pid ∨ reentrant = false)) ∨
      ∀ r ∈ s.queue.rows, r.thread = slot → r.status = .running → r.claimedBy = pid))
  | .claimNext thread pid =>
    inferInstanceAs (Decidable (∀ lease ∈ s.leases.lookup thread, lease.ownerPid = pid))
  | .finish id outcome =>
    inferInstanceAs (Decidable (∀ r ∈ s.queue.row id, r.status.rank = 2 → r.status = outcome.status))
  | .renewLease .. | .releaseLease .. | .enqueue .. | .cancelQueued .. | .recoverInterrupted .. =>
    inferInstanceAs (Decidable True)

/-- A lease was there before, of the same owner, or is the one just taken. -/
theorem step_lease {slot : Text × Text} {lease : Lease}
    (h : (s.step a).leases.lookup slot = some lease) :
    (∃ lease', s.leases.lookup slot = some lease' ∧ lease'.ownerPid = lease.ownerPid) ∨
      ∃ surface reentrant alive now,
        a = .acquireLease slot lease.ownerPid surface reentrant alive now ∧
        ∀ lease', s.leases.lookup slot = some lease' →
          (lease'.ownerPid = lease.ownerPid ∧ reentrant = true) ∨
            lease'.isLive alive now = false := by
  cases a with
  | acquireLease slot' pid surface reentrant alive now =>
    have h : (s.leases.acquire slot' pid surface reentrant alive now).2.lookup slot = some lease := h
    rcases Leases.acquire_cases s.leases slot' pid surface reentrant alive now with
      ⟨_, _, _, _, he⟩ | ⟨hfree, he⟩
    · rw [he] at h
      exact Or.inl ⟨lease, h, rfl⟩
    · rw [he] at h
      by_cases hslot : slot = slot'
      · rw [hslot, AList.lookup_insert] at h
        obtain rfl := Option.some.inj h
        subst hslot
        exact Or.inr ⟨surface, reentrant, alive, now, rfl, hfree⟩
      · rw [AList.lookup_insert_ne hslot] at h
        exact Or.inl ⟨lease, h, rfl⟩
  | renewLease slot' pid now => exact Or.inl (Leases.lookup_renewLease h)
  | releaseLease slot' pid => exact Or.inl ⟨lease, Leases.lookup_releaseLease h, rfl⟩
  | recoverInterrupted pid includeOwn alive now =>
    have h : (s.leases.prune _).lookup slot = some lease := h
    rw [Leases.lookup_prune] at h
    exact Or.inl ⟨lease, (Option.filter_eq_some_iff.mp h).1, rfl⟩
  | enqueue | claimNext | finish | cancelQueued => exact Or.inl ⟨lease, h, rfl⟩

/-- A running prompt was running before, or is the one just claimed. -/
theorem step_running {r : QueuedPrompt} (h : r ∈ (s.step a).queue.rows)
    (hrun : r.status = .running) :
    r ∈ s.queue.rows ∨ a = .claimNext r.thread r.claimedBy := by
  have hrow := Queue.row_of_mem h
  cases hold : s.queue.row r.queueId with
  | none =>
    have := (step_new_row hold hrow).2
    rw [hrun] at this
    cases this
  | some r₀ =>
    obtain ⟨r', hr', hm⟩ := step_row (a := a) hold
    obtain rfl := Option.some.inj (hrow.symm.trans hr')
    cases hm with
    | stays => exact Or.inl (Queue.mem_of_row hold).1
    | claimed => exact Or.inr rfl
    | finished outcome => cases outcome <;> cases hrun
    | dropped | recovered => cases hrun

theorem owned_step (hs : s.Owned) (ha : s.Tidy a) : (s.step a).Owned := by
  intro r hr hrun lease hlease
  rcases step_running hr hrun with hmem | rfl
  · rcases step_lease hlease with ⟨lease', hlease', hown⟩ | ⟨surface, reentrant, alive, now, rfl, hfree⟩
    · exact hown.symm.trans (hs r hmem hrun lease' hlease')
    · rcases ha with ⟨lease', hlease', hlive, hrefused⟩ | hnobody
      · rcases hfree lease' hlease' with ⟨hown, hre⟩ | hdead
        · rcases hrefused with h | h
          · exact absurd hown h
          · rw [hre] at h
            cases h
        · rw [hlive] at hdead
          cases hdead
      · exact (hnobody r hmem rfl hrun).symm
  · exact ha lease hlease

/-- After a recovery a prompt still runs only under a live lease of its claimant;
and what is closed stays as it is. -/
def Settles (s : Shared) (a : StoreAction) : Prop :=
  (∀ pid includeOwn alive now, a = .recoverInterrupted pid includeOwn alive now →
    ∀ r ∈ (s.step a).queue.rows, r.status = .running →
      (s.step a).Holds r.thread r.claimedBy alive now) ∧
  ∀ id r, s.queue.row id = some r → r.status.rank = 2 →
    ∀ r', (s.step a).queue.row id = some r' → r'.status = r.status

/-- What recovery does not close has a live lease, of somebody. -/
theorem live_of_recovered {pid : Nat} {includeOwn : Bool} {alive : Nat → Bool} {now : Time}
    {r : QueuedPrompt} (h : r ∈ (s.step (.recoverInterrupted pid includeOwn alive now)).queue.rows)
    (hrun : r.status = .running) :
    ∃ lease, (s.step (.recoverInterrupted pid includeOwn alive now)).leases.lookup r.thread
      = some lease ∧ lease.isLive alive now = true := by
  obtain ⟨r₀, hr₀, hsel⟩ := List.mem_map.mp h
  have hleases : (s.step (.recoverInterrupted pid includeOwn alive now)).leases.lookup r.thread
      = (s.leases.lookup r.thread).filter _ := Leases.lookup_prune _ _ _
  rw [hleases]
  split at hsel
  next => rw [← hsel] at hrun; cases hrun
  next hsel' =>
    subst hsel
    dsimp only at hsel'
    rw [hrun] at hsel'
    unfold abandoned at hsel'
    cases hlease : s.leases.lookup r₀.thread with
    | none =>
      rw [hlease] at hsel'
      exact absurd rfl hsel'
    | some lease =>
      rw [hlease] at hsel'
      simp only [beq_self_eq_true, Bool.true_and, Bool.or_eq_true, not_or, Bool.not_eq_true,
        Bool.not_eq_false'] at hsel'
      obtain ⟨hlive, hother⟩ := hsel'
      refine ⟨lease, ?_, hlive⟩
      rw [Option.filter_some, hlive, hother]
      rfl

theorem settles_of_tidy (hs : s.Owned) (ha : s.Tidy a) : s.Settles a := by
  constructor
  · intro pid includeOwn alive now heq r hr hrun
    subst heq
    obtain ⟨lease, hlease, hlive⟩ := live_of_recovered hr hrun
    exact ⟨lease, hlease, owned_step hs ha r hr hrun lease hlease, hlive⟩
  · intro id r hrow hrank r' hr'
    obtain ⟨r'', hr'', hm⟩ := step_row (a := a) hrow
    obtain rfl := Option.some.inj (hr'.symm.trans hr'')
    cases hm with
    | stays => rfl
    | finished outcome =>
      obtain ⟨_, rfl⟩ := Queue.mem_of_row hrow
      exact (ha r hrow hrank).symm
    | claimed _ hq | dropped hq =>
      rw [hq] at hrank
      cases hrank
    | recovered _ _ _ _ hrun =>
      rw [hrun] at hrank
      cases hrank

/-- **Recovery in tidy runs.** -/
theorem tidy_runs_settle (as : List StoreAction) (h : Along step Tidy .empty as) :
    Along step Settles .empty as := by
  have hempty : empty.Owned := fun r hr => absurd hr List.not_mem_nil
  exact along_of_invariant (fun s a hs ha => owned_step hs ha)
    (fun s a hs ha => settles_of_tidy hs ha) hempty h

/-- A thread of the example runs. -/
private def thread : Thread := ("/w".toList, "s".toList)

theorem tidy_runs_settle_example : Along step Settles .empty
    [.acquireLease thread 1 [] true (fun _ => true) 0, .enqueue thread [] [],
      .claimNext thread 1, .recoverInterrupted 2 false (fun _ => true) 1, .finish 1 .done,
      .releaseLease thread 1] :=
  tidy_runs_settle _ (by decide)

/-- The first process dies over a prompt, and the second takes its thread before
it recovers: the prompt stays running. The first is late with its heartbeat and
the second recovers: what that cancelled is then done. -/
theorem takeover_unsettled :
    ¬ Along step Settles .empty
      [.acquireLease thread 1 [] true (fun _ => true) 0, .enqueue thread [] [],
        .claimNext thread 1, .acquireLease thread 2 [] true (fun pid => pid == 2) 1,
        .recoverInterrupted 2 false (fun pid => pid == 2) 1] ∧
    ¬ Along step Settles .empty
      [.acquireLease thread 1 [] true (fun _ => true) 0, .enqueue thread [] [],
        .claimNext thread 1, .recoverInterrupted 2 false (fun _ => true) 1000000000000,
        .finish 1 .done] := by
  constructor
  · intro hsome
    obtain ⟨_, _, _, _, ⟨h, _⟩, _⟩ := hsome
    obtain ⟨lease, hlease, hown, _⟩ :=
      h 2 false (fun pid => pid == 2) 1 rfl ⟨1, thread, [], [], .running, 1⟩ (by decide) rfl
    have howner : ((run step empty
        [.acquireLease thread 1 [] true (fun _ => true) 0, .enqueue thread [] [],
          .claimNext thread 1, .acquireLease thread 2 [] true (fun pid => pid == 2) 1,
          .recoverInterrupted 2 false (fun pid => pid == 2) 1]).leases.lookup thread).map
        Lease.ownerPid = some 2 := by decide
    have hlease := congrArg (Option.map Lease.ownerPid) hlease
    rw [Option.map_some, hown] at hlease
    exact absurd (hlease.symm.trans howner) (by decide)
  · intro hsome
    obtain ⟨_, _, _, _, ⟨_, h⟩, _⟩ := hsome
    have := h 1 ⟨1, thread, [], [], .cancelled, 1⟩ (by decide) rfl
      ⟨1, thread, [], [], .done, 1⟩ (by decide)
    cases this

end Shared

end Shamsu.Control
