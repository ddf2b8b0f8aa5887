import Shamsu.Control.Recovery

/-!
# Runners

`shamsu/control/runner.py`: `QueuedRunner._start_worker`, the end of `_drain`, and
the heartbeat, as the steps of any number of runners in any number of processes
(`Runners.step`). A worker needs the lease of its thread and that of the machine.

A lease belongs to a process, a worker to a runner. What keeps them together is
`Accounted`: each lease on record is that of exactly one runner at work. A start
that takes the lease of a thread which its own process has (`Apart` says it does
not) breaks this, since its back-out releases the lease under the other worker.
-/

namespace Shamsu.Control

open Shamsu.Lib Shamsu.Py

/-- `(MACHINE_WORKSPACE, MACHINE_SESSION)`. -/
def machineSlot : Thread := ("*machine*".toList, "*machine*".toList)

/-- A `QueuedRunner`: the process it is in, and which one of it. -/
structure Runner where
  pid : Nat
  index : Nat
  surface : Text
  deriving DecidableEq, Repr

/-- Where a runner is. Its `_lock` makes start attempts take turns, and while its
worker is alive they return early. `found` is what was on record of the thread
before the attempt took it. -/
inductive Phase where
  | idle
  | checked (thread : Thread)
  | holding (thread : Thread) (found : Option Lease)
  | backingOut (thread : Thread) (found : Option Lease)
  | running (thread : Thread)
  | leaving
  deriving DecidableEq, Repr

/-- The slots whose lease the runner has taken and not given back. -/
def Phase.Uses : Phase → Thread → Prop
  | .idle, _ | .checked _, _ => False
  | .holding thread _, slot | .backingOut thread _, slot => slot = thread
  | .running thread, slot => slot = thread ∨ slot = machineSlot
  | .leaving, slot => slot = machineSlot

/-- The lease table and the runners. -/
structure Runners where
  leases : Leases
  phase : Runner → Phase

/-- The steps of `_start_worker` up to the worker, of the worker's end, and of the
heartbeat. -/
inductive RunnerAction where
  | check (r : Runner) (thread : Thread) (alive : Nat → Bool) (now : Time)
  | takeThread (r : Runner) (alive : Nat → Bool) (now : Time)
  | takeMachine (r : Runner) (alive : Nat → Bool) (now : Time)
  | backOut (r : Runner)
  | leaveThread (r : Runner)
  | leaveMachine (r : Runner)
  | beat (pid : Nat) (slot : Thread) (now : Time)

/-- `lease_holder`. -/
def Leases.holder (t : Leases) (slot : Thread) (alive : Nat → Bool) (now : Time) : Option Lease :=
  (t.lookup slot).filter fun lease => lease.isLive alive now

/-- An owner's release removes the row. -/
theorem Leases.releaseLease_of_owner {t : Leases} {slot : Thread} {pid : Nat}
    (h : t.owner slot = some pid) : (t.releaseLease slot pid).2 = t.erase slot := by
  unfold owner at h
  obtain ⟨lease, hlease, rfl⟩ := Option.map_eq_some_iff.mp h
  unfold releaseLease
  rw [hlease]
  dsimp only
  rw [if_pos rfl]

namespace Runners

def start : Runners := ⟨∅, fun _ => .idle⟩

/-- The runner goes on, over these leases. -/
def moved (s : Runners) (r : Runner) (phase : Phase) (leases : Leases) : Runners :=
  ⟨leases, Function.update s.phase r phase⟩

def step (s : Runners) : RunnerAction → Runners
  | .check r thread alive now =>
    match s.phase r with
    | .idle =>
      match s.leases.holder machineSlot alive now with
      | some _ => s -- BUSY
      | none => s.moved r (.checked thread) s.leases
    | _ => s
  | .takeThread r alive now =>
    match s.phase r with
    | .checked thread =>
      let (ok, leases) := s.leases.acquire thread r.pid r.surface true alive now
      if ok then s.moved r (.holding thread (s.leases.lookup thread)) leases
      else s.moved r .idle leases -- BUSY
    | _ => s
  | .takeMachine r alive now =>
    match s.phase r with
    | .holding thread found =>
      let (ok, leases) := s.leases.acquire machineSlot r.pid r.surface false alive now
      if ok then s.moved r (.running thread) leases else s.moved r (.backingOut thread found) leases
    | _ => s
  | .backOut r =>
    match s.phase r with
    | .backingOut thread _ => s.moved r .idle (s.leases.releaseLease thread r.pid).2 -- BUSY
    | _ => s
  | .leaveThread r =>
    match s.phase r with
    | .running thread => s.moved r .leaving (s.leases.releaseLease thread r.pid).2
    | _ => s
  | .leaveMachine r =>
    match s.phase r with
    | .leaving => s.moved r .idle (s.leases.releaseLease machineSlot r.pid).2
    | _ => s
  | .beat pid slot now => { s with leases := (s.leases.renewLease slot pid now).2 }

/-! ## Hypotheses -/

/-- Heartbeats are timely: what is on record is live to whoever reads it. -/
def Timely (s : Runners) : RunnerAction → Prop
  | .check _ _ alive now | .takeThread _ alive now | .takeMachine _ alive now =>
    ∀ e ∈ s.leases.entries, e.2.isLive alive now = true
  | _ => True

instance (s : Runners) : (a : RunnerAction) → Decidable (s.Timely a)
  | .check _ _ alive now | .takeThread _ alive now | .takeMachine _ alive now =>
    inferInstanceAs (Decidable (∀ e ∈ s.leases.entries, e.2.isLive alive now = true))
  | .backOut _ | .leaveThread _ | .leaveMachine _ | .beat .. => inferInstanceAs (Decidable True)

/-- Nobody asks for the lease of a thread that the own process has. -/
def Apart (s : Runners) : RunnerAction → Prop
  | .takeThread r _ _ =>
    match s.phase r with
    | .checked thread => ∀ lease ∈ s.leases.lookup thread, lease.ownerPid ≠ r.pid
    | _ => True
  | _ => True

instance (s : Runners) : (a : RunnerAction) → Decidable (s.Apart a)
  | .takeThread r _ _ => by
    unfold Apart
    dsimp only
    exact match s.phase r with
      | .checked thread =>
        inferInstanceAs (Decidable (∀ lease ∈ s.leases.lookup thread, lease.ownerPid ≠ r.pid))
      | .idle | .holding .. | .backingOut .. | .running _ | .leaving =>
        inferInstanceAs (Decidable True)
  | .check .. | .takeMachine .. | .backOut _ | .leaveThread _ | .leaveMachine _ | .beat .. =>
    inferInstanceAs (Decidable True)

variable {s : Runners} {a : RunnerAction} {r : Runner} {slot thread : Thread}

theorem Timely.live {alive : Nat → Bool} {now : Time}
    (h : ∀ e ∈ s.leases.entries, e.2.isLive alive now = true) {lease : Lease}
    (hl : s.leases.lookup slot = some lease) : lease.isLive alive now = true :=
  h ⟨slot, lease⟩ (AList.mem_lookup_iff.mp hl)

/-! ## The invariant -/

/-- Each lease on record is that of one runner at work. -/
structure Accounted (s : Runners) : Prop where
  owner : ∀ {r slot}, (s.phase r).Uses slot → s.leases.owner slot = some r.pid
  unique : ∀ {r r' slot}, (s.phase r).Uses slot → (s.phase r').Uses slot → r = r'
  used : ∀ {slot lease}, s.leases.lookup slot = some lease → ∃ r, (s.phase r).Uses slot
  proper : ∀ {r thread}, s.phase r = .running thread → thread ≠ machineSlot
  found : ∀ {r thread found}, s.phase r = .holding thread found ∨
    s.phase r = .backingOut thread found → found = none

theorem accounted_start : start.Accounted where
  owner h := h.elim
  unique h := h.elim
  used h := by cases h
  proper h := by cases h
  found h := by rcases h with h | h <;> cases h

@[simp] theorem moved_leases (phase : Phase) (leases : Leases) :
    (s.moved r phase leases).leases = leases := rfl

@[simp] theorem moved_phase (phase : Phase) (leases : Leases) :
    (s.moved r phase leases).phase r = phase := Function.update_self _ _ _

theorem moved_phase_ne {r' : Runner} (phase : Phase) (leases : Leases) (h : r' ≠ r) :
    (s.moved r phase leases).phase r' = s.phase r' := Function.update_of_ne h _ _

/-- **What a move must keep**: the runner owns what it uses from now on, the others
what they used, and no lease is left behind. -/
theorem Accounted.moved (hs : s.Accounted) {phase : Phase} {leases : Leases}
    (hown : ∀ slot, phase.Uses slot → leases.owner slot = some r.pid)
    (hothers : ∀ r' slot, r' ≠ r → (s.phase r').Uses slot →
      leases.owner slot = s.leases.owner slot ∧ ¬ phase.Uses slot)
    (hused : ∀ slot lease, leases.lookup slot = some lease →
      phase.Uses slot ∨ ∃ r', r' ≠ r ∧ (s.phase r').Uses slot)
    (hproper : ∀ thread, phase = .running thread → thread ≠ machineSlot)
    (hfound : ∀ thread found, phase = .holding thread found ∨ phase = .backingOut thread found →
      found = none) :
    (s.moved r phase leases).Accounted where
  owner := by
    intro r' slot h
    by_cases hr : r' = r
    · subst hr
      rw [moved_phase] at h
      exact hown slot h
    · rw [moved_phase_ne _ _ hr] at h
      rw [moved_leases, (hothers r' slot hr h).1]
      exact hs.owner h
  unique := by
    intro r₁ r₂ slot h₁ h₂
    by_cases hr₁ : r₁ = r <;> by_cases hr₂ : r₂ = r
    · rw [hr₁, hr₂]
    · rw [hr₁, moved_phase] at h₁
      rw [moved_phase_ne _ _ hr₂] at h₂
      exact absurd h₁ (hothers r₂ slot hr₂ h₂).2
    · rw [moved_phase_ne _ _ hr₁] at h₁
      rw [hr₂, moved_phase] at h₂
      exact absurd h₂ (hothers r₁ slot hr₁ h₁).2
    · rw [moved_phase_ne _ _ hr₁] at h₁
      rw [moved_phase_ne _ _ hr₂] at h₂
      exact hs.unique h₁ h₂
  used := by
    intro slot lease h
    rcases hused slot lease h with hp | ⟨r', hr', hp⟩
    · exact ⟨r, by rwa [moved_phase]⟩
    · exact ⟨r', by rwa [moved_phase_ne _ _ hr']⟩
  proper := by
    intro r' thread h
    by_cases hr : r' = r
    · rw [hr, moved_phase] at h
      exact hproper thread h
    · rw [moved_phase_ne _ _ hr] at h
      exact hs.proper h
  found := by
    intro r' thread found h
    by_cases hr : r' = r
    · rw [hr, moved_phase] at h
      exact hfound thread found h
    · rw [moved_phase_ne _ _ hr] at h
      exact hs.found h

/-- The runner goes on with the leases it has. -/
theorem Accounted.keeps (hs : s.Accounted) {phase : Phase}
    (huses : ∀ slot, phase.Uses slot ↔ (s.phase r).Uses slot)
    (hproper : ∀ thread, phase ≠ .running thread)
    (hfound : ∀ thread found, phase = .holding thread found ∨ phase = .backingOut thread found →
      found = none) :
    (s.moved r phase s.leases).Accounted := by
  refine hs.moved (fun slot h => hs.owner ((huses slot).mp h)) ?_ ?_
    (fun thread h => absurd h (hproper thread)) hfound
  · intro r' slot hr h
    exact ⟨rfl, fun hp => hr (hs.unique h ((huses slot).mp hp))⟩
  · intro slot lease h
    obtain ⟨r', hr'⟩ := hs.used h
    by_cases hr : r' = r
    · exact Or.inl ((huses slot).mpr (hr ▸ hr'))
    · exact Or.inr ⟨r', hr, hr'⟩

/-- The runner takes a lease that nobody has. -/
theorem Accounted.takes (hs : s.Accounted) {phase : Phase} {lease : Lease}
    (hfree : s.leases.lookup slot = none) (howner : lease.ownerPid = r.pid)
    (huses : ∀ slot', phase.Uses slot' ↔ (s.phase r).Uses slot' ∨ slot' = slot)
    (hproper : ∀ thread, phase = .running thread → thread ≠ machineSlot)
    (hfound : ∀ thread found, phase = .holding thread found ∨ phase = .backingOut thread found →
      found = none) :
    (s.moved r phase (s.leases.insert slot lease)).Accounted := by
  have hunused : ∀ r', ¬ (s.phase r').Uses slot := by
    intro r' h
    have := hs.owner h
    unfold Leases.owner at this
    rw [hfree] at this
    cases this
  refine hs.moved ?_ ?_ ?_ hproper hfound
  · intro slot' h
    unfold Leases.owner
    by_cases hslot : slot' = slot
    · rw [hslot, AList.lookup_insert, Option.map_some, howner]
    · rw [AList.lookup_insert_ne hslot]
      exact hs.owner (((huses slot').mp h).resolve_right hslot)
  · intro r' slot' hr h
    have hslot : slot' ≠ slot := by
      intro heq
      subst heq
      exact hunused r' h
    refine ⟨by unfold Leases.owner; rw [AList.lookup_insert_ne hslot], fun hp => ?_⟩
    exact hr (hs.unique h (((huses slot').mp hp).resolve_right hslot))
  · intro slot' lease' h
    by_cases hslot : slot' = slot
    · exact Or.inl ((huses slot').mpr (Or.inr hslot))
    · rw [AList.lookup_insert_ne hslot] at h
      obtain ⟨r', hr'⟩ := hs.used h
      by_cases hr : r' = r
      · exact Or.inl ((huses slot').mpr (Or.inl (hr ▸ hr')))
      · exact Or.inr ⟨r', hr, hr'⟩

/-- The runner gives back a lease that it has. -/
theorem Accounted.drops (hs : s.Accounted) {phase : Phase} (hslot : (s.phase r).Uses slot)
    (huses : ∀ slot', phase.Uses slot' ↔ (s.phase r).Uses slot' ∧ slot' ≠ slot)
    (hproper : ∀ thread, phase ≠ .running thread)
    (hfound : ∀ thread found, phase ≠ .holding thread found ∧ phase ≠ .backingOut thread found) :
    (s.moved r phase (s.leases.releaseLease slot r.pid).2).Accounted := by
  rw [Leases.releaseLease_of_owner (hs.owner hslot)]
  refine hs.moved ?_ ?_ ?_ (fun thread h => absurd h (hproper thread)) ?_
  · intro slot' h
    obtain ⟨hold, hne⟩ := (huses slot').mp h
    unfold Leases.owner
    rw [AList.lookup_erase_ne hne]
    exact hs.owner hold
  · intro r' slot' hr h
    have hne : slot' ≠ slot := by
      intro heq
      subst heq
      exact hr (hs.unique h hslot)
    refine ⟨by unfold Leases.owner; rw [AList.lookup_erase_ne hne], fun hp => ?_⟩
    exact hr (hs.unique h ((huses slot').mp hp).1)
  · intro slot' lease h
    by_cases hne : slot' = slot
    · rw [hne, AList.lookup_erase] at h
      cases h
    · rw [AList.lookup_erase_ne hne] at h
      obtain ⟨r', hr'⟩ := hs.used h
      by_cases hr : r' = r
      · exact Or.inl ((huses slot').mpr ⟨hr ▸ hr', hne⟩)
      · exact Or.inr ⟨r', hr, hr'⟩
  · intro thread found h
    rcases h with h | h
    · exact absurd h (hfound thread found).1
    · exact absurd h (hfound thread found).2

/-- A lease is refused, or nobody has it: it is live where there is one, and the
own process does not have it or asks not to share it. -/
theorem acquire_cases (r : Runner) (slot : Thread) (reentrant : Bool) {alive : Nat → Bool}
    {now : Time} (hlive : ∀ e ∈ s.leases.entries, e.2.isLive alive now = true)
    (happart : reentrant = true → ∀ lease ∈ s.leases.lookup slot, lease.ownerPid ≠ r.pid) :
    s.leases.acquire slot r.pid r.surface reentrant alive now = (false, s.leases) ∨
      (s.leases.lookup slot = none ∧
        s.leases.acquire slot r.pid r.surface reentrant alive now =
          (true, s.leases.insert slot
            { ownerPid := r.pid, ownerSurface := r.surface, heartbeat := now })) := by
  rcases Leases.acquire_cases s.leases slot r.pid r.surface reentrant alive now with
    ⟨_, _, _, _, he⟩ | ⟨hfree, he⟩
  · exact Or.inl he
  · refine Or.inr ⟨?_, he⟩
    cases hrow : s.leases.lookup slot with
    | none => rfl
    | some lease =>
      rcases hfree lease hrow with ⟨hown, hre⟩ | hdead
      · exact absurd hown (happart hre lease hrow)
      · rw [Timely.live hlive hrow] at hdead
        cases hdead

theorem Accounted.beats (hs : s.Accounted) (pid : Nat) (slot : Thread) (now : Time) :
    (s.step (.beat pid slot now)).Accounted where
  owner h := (Leases.renewLease_owner _ _ _ _ _).trans (hs.owner h)
  unique := hs.unique
  used h := by
    obtain ⟨lease', hlease', _⟩ := Leases.lookup_renewLease h
    exact hs.used hlease'
  proper := hs.proper
  found := hs.found

theorem accounted_step (hs : s.Accounted) (ht : s.Timely a) (ha : s.Apart a) :
    (s.step a).Accounted := by
  cases a with
  | check r thread alive now =>
    unfold step
    dsimp only
    split
    next hphase =>
      split
      next => exact hs
      next =>
        refine hs.keeps (fun slot => ?_) (fun _ h => by cases h) (fun _ _ h => by rcases h with h | h <;> cases h)
        rw [hphase]
        rfl
    next => exact hs
  | takeThread r alive now =>
    unfold Apart at ha
    unfold step
    dsimp only at ha ⊢
    split
    next thread hphase =>
      rw [hphase] at ha
      rcases acquire_cases r thread true ht (fun _ => ha) with he | ⟨hnone, he⟩
      · rw [he]
        refine hs.keeps (fun slot => ?_) (fun _ h => by cases h) (fun _ _ h => by rcases h with h | h <;> cases h)
        rw [hphase]
        rfl
      · rw [he]
        dsimp only
        rw [if_pos rfl, hnone]
        refine hs.takes hnone rfl (fun slot => ?_) (fun _ h => by cases h) ?_
        · rw [hphase]
          exact (false_or _).symm ▸ Iff.rfl
        · intro thread' found hcase
          rcases hcase with h | h
          · cases h
            rfl
          · cases h
    next => exact hs
  | takeMachine r alive now =>
    unfold step
    dsimp only
    split
    next thread found hphase =>
      rcases acquire_cases r machineSlot false ht
        (fun h => by cases h) with he | ⟨hnone, he⟩
      · rw [he]
        refine hs.keeps (fun slot => ?_) (fun _ h => by cases h) ?_
        · rw [hphase]
          rfl
        · intro thread' found' hcase
          rcases hcase with h | h
          · cases h
          · cases h
            exact hs.found (Or.inl hphase)
      · rw [he]
        refine hs.takes hnone rfl (fun slot => ?_) ?_ (fun _ _ h => by rcases h with h | h <;> cases h)
        · rw [hphase]
          rfl
        · intro thread' h heq
          subst heq
          cases h
          have huses : (s.phase r).Uses machineSlot := by rw [hphase]; rfl
          have hown := hs.owner huses
          unfold Leases.owner at hown
          rw [hnone] at hown
          cases hown
    next => exact hs
  | backOut r =>
    unfold step
    dsimp only
    split
    next thread found hphase =>
      refine hs.drops (by rw [hphase]; rfl) (fun slot => ?_) (fun _ h => by cases h)
        (fun _ _ => ⟨fun h => (by cases h), fun h => (by cases h)⟩)
      rw [hphase]
      exact ⟨fun h => h.elim, fun h => h.2 h.1⟩
    next => exact hs
  | leaveThread r =>
    unfold step
    dsimp only
    split
    next thread hphase =>
      have hne := hs.proper hphase
      refine hs.drops (by rw [hphase]; exact Or.inl rfl) (fun slot => ?_) (fun _ h => by cases h)
        (fun _ _ => ⟨fun h => (by cases h), fun h => (by cases h)⟩)
      rw [hphase]
      constructor
      · intro heq
        subst heq
        exact ⟨Or.inr rfl, hne.symm⟩
      · intro hsome
        obtain ⟨h | h, hslot⟩ := hsome
        · exact absurd h hslot
        · exact h
    next => exact hs
  | leaveMachine r =>
    unfold step
    dsimp only
    split
    next hphase =>
      refine hs.drops (by rw [hphase]; rfl) (fun slot => ?_) (fun _ h => by cases h)
        (fun _ _ => ⟨fun h => (by cases h), fun h => (by cases h)⟩)
      rw [hphase]
      exact ⟨fun h => h.elim, fun h => h.2 h.1⟩
    next => exact hs
  | beat pid slot now => exact hs.beats pid slot now

/-! ## All runs -/

/-- A worker that is running has both leases, live where heartbeats are timely, and
it is alone. -/
def Exclusive (s : Runners) : Prop :=
  (∀ r thread, s.phase r = .running thread → ∀ slot, slot = thread ∨ slot = machineSlot →
    ∃ lease, s.leases.lookup slot = some lease ∧ lease.ownerPid = r.pid ∧
      ∀ alive now, (∀ e ∈ s.leases.entries, e.2.isLive alive now = true) →
        lease.isLive alive now = true) ∧
  ∀ r r' thread thread', s.phase r = .running thread → s.phase r' = .running thread' → r = r'

/-- A start attempt that ends in BUSY: it changes nothing, but for one row while it
asks for the machine, and that one is as it was found when it backs out. -/
def BusyUndone (s : Runners) : RunnerAction → Prop
  | a@(.check ..) => (s.step a).leases = s.leases
  | a@(.takeThread r _ _) => ∀ thread, s.phase r = .checked thread →
    ((s.step a).phase r = .idle ∧ (s.step a).leases = s.leases) ∨
    ((s.step a).phase r = .holding thread (s.leases.lookup thread) ∧
      ∀ slot, slot ≠ thread → (s.step a).leases.lookup slot = s.leases.lookup slot)
  | a@(.takeMachine r _ _) => ∀ thread found, s.phase r = .holding thread found →
    ((s.step a).phase r = .backingOut thread found ∧ (s.step a).leases = s.leases) ∨
      (s.step a).phase r = .running thread
  | a@(.backOut r) => ∀ thread found, s.phase r = .backingOut thread found →
    (s.step a).phase r = .idle ∧
      ∀ slot, (s.step a).leases.lookup slot = if slot = thread then found else s.leases.lookup slot
  | _ => True

theorem exclusive_of_accounted (hs : s.Accounted) : s.Exclusive := by
  constructor
  · intro r thread hphase slot hslot
    have huses : (s.phase r).Uses slot := by rw [hphase]; exact hslot
    have hown := hs.owner huses
    unfold Leases.owner at hown
    obtain ⟨lease, hlease, hpid⟩ := Option.map_eq_some_iff.mp hown
    exact ⟨lease, hlease, hpid, fun alive now hlive => Timely.live hlive hlease⟩
  · intro r r' thread thread' hr hr'
    have huses : (s.phase r).Uses machineSlot := by rw [hr]; exact Or.inr rfl
    have huses' : (s.phase r').Uses machineSlot := by rw [hr']; exact Or.inr rfl
    exact hs.unique huses huses'

theorem busyUndone_of_accounted (hs : s.Accounted) (ht : s.Timely a) (ha : s.Apart a) :
    s.BusyUndone a := by
  cases a with
  | check r thread alive now =>
    show (s.step _).leases = s.leases
    unfold step
    dsimp only
    split
    · split <;> rfl
    · rfl
  | takeThread r alive now =>
    intro thread hphase
    unfold Apart at ha
    unfold step
    dsimp only at ha ⊢
    rw [hphase] at ha ⊢
    dsimp only at ha ⊢
    rcases acquire_cases r thread true ht (fun _ => ha) with he | ⟨_, he⟩
    · rw [he]
      exact Or.inl ⟨moved_phase _ _, rfl⟩
    · rw [he]
      refine Or.inr ⟨moved_phase _ _, fun slot hslot => ?_⟩
      exact AList.lookup_insert_ne hslot
  | takeMachine r alive now =>
    intro thread found hphase
    unfold step
    dsimp only
    rw [hphase]
    dsimp only
    rcases acquire_cases r machineSlot false ht
      (fun h => by cases h) with he | ⟨_, he⟩
    · rw [he]
      exact Or.inl ⟨moved_phase _ _, rfl⟩
    · rw [he]
      exact Or.inr (moved_phase _ _)
  | backOut r =>
    intro thread found hphase
    have huses : (s.phase r).Uses thread := by rw [hphase]; rfl
    have hown := hs.owner huses
    unfold step
    dsimp only
    rw [hphase]
    refine ⟨moved_phase _ _, fun slot => ?_⟩
    rw [moved_leases, Leases.releaseLease_of_owner hown]
    split
    next hslot => rw [hslot, AList.lookup_erase, hs.found (Or.inr hphase)]
    next hslot => exact AList.lookup_erase_ne hslot
  | leaveThread | leaveMachine | beat => trivial

/-- **One worker on the machine**, when no start asks for a lease that its process
has: a running worker has both leases and is alone, and a start that finds the
machine busy leaves nothing behind. -/
theorem runners_exclusive (as : List RunnerAction)
    (h : Along step (fun s a => s.Timely a ∧ s.Apart a) start as) :
    Always step Exclusive start as ∧ Along step BusyUndone start as := by
  have hstep : ∀ (s : Runners) a, s.Accounted → s.Timely a ∧ s.Apart a → (s.step a).Accounted :=
    fun s a hs ha => accounted_step hs ha.1 ha.2
  constructor
  · refine always_iff.mpr fun as₁ hprefix => ?_
    obtain ⟨as₂, rfl⟩ := hprefix
    exact exclusive_of_accounted (run_invariant hstep accounted_start (along_append.mp h).1)
  · exact along_of_invariant hstep (fun s a hs ha => busyUndone_of_accounted hs ha.1 ha.2)
      accounted_start h

private def one : Runner := ⟨1, 0, []⟩

private def another : Runner := ⟨1, 1, []⟩

private def here : Thread := ("/w".toList, "s".toList)

private def there : Thread := ("/v".toList, "s".toList)

/-- Two runners of a process with two threads: the second comes too late. -/
theorem runners_exclusive_example :
    Always step Exclusive start
      [.check one here (fun _ => true) 0, .check another there (fun _ => true) 0,
        .takeThread one (fun _ => true) 0, .takeThread another (fun _ => true) 0,
        .takeMachine one (fun _ => true) 0, .takeMachine another (fun _ => true) 0,
        .backOut another, .beat 1 here 1, .leaveThread one, .leaveMachine one] ∧
    Along step BusyUndone start
      [.check one here (fun _ => true) 0, .check another there (fun _ => true) 0,
        .takeThread one (fun _ => true) 0, .takeThread another (fun _ => true) 0,
        .takeMachine one (fun _ => true) 0, .takeMachine another (fun _ => true) 0,
        .backOut another, .beat 1 here 1, .leaveThread one, .leaveMachine one] :=
  runners_exclusive _ (by decide)

/-- The same with one thread: the back-out of the second takes the lease from under
the worker of the first. -/
theorem shared_thread_not_exclusive : ∃ as, Along step Timely start as ∧
    ¬ Always step Exclusive start as := by
  refine ⟨[.check one here (fun _ => true) 0, .check another here (fun _ => true) 0,
    .takeThread one (fun _ => true) 0, .takeThread another (fun _ => true) 0,
    .takeMachine one (fun _ => true) 0, .takeMachine another (fun _ => true) 0,
    .backOut another], by decide, fun h => ?_⟩
  have hrunning := (always_iff.mp h _ (List.prefix_refl _)).1 one here (by decide)
  obtain ⟨lease, hlease, _⟩ := hrunning here (Or.inl rfl)
  have hnone : (run step start [.check one here (fun _ => true) 0,
      .check another here (fun _ => true) 0, .takeThread one (fun _ => true) 0,
      .takeThread another (fun _ => true) 0, .takeMachine one (fun _ => true) 0,
      .takeMachine another (fun _ => true) 0, .backOut another]).leases.lookup here
    = none := by decide
  rw [hnone] at hlease
  cases hlease

end Runners

end Shamsu.Control
