import Shamsu.Control.Store
import Shamsu.Lib.Run

/-!
# One poller per bot

Telegram allows one `getUpdates` caller per token. Which process that is, is a
lease on a slot of the control store. `start` claims it, the heartbeat loop
renews it, `stop` releases it; processes stall, die and come back in between.

The heartbeat loop drops what `renew_lease` returns, so a process that lost its
lease polls on. `poller_unique`: nobody does, and there is one poller at most, in
every run in which a claim that finds another process polling finds its lease
alive.
-/

namespace Shamsu.Telegram.Poller

open Shamsu.Lib Shamsu.Py Shamsu.Control

/-- `(MACHINE_LEASE_KEY, POLLER_SESSION)`. -/
def pollerSlot : Text × Text := ("*machine*".toList, "telegram-poller".toList)

/-- Where the service of a process stands. -/
inductive Stage where
  /-- Not started, or stopped. -/
  | idle
  /-- `start` has claimed the slot and is about to create its tasks. -/
  | claimed
  /-- The poll loop and the heartbeat loop run. -/
  | polling
  /-- `stop` has cancelled the heartbeat loop, the poll loop still runs. -/
  | stopping
  deriving DecidableEq, Repr

/-- The poll loop runs. -/
def Stage.isPolling : Stage → Bool
  | .polling | .stopping => true
  | _ => false

/-- The poll loop runs, or is about to. -/
def Stage.isActive (stage : Stage) : Bool := stage != .idle

/-- A process; `lastRenew` is what its last `renew_lease` returned. -/
structure Process where
  alive : Bool
  stage : Stage
  lastRenew : Option Bool
  deriving DecidableEq, Repr

/-- The lease table and the processes, by pid. -/
structure Machine where
  leases : Leases
  process : Nat → Process

namespace Machine

/-- No process has been started. -/
def off (leases : Leases) : Machine :=
  { leases := leases, process := fun _ => { alive := false, stage := .idle, lastRenew := none } }

def alive (s : Machine) (pid : Nat) : Bool := (s.process pid).alive

/-- The process goes on as `p`. -/
def setProcess (s : Machine) (pid : Nat) (p : Process) : Machine :=
  { s with process := Function.update s.process pid p }

variable (s : Machine) {pid other : Nat} (p : Process)

@[simp] theorem leases_setProcess : (s.setProcess pid p).leases = s.leases := rfl

@[simp] theorem process_setProcess_self : (s.setProcess pid p).process pid = p :=
  Function.update_self ..

theorem process_setProcess_ne (h : other ≠ pid) :
    (s.setProcess pid p).process other = s.process other :=
  Function.update_of_ne h ..

end Machine

/-- What can happen; `answers` is whether the control database does. -/
inductive Action where
  /-- The process is started, under a pid that is free. -/
  | spawn (pid : Nat)
  /-- The process dies, whatever it was doing. -/
  | exit (pid : Nat)
  /-- `start` claims the slot. -/
  | claim (pid : Nat) (now : Time) (answers : Bool)
  /-- `start` creates the tasks. -/
  | begin (pid : Nat)
  /-- One round of `_heartbeat_loop`. -/
  | heartbeat (pid : Nat) (now : Time) (answers : Bool)
  /-- `stop` cancels the heartbeat task. -/
  | quiet (pid : Nat)
  /-- `stop` releases the lease and cancels the poll task. -/
  | stop (pid : Nat) (answers : Bool)
  deriving DecidableEq, Repr

/-- `_claim_poller_lease`: without a database to ask, the answer is yes. -/
def claimPollerLease (s : Machine) (pid : Nat) (now : Time) (answers : Bool) : Bool × Leases :=
  if answers then s.leases.acquireLease pollerSlot pid "telegram".toList s.alive now
  else (true, s.leases)

/-- One action; it is skipped when the process is not at that point. -/
def step (s : Machine) : Action → Machine
  | .spawn pid =>
    if s.alive pid then s
    else s.setProcess pid { alive := true, stage := .idle, lastRenew := none }
  | .exit pid => s.setProcess pid { s.process pid with alive := false, stage := .idle }
  | .claim pid now answers =>
    if s.alive pid && (s.process pid).stage == .idle then
      let (won, leases) := claimPollerLease s pid now answers
      if won then { s with leases := leases }.setProcess pid { s.process pid with stage := .claimed }
      else { s with leases := leases }
    else s
  | .begin pid =>
    if (s.process pid).stage = .claimed then
      s.setProcess pid { s.process pid with stage := .polling }
    else s
  | .heartbeat pid now answers =>
    if (s.process pid).stage = .polling && answers then
      let (renewed, leases) := s.leases.renewLease pollerSlot pid now
      -- the loop goes on, whatever came back
      { s with leases := leases }.setProcess pid { s.process pid with lastRenew := some renewed }
    else s
  | .quiet pid =>
    if (s.process pid).stage = .polling then
      s.setProcess pid { s.process pid with stage := .stopping }
    else s
  | .stop pid answers =>
    if (s.process pid).stage = .stopping then
      { s with
        leases := if answers then (s.leases.releaseLease pollerSlot pid).2 else s.leases
      }.setProcess pid { s.process pid with stage := .idle }
    else s

/-- A process that lost its lease is not polling. -/
def Yielded (s : Machine) : Prop :=
  ∀ pid, (s.process pid).lastRenew = some false → (s.process pid).stage.isPolling = false

/-- One process at most is polling. -/
def AtMostOne (s : Machine) : Prop :=
  ∀ pid other, (s.process pid).stage.isPolling = true → (s.process other).stage.isPolling = true →
    pid = other

/-- The database answers a claim, and a claim made while another process is
active finds the lease on record alive. -/
def Unhurried (s : Machine) : Action → Prop
  | .claim pid now answers => answers = true ∧
      ∀ other, other ≠ pid → (s.process other).stage.isActive = true →
        ∀ lease, s.leases.lookup pollerSlot = some lease → lease.isLive s.alive now = true
  | _ => True

/-- An active process runs and owns the slot, and no renewal has failed. -/
structure Owned (s : Machine) : Prop where
  renewed : ∀ pid, (s.process pid).lastRenew ≠ some false
  owner : ∀ pid, (s.process pid).stage.isActive = true →
    s.alive pid = true ∧ s.leases.owner pollerSlot = some pid

section Step

variable {s : Machine}

/-- One process goes on and the lease stays where it was. -/
theorem Owned.setProcess {pid : Nat} {p : Process} (leases : Leases) (h : Owned s)
    (howner : leases.owner pollerSlot = s.leases.owner pollerSlot)
    (hrenew : p.lastRenew ≠ some false)
    (hactive : p.stage.isActive = true →
      p.alive = true ∧ s.leases.owner pollerSlot = some pid) :
    Owned ({ s with leases := leases }.setProcess pid p) := by
  constructor
  · intro other
    by_cases ho : other = pid
    · rw [ho, Machine.process_setProcess_self]
      exact hrenew
    · rw [Machine.process_setProcess_ne _ _ ho]
      exact h.renewed other
  · intro other
    unfold Machine.alive
    rw [Machine.leases_setProcess, howner]
    by_cases ho : other = pid
    · rw [ho, Machine.process_setProcess_self]
      exact hactive
    · rw [Machine.process_setProcess_ne _ _ ho]
      exact h.owner other

/-- Only the owner of the slot is active. -/
theorem Owned.not_active {pid other : Nat} (h : Owned s)
    (howner : s.leases.owner pollerSlot = some pid) (hne : other ≠ pid) :
    (s.process other).stage.isActive = false := by
  by_contra hactive
  have hown := (h.owner other (by simpa using hactive)).2
  exact hne (Option.some.inj (hown.symm.trans howner))

/-- A claim is won by nobody while another process is active. -/
theorem claim_idle {pid other : Nat} {now : Time} (h : Owned s)
    (hlive : ∀ lease, s.leases.lookup pollerSlot = some lease → lease.isLive s.alive now = true)
    (hne : other ≠ pid) (hactive : (s.process other).stage.isActive = true) :
    s.leases.acquireLease pollerSlot pid "telegram".toList s.alive now = (false, s.leases) := by
  have howner := (h.owner other hactive).2
  obtain ⟨lease, hrow, hpid⟩ := Option.map_eq_some_iff.mp howner
  rcases Leases.acquireLease_cases s.leases pollerSlot pid "telegram".toList s.alive now with
    ⟨_, _, _, _, he⟩ | ⟨hfree, _⟩
  · exact he
  · exfalso
    rcases hfree lease hrow with hmine | hstale
    · exact hne (hpid.symm.trans hmine)
    · rw [hlive lease hrow] at hstale
      cases hstale

/-- **The step**: unhurried actions keep the active process the owner. -/
theorem owned_step {a : Action} (h : Owned s) (hcalm : Unhurried s a) : Owned (step s a) := by
  cases a with
  | spawn pid =>
    unfold step
    dsimp only
    split
    · exact h
    · exact h.setProcess s.leases rfl (by simp) fun ha => by cases ha
  | exit pid =>
    exact h.setProcess s.leases rfl (h.renewed pid) fun ha => by cases ha
  | claim pid now answers =>
    obtain ⟨rfl, hlive⟩ := hcalm
    unfold step claimPollerLease
    dsimp only
    split
    swap
    · exact h
    next hready =>
    simp only [Bool.and_eq_true, beq_iff_eq] at hready
    rw [if_pos rfl]
    rcases Leases.acquireLease_cases s.leases pollerSlot pid "telegram".toList s.alive now with
      ⟨_, _, _, _, he⟩ | ⟨_, he⟩
    · rw [he]
      exact h
    · -- the claim is won, so nobody else is active
      have hidle : ∀ other, other ≠ pid → (s.process other).stage.isActive = false := by
        intro other hne
        by_contra hactive
        have hactive : (s.process other).stage.isActive = true := by simpa using hactive
        rw [claim_idle h (hlive other hne hactive) hne hactive] at he
        cases he
      rw [he]
      dsimp only
      rw [if_pos rfl]
      constructor
      · intro other
        by_cases ho : other = pid
        · rw [ho, Machine.process_setProcess_self]
          exact h.renewed pid
        · rw [Machine.process_setProcess_ne _ _ ho]
          exact h.renewed other
      · intro other hactive
        by_cases ho : other = pid
        · subst ho
          unfold Machine.alive
          rw [Machine.process_setProcess_self]
          exact ⟨hready.1, by simp [Leases.owner]⟩
        · rw [Machine.process_setProcess_ne _ _ ho] at hactive
          have : (s.process other).stage.isActive = true := hactive
          rw [hidle other ho] at this
          cases this
  | begin pid =>
    unfold step
    dsimp only
    split
    next hstage =>
      exact h.setProcess s.leases rfl (h.renewed pid)
        fun _ => h.owner pid (by rw [hstage]; rfl)
    next => exact h
  | heartbeat pid now answers =>
    unfold step
    dsimp only
    split
    next hstage =>
      simp only [Bool.and_eq_true, decide_eq_true_eq] at hstage
      have hown := h.owner pid (by rw [hstage.1]; rfl)
      refine h.setProcess _ (Leases.owner_renewLease ..) ?_ fun _ => hown
      rw [(Leases.renewLease_fst s.leases pollerSlot pid now).mpr hown.2]
      simp
    next => exact h
  | quiet pid =>
    unfold step
    dsimp only
    split
    next hstage =>
      exact h.setProcess s.leases rfl (h.renewed pid)
        fun _ => h.owner pid (by rw [hstage]; rfl)
    next => exact h
  | stop pid answers =>
    unfold step
    dsimp only
    split
    swap
    · exact h
    next hstage =>
    have hown := (h.owner pid (by rw [hstage]; rfl)).2
    constructor
    · intro other
      by_cases ho : other = pid
      · rw [ho, Machine.process_setProcess_self]
        exact h.renewed pid
      · rw [Machine.process_setProcess_ne _ _ ho]
        exact h.renewed other
    · intro other hactive
      by_cases ho : other = pid
      · rw [ho, Machine.process_setProcess_self] at hactive
        cases hactive
      · rw [Machine.process_setProcess_ne _ _ ho] at hactive
        rw [show (s.process other).stage.isActive = false from h.not_active hown ho] at hactive
        cases hactive

end Step

theorem owned_off (leases : Leases) : Owned (.off leases) :=
  ⟨fun _ => by simp [Machine.off], fun _ h => by cases h⟩

theorem Owned.yielded {s : Machine} (h : Owned s) : Yielded s :=
  fun pid hlost => absurd hlost (h.renewed pid)

theorem isActive_of_isPolling {stage : Stage} (h : stage.isPolling = true) :
    stage.isActive = true := by
  cases stage with
  | idle => cases h
  | claimed => rfl
  | polling => rfl
  | stopping => rfl

theorem Owned.atMostOne {s : Machine} (h : Owned s) : AtMostOne s := by
  intro pid other hp ho
  have h₁ := (h.owner pid (isActive_of_isPolling hp)).2
  have h₂ := (h.owner other (isActive_of_isPolling ho)).2
  exact Option.some.inj (h₁.symm.trans h₂)

/-- **One poller**: over any run of any number of processes whose claims are
unhurried, from whatever lease table, a process whose last renewal failed is not
polling, and one process at most is. -/
theorem poller_unique {leases : Leases} {as : List Action}
    (hcalm : Along step Unhurried (.off leases) as) :
    Always step (fun s => Yielded s ∧ AtMostOne s) (.off leases) as := by
  have hall : Always step Owned (.off leases) as :=
    always_of_along (fun _ _ h hP => owned_step h hP) (owned_off leases) hcalm
  refine always_iff.mpr fun as₁ hp => ?_
  have hown := always_iff.mp hall as₁ hp
  exact ⟨hown.yielded, hown.atMostOne⟩

/-- Two processes; the first renews in time and the second is refused. -/
def refusedSecond : List Action :=
  [.spawn 1, .spawn 2, .claim 1 0 true, .begin 1, .heartbeat 1 20000000 true,
   .claim 2 30000000 true]

/-- The theorem on a run. -/
theorem poller_unique_refusedSecond :
    Always step (fun s => Yielded s ∧ AtMostOne s) (.off ∅) refusedSecond := by
  refine poller_unique ⟨trivial, trivial, ⟨rfl, ?_⟩, trivial, trivial, ⟨rfl, ?_⟩, trivial⟩
  · intro other _ hactive
    -- both processes have just been started
    have hidle : ((step (step (.off ∅) (.spawn 1)) (.spawn 2)).process other).stage = .idle := by
      by_cases h₂ : other = 2
      · rw [h₂]; decide
      by_cases h₁ : other = 1
      · rw [h₁]; decide
      simp [step, Machine.off, Machine.alive, Machine.setProcess, Function.update, h₁, h₂]
    rw [hidle] at hactive
    cases hactive
  · intro other _ _ lease hrow
    have hlease : (run step (.off ∅) (refusedSecond.take 5)).leases.lookup pollerSlot =
        some { ownerPid := 1, ownerSurface := "telegram".toList, heartbeat := 20000000 } := by
      decide
    obtain rfl := Option.some.inj (hlease.symm.trans hrow)
    decide

/-- The first process stalls for two minutes, the second takes over, and the
first comes back. -/
def stalledFirst : List Action :=
  [.spawn 1, .spawn 2, .claim 1 0 true, .begin 1, .claim 2 120000000 true, .begin 2,
   .heartbeat 2 121000000 true, .heartbeat 1 122000000 true]

/-- Without the condition it fails: the first process is told that it lost the
lease, and both poll. -/
theorem poller_twice :
    ¬ ∀ (leases : Leases) (as : List Action),
      Always step (fun s => Yielded s ∧ AtMostOne s) (.off leases) as := by
  intro h
  have hend := always_iff.mp (h ∅ stalledFirst) stalledFirst (List.prefix_refl _)
  have hpolls := hend.1 1 (by decide)
  exact absurd hpolls (by decide)

end Shamsu.Telegram.Poller
