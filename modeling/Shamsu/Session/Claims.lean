import Shamsu.Lib.Run
import Shamsu.Py.Text

/-!
# One process per session

`shamsu/session/manager.py`: `resume_or_start` picks the newest active session whose
`owner.json` names no other live process, and writes itself into that file. Listing the
sessions, looking at a claim and writing one are steps of their own, and the steps of
several processes may come in any order. A claim is written once, when a session is taken,
and counts for five minutes.

`session_owned_once`: no two live processes end up with one session, in every run in which
no process looks at a session that another one has found free and not yet claimed, or claimed
more than five minutes ago.
-/

namespace Shamsu.Session

open Shamsu.Lib Shamsu.Py

/-- A session of `index.json`. -/
structure SessionEntry where
  sessionId : Text
  active : Bool
  updatedAt : Nat
  deriving DecidableEq, Repr

/-- What is in `owner.json`. -/
structure Claim where
  pid : Nat
  heartbeat : Nat
  deriving DecidableEq, Repr

/-- Why `resume_or_start` returned that session. -/
inductive Reason where
  /-- It was there; how long ago it was active. -/
  | resumed (age : Nat)
  /-- So many others are open elsewhere. -/
  | othersBusy (busy : Nat)
  deriving DecidableEq, Repr

/-- Where a process stands in `resume_or_start`. -/
inductive Phase where
  | idle
  /-- In the loop, with these candidates ahead. -/
  | choosing (candidates : List SessionEntry) (busy : Nat)
  /-- Nobody else has the candidate; it is about to be claimed. -/
  | claiming (candidate : SessionEntry) (age : Nat)
  /-- It is claimed; the resumption is about to be logged. -/
  | resuming (candidate : SessionEntry) (age : Nat)
  /-- A session has been created and is about to be claimed. -/
  | created (sessionId : Text) (busy : Nat)
  deriving DecidableEq, Repr

/-- A process, with the sessions that it was given. -/
structure Process where
  alive : Bool
  phase : Phase
  returned : List (Text × Reason)
  deriving DecidableEq, Repr

/-- The sessions on disk, the processes by pid, and the time in microseconds. -/
structure Workspace where
  now : Nat
  /-- `psutil` is installed. -/
  psutil : Bool
  index : List SessionEntry
  owner : Text → Option Claim
  process : Nat → Process

/-- `stale_after_seconds`, in microseconds. -/
def staleAfter : Nat := 300 * 1000000

/-- The session that the process is about to claim. -/
def Phase.target : Phase → Option Text
  | .claiming candidate _ => some candidate.sessionId
  | .created sessionId _ => some sessionId
  | _ => none

/-- The process has been given the session. -/
def Process.Owns (p : Process) (id : Text) : Prop := id ∈ p.returned.map Prod.fst

instance (p : Process) (id : Text) : Decidable (p.Owns id) :=
  inferInstanceAs (Decidable (id ∈ p.returned.map Prod.fst))

/-- It has it, or has claimed it and is about to return. -/
def Process.Holds (p : Process) (id : Text) : Prop :=
  p.Owns id ∨ ∃ candidate age, p.phase = .resuming candidate age ∧ candidate.sessionId = id

namespace Workspace

/-- No process has been started. -/
def quiet (now : Nat) (psutil : Bool) (index : List SessionEntry) (owner : Text → Option Claim) :
    Workspace :=
  { now, psutil, index, owner, process := fun _ => ⟨false, .idle, []⟩ }

variable (s : Workspace)

def alive (pid : Nat) : Bool := (s.process pid).alive

/-- Where a live process stands. -/
def point (pid : Nat) : Phase := if s.alive pid then (s.process pid).phase else .idle

/-- The process goes on as `p`. -/
def setProcess (pid : Nat) (p : Process) : Workspace :=
  { s with process := Function.update s.process pid p }

/-- The process goes on at `phase`. -/
def goOn (pid : Nat) (phase : Phase) : Workspace :=
  s.setProcess pid { s.process pid with phase }

/-- `resume_or_start` returns. -/
def giveBack (pid : Nat) (id : Text) (reason : Reason) : Workspace :=
  s.setProcess pid { s.process pid with
    phase := .idle, returned := (s.process pid).returned ++ [(id, reason)] }

/-- `_upsert_index`. -/
def upsertIndex (entry : SessionEntry) : Workspace :=
  { s with index := (s.index.filter fun e => e.sessionId != entry.sessionId) ++ [entry] }

/-- `_active_loggers`: the newest first. -/
def activeLoggers : List SessionEntry :=
  (s.index.insertionSort fun a b => b.updatedAt ≤ a.updatedAt).filter SessionEntry.active

/-- `claimed_by_other_live_process`. -/
def claimedByOther (pid : Nat) (id : Text) : Bool :=
  match s.owner id with
  | none => false
  | some claim =>
    claim.pid != pid && decide (s.now - claim.heartbeat ≤ staleAfter) &&
      (!s.psutil || s.alive claim.pid)

/-- `claim`, whose `OSError` is passed over. -/
def claim (pid : Nat) (id : Text) (writes : Bool) : Workspace :=
  if writes then { s with owner := Function.update s.owner id (some ⟨pid, s.now⟩) } else s

end Workspace

/-- What can happen. -/
inductive Action where
  /-- The process is started, under a pid that is free. -/
  | spawn (pid : Nat)
  /-- The process ends, whatever it was doing. -/
  | exit (pid : Nat)
  | tick (time : Nat)
  /-- `resume_or_start` lists the sessions. -/
  | start (pid : Nat)
  /-- It looks at the next candidate. -/
  | check (pid : Nat)
  /-- There is no other: it creates a session, under a new id. -/
  | create (pid : Nat) (id : Text)
  | claim (pid : Nat) (writes : Bool)
  /-- It logs that the session is resumed, and returns. -/
  | log (pid : Nat)
  deriving DecidableEq, Repr

/-- One action; it is skipped when the process is not at that point. -/
def step (s : Workspace) : Action → Workspace
  | .spawn pid => if s.alive pid then s else s.setProcess pid ⟨true, .idle, []⟩
  | .exit pid => s.setProcess pid ⟨false, .idle, []⟩
  | .tick time => { s with now := s.now + time }
  | .start pid =>
    if s.alive pid && s.point pid == .idle then s.goOn pid (.choosing s.activeLoggers 0)
    else s
  | .check pid =>
    match s.point pid with
    | .choosing (candidate :: rest) busy =>
      if s.claimedByOther pid candidate.sessionId then s.goOn pid (.choosing rest (busy + 1))
      else s.goOn pid (.claiming candidate (s.now - candidate.updatedAt))
    | _ => s
  | .create pid id =>
    match s.point pid with
    | .choosing [] busy => (s.upsertIndex ⟨id, true, s.now⟩).goOn pid (.created id busy)
    | _ => s
  | .claim pid writes =>
    match s.point pid with
    | .claiming candidate age =>
      (s.claim pid candidate.sessionId writes).goOn pid (.resuming candidate age)
    | .created id busy => (s.claim pid id writes).giveBack pid id (.othersBusy busy)
    | _ => s
  | .log pid =>
    match s.point pid with
    | .resuming candidate age =>
      (s.upsertIndex { candidate with updatedAt := s.now }).giveBack pid candidate.sessionId
        (.resumed age)
    | _ => s

/-- **No two live processes have one session.** -/
def OwnedOnce (s : Workspace) : Prop :=
  ∀ pid other id, pid ≠ other → s.alive pid = true → s.alive other = true →
    (s.process pid).Owns id → ¬ (s.process other).Owns id

/-- The step is not in the way of another one: a session that is found free is not about to be
claimed by another live process, nor held by one that claimed it more than five minutes ago; a
session that is created has a new id; a claim is written. -/
def Undisturbed (s : Workspace) : Action → Prop
  | .check pid =>
    ∀ candidate rest busy, s.point pid = .choosing (candidate :: rest) busy →
      s.claimedByOther pid candidate.sessionId = false →
      ∀ other, other ≠ pid → s.alive other = true →
        (s.process other).phase.target ≠ some candidate.sessionId ∧
          ((s.process other).Holds candidate.sessionId →
            ∀ heartbeat, s.owner candidate.sessionId = some ⟨other, heartbeat⟩ →
              s.now - heartbeat ≤ staleAfter)
  | .create _ id => id ∉ s.index.map SessionEntry.sessionId
  | .claim _ writes => writes = true
  | _ => True

/-! ## What holds in between -/

/-- What a live process has is claimed by it; what it is about to claim nobody else has, or is
about to claim; and all of it is in the index. -/
structure Owned (s : Workspace) : Prop where
  claimed : ∀ pid id, s.alive pid = true → (s.process pid).Holds id →
    ∃ heartbeat, s.owner id = some ⟨pid, heartbeat⟩
  alone : ∀ pid id, s.alive pid = true → (s.process pid).phase.target = some id →
    ∀ other, other ≠ pid → s.alive other = true →
      ¬ (s.process other).Holds id ∧ (s.process other).phase.target ≠ some id
  listed : ∀ pid id, (s.process pid).Holds id ∨ (s.process pid).phase.target = some id ∨
    (∃ candidates busy, (s.process pid).phase = .choosing candidates busy ∧
      id ∈ candidates.map SessionEntry.sessionId) → id ∈ s.index.map SessionEntry.sessionId

section Steps

variable {s : Workspace} {pid : Nat} {id : Text}

theorem owned_quiet (now : Nat) (psutil : Bool) (index : List SessionEntry)
    (owner : Text → Option Claim) : Owned (.quiet now psutil index owner) where
  claimed := fun _ _ halive => by cases halive
  alone := fun _ _ halive => by cases halive
  listed := by
    intro _ id h
    rcases h with (hown | ⟨_, _, hp, _⟩) | ht | ⟨_, _, hp, _⟩
    · exact absurd hown List.not_mem_nil
    · cases hp
    · cases ht
    · cases hp

/-- A process goes on: it holds what it has claimed and nobody is about to claim, and what it
is about to claim nobody else has. -/
theorem Owned.setProcess {p : Process} (h : Owned s)
    (hclaimed : p.alive = true → ∀ id, p.Holds id →
      (∃ heartbeat, s.owner id = some ⟨pid, heartbeat⟩) ∧
      ∀ other, other ≠ pid → s.alive other = true → (s.process other).phase.target ≠ some id)
    (halone : p.alive = true → ∀ id, p.phase.target = some id →
      ∀ other, other ≠ pid → s.alive other = true →
        ¬ (s.process other).Holds id ∧ (s.process other).phase.target ≠ some id)
    (hlisted : ∀ id, p.Holds id ∨ p.phase.target = some id ∨
      (∃ candidates busy, p.phase = .choosing candidates busy ∧
        id ∈ candidates.map SessionEntry.sessionId) → id ∈ s.index.map SessionEntry.sessionId) :
    Owned (s.setProcess pid p) := by
  have hself : (s.setProcess pid p).process pid = p := Function.update_self ..
  have hother : ∀ {other}, other ≠ pid → (s.setProcess pid p).process other = s.process other :=
    fun hne => Function.update_of_ne hne ..
  refine ⟨fun q id halive hholds => ?_, fun q id halive htarget other hne hlive => ?_,
    fun q id hin => ?_⟩
  · by_cases hq : q = pid
    · subst hq
      unfold Workspace.alive at halive
      rw [hself] at halive hholds
      exact (hclaimed halive id hholds).1
    · unfold Workspace.alive at halive
      rw [hother hq] at halive hholds
      exact h.claimed q id halive hholds
  · unfold Workspace.alive at halive hlive
    by_cases hq : q = pid
    · subst hq
      rw [hself] at halive htarget
      rw [hother hne] at hlive ⊢
      exact halone halive id htarget other hne hlive
    · rw [hother hq] at halive htarget
      by_cases ho : other = pid
      · subst ho
        rw [hself] at hlive ⊢
        refine ⟨fun hholds => (hclaimed hlive id hholds).2 q hq halive htarget, fun ht => ?_⟩
        exact (halone hlive id ht q hq halive).2 htarget
      · rw [hother ho] at hlive ⊢
        exact h.alone q id halive htarget other hne hlive
  · by_cases hq : q = pid
    · subst hq
      rw [hself] at hin
      exact hlisted id hin
    · rw [hother hq] at hin
      exact h.listed q id hin

/-- The claim on a session that nobody else has is written. -/
theorem Owned.claim (h : Owned s) (halive : s.alive pid = true)
    (htarget : (s.process pid).phase.target = some id) : Owned (s.claim pid id true) := by
  refine ⟨fun q id' hq hholds => ?_, h.alone, h.listed⟩
  by_cases hid : id' = id
  · subst hid
    by_cases hqp : q = pid
    · subst hqp
      exact ⟨_, Function.update_self ..⟩
    · exact absurd hholds (h.alone pid id' halive htarget q hqp hq).1
  · obtain ⟨heartbeat, ho⟩ := h.claimed q id' hq hholds
    exact ⟨heartbeat, (Function.update_of_ne hid ..).trans ho⟩

theorem sessionId_mem_upsertIndex {entry : SessionEntry}
    (h : id ∈ s.index.map SessionEntry.sessionId ∨ id = entry.sessionId) :
    id ∈ (s.upsertIndex entry).index.map SessionEntry.sessionId := by
  unfold Workspace.upsertIndex
  dsimp only
  rw [List.map_append, List.mem_append]
  by_cases hid : id = entry.sessionId
  · exact Or.inr (by rw [hid]; exact List.mem_singleton.mpr rfl)
  · obtain ⟨e, he, rfl⟩ := List.mem_map.mp (h.resolve_right hid)
    exact Or.inl (List.mem_map_of_mem (List.mem_filter.mpr ⟨he, by simpa using hid⟩))

theorem Owned.upsertIndex (h : Owned s) (entry : SessionEntry) : Owned (s.upsertIndex entry) where
  claimed := h.claimed
  alone := h.alone
  listed := fun q id hin => sessionId_mem_upsertIndex (Or.inl (h.listed q id hin))

/-- Nobody else is about to claim what a live process has. -/
theorem Owned.target_ne (h : Owned s) (halive : s.alive pid = true)
    (hholds : (s.process pid).Holds id) : ∀ other, other ≠ pid → s.alive other = true →
      (s.process other).phase.target ≠ some id :=
  fun other hne hlive ht => (h.alone other id hlive ht pid hne.symm halive).1 hholds

/-- A process is given a session that it has claimed. -/
theorem Owned.giveBack {reason : Reason} (h : Owned s) (halive : s.alive pid = true)
    (hclaimed : ∃ heartbeat, s.owner id = some ⟨pid, heartbeat⟩)
    (hfree : ∀ other, other ≠ pid → s.alive other = true →
      (s.process other).phase.target ≠ some id)
    (hlisted : id ∈ s.index.map SessionEntry.sessionId) : Owned (s.giveBack pid id reason) := by
  have howns : ∀ id', { s.process pid with
      phase := .idle, returned := (s.process pid).returned ++ [(id, reason)] }.Holds id' →
      (s.process pid).Owns id' ∨ id' = id := by
    intro id' hcase
    rcases hcase with hown | ⟨_, _, hp, _⟩
    · unfold Process.Owns at hown
      rw [List.map_append, List.mem_append] at hown
      exact hown.imp_right List.mem_singleton.mp
    · cases hp
  refine h.setProcess (fun _ id' hholds => ?_) (fun _ id' ht => by cases ht) ?_
  · rcases howns id' hholds with hown | rfl
    · exact ⟨h.claimed pid id' halive (Or.inl hown), h.target_ne halive (Or.inl hown)⟩
    · exact ⟨hclaimed, hfree⟩
  · intro id' hcase
    rcases hcase with hholds | ht | ⟨_, _, hp, _⟩
    · rcases howns id' hholds with hown | rfl
      · exact h.listed pid id' (Or.inl (Or.inl hown))
      · exact hlisted
    · cases ht
    · cases hp

theorem point_eq {phase : Phase} (h : s.point pid = phase) (hidle : phase ≠ .idle) :
    s.alive pid = true ∧ (s.process pid).phase = phase := by
  unfold Workspace.point at h
  split at h
  next halive => exact ⟨halive, h⟩
  next => exact absurd h.symm hidle

/-- A process goes on, at a phase in which it has no more than before. -/
theorem Owned.goOn {phase : Phase} (h : Owned s)
    (hholds : ∀ id, { s.process pid with phase }.Holds id →
      (∃ heartbeat, s.owner id = some ⟨pid, heartbeat⟩) ∧
      ∀ other, other ≠ pid → s.alive other = true → (s.process other).phase.target ≠ some id)
    (halone : ∀ id, phase.target = some id → ∀ other, other ≠ pid → s.alive other = true →
      ¬ (s.process other).Holds id ∧ (s.process other).phase.target ≠ some id)
    (hlisted : ∀ id, phase.target = some id ∨
      (∃ candidate age, phase = .resuming candidate age ∧ candidate.sessionId = id) ∨
      (∃ candidates busy, phase = .choosing candidates busy ∧
        id ∈ candidates.map SessionEntry.sessionId) → id ∈ s.index.map SessionEntry.sessionId) :
    Owned (s.goOn pid phase) := by
  refine h.setProcess (fun _ => hholds) (fun _ => halone) ?_
  intro id hcase
  rcases hcase with (hown | hresuming) | ht | hc
  · exact h.listed pid id (Or.inl (Or.inl hown))
  · exact hlisted id (Or.inr (Or.inl hresuming))
  · exact hlisted id (Or.inl ht)
  · exact hlisted id (Or.inr (Or.inr hc))

/-- What a process that resumes nothing has it was given before. -/
theorem Owned.holds_before {phase : Phase} (h : Owned s) (halive : s.alive pid = true)
    (hno : ∀ candidate age, phase ≠ .resuming candidate age) (id : Text)
    (hholds : { s.process pid with phase }.Holds id) :
    (∃ heartbeat, s.owner id = some ⟨pid, heartbeat⟩) ∧
      ∀ other, other ≠ pid → s.alive other = true →
        (s.process other).phase.target ≠ some id := by
  rcases hholds with hown | ⟨candidate, age, hp, _⟩
  · exact ⟨h.claimed pid id halive (Or.inl hown), h.target_ne halive (Or.inl hown)⟩
  · exact absurd hp (hno candidate age)

/-- Nothing is held by a process that starts, or has ended. -/
theorem Owned.bare (h : Owned s) (alive : Bool) :
    Owned (s.setProcess pid ⟨alive, .idle, []⟩) := by
  have hno : ∀ id, ¬ (⟨alive, .idle, []⟩ : Process).Holds id := by
    intro id hcase
    rcases hcase with hown | ⟨_, _, hp, _⟩
    · exact absurd hown List.not_mem_nil
    · cases hp
  refine h.setProcess (fun _ id hholds => absurd hholds (hno id)) (fun _ id ht => by cases ht) ?_
  intro id hcase
  rcases hcase with hholds | ht | ⟨_, _, hp, _⟩
  · exact absurd hholds (hno id)
  · cases ht
  · cases hp

/-- A session that is found free, and that no other process is after, is held by no other. -/
theorem Owned.free (h : Owned s) {other : Nat} (hne : other ≠ pid) (hlive : s.alive other = true)
    (hfree : s.claimedByOther pid id = false)
    (hfresh : (s.process other).Holds id → ∀ heartbeat,
      s.owner id = some ⟨other, heartbeat⟩ → s.now - heartbeat ≤ staleAfter) :
    ¬ (s.process other).Holds id := by
  intro hholds
  obtain ⟨heartbeat, ho⟩ := h.claimed other id hlive hholds
  unfold Workspace.claimedByOther at hfree
  rw [ho] at hfree
  dsimp only at hfree
  rw [bne_iff_ne.mpr hne, decide_eq_true (hfresh hholds heartbeat ho), hlive, Bool.or_true] at hfree
  cases hfree

/-- One step that is in nobody's way. -/
theorem owned_step {a : Action} (h : Owned s) (ha : Undisturbed s a) : Owned (step s a) := by
  cases a with
  | spawn pid =>
    dsimp only [step]
    split
    · exact h
    · exact h.bare true
  | exit pid => exact h.bare false
  | tick time => exact ⟨h.claimed, h.alone, h.listed⟩
  | start pid =>
    dsimp only [step]
    split
    next hidle =>
      have halive := (Bool.and_eq_true_iff.mp hidle).1
      refine h.goOn (h.holds_before halive fun _ _ => Phase.noConfusion)
        (fun id ht => by cases ht) ?_
      intro id hcase
      rcases hcase with ht | ⟨_, _, hp, _⟩ | ⟨candidates, busy, hp, hid⟩
      · cases ht
      · cases hp
      · cases hp
        obtain ⟨e, he, rfl⟩ := List.mem_map.mp hid
        exact List.mem_map_of_mem ((List.mem_insertionSort _).mp (List.mem_filter.mp he).1)
    next => exact h
  | check pid =>
    dsimp only [step]
    split
    next candidate rest busy hpoint =>
      obtain ⟨halive, hphase⟩ := point_eq hpoint Phase.noConfusion
      -- candidates come from the index, and no step takes an entry out of it
      have hin : ∀ id ∈ (candidate :: rest).map SessionEntry.sessionId,
          id ∈ s.index.map SessionEntry.sessionId :=
        fun id hid => h.listed pid id (Or.inr (Or.inr ⟨_, _, hphase, hid⟩))
      split
      next =>
        refine h.goOn (h.holds_before halive fun _ _ => Phase.noConfusion)
          (fun id ht => by cases ht) ?_
        intro id hcase
        rcases hcase with ht | ⟨_, _, hp, _⟩ | ⟨candidates, busy, hp, hid⟩
        · cases ht
        · cases hp
        · cases hp
          exact hin id (List.mem_cons_of_mem _ hid)
      next hfree =>
        refine h.goOn (h.holds_before halive fun _ _ => Phase.noConfusion) ?_ ?_
        · -- nobody else has it, or is about to
          intro id ht other hne hlive
          cases ht
          have hfree : s.claimedByOther pid candidate.sessionId = false := by simpa using hfree
          obtain ⟨htarget, hfresh⟩ := ha candidate rest busy hpoint hfree other hne hlive
          exact ⟨h.free hne hlive hfree hfresh, htarget⟩
        · intro id hcase
          rcases hcase with ht | ⟨_, _, hp, _⟩ | ⟨_, _, hp, _⟩
          · cases ht
            exact hin _ (List.mem_cons_self ..)
          · cases hp
          · cases hp
    next => exact h
  | create pid id =>
    dsimp only [step]
    split
    next busy hpoint =>
      obtain ⟨halive, hphase⟩ := point_eq hpoint Phase.noConfusion
      have hnew : ∀ id' ∈ s.index.map SessionEntry.sessionId, id' ≠ id := by
        intro id' hid heq
        subst heq
        exact ha hid
      refine (h.upsertIndex ⟨id, true, s.now⟩).goOn
        ((h.upsertIndex _).holds_before halive fun _ _ => Phase.noConfusion) ?_ ?_
      · intro id' ht other hne hlive
        cases ht
        exact ⟨fun hholds => hnew _ (h.listed other id (Or.inl hholds)) rfl,
          fun ht => hnew _ (h.listed other id (Or.inr (Or.inl ht))) rfl⟩
      · intro id' hcase
        rcases hcase with ht | ⟨_, _, hp, _⟩ | ⟨_, _, hp, _⟩
        · cases ht
          exact sessionId_mem_upsertIndex (Or.inr rfl)
        · cases hp
        · cases hp
    next => exact h
  | claim pid writes =>
    obtain rfl : writes = true := ha
    dsimp only [step]
    split
    next candidate age hpoint =>
      obtain ⟨halive, hphase⟩ := point_eq hpoint Phase.noConfusion
      have htarget : (s.process pid).phase.target = some candidate.sessionId := by
        rw [hphase]
        rfl
      have hin := h.listed pid _ (Or.inr (Or.inl htarget))
      have hclaim := h.claim halive htarget
      refine hclaim.goOn ?_ (fun id ht => by cases ht) ?_
      · intro id hcase
        rcases hcase with hown | ⟨_, _, hp, rfl⟩
        · exact ⟨hclaim.claimed pid id halive (Or.inl hown),
            hclaim.target_ne halive (Or.inl hown)⟩
        · cases hp
          exact ⟨⟨_, Function.update_self ..⟩,
            fun other hne hlive => (h.alone pid _ halive htarget other hne hlive).2⟩
      · intro id hcase
        rcases hcase with ht | ⟨_, _, hp, rfl⟩ | ⟨_, _, hp, _⟩
        · cases ht
        · cases hp
          exact hin
        · cases hp
    next id busy hpoint =>
      obtain ⟨halive, hphase⟩ := point_eq hpoint Phase.noConfusion
      have htarget : (s.process pid).phase.target = some id := by
        rw [hphase]
        rfl
      exact (h.claim halive htarget).giveBack halive ⟨_, Function.update_self ..⟩
        (fun other hne hlive => (h.alone pid _ halive htarget other hne hlive).2)
        (h.listed pid _ (Or.inr (Or.inl htarget)))
    next => exact h
  | log pid =>
    dsimp only [step]
    split
    next candidate age hpoint =>
      obtain ⟨halive, hphase⟩ := point_eq hpoint Phase.noConfusion
      have hholds : (s.process pid).Holds candidate.sessionId := Or.inr ⟨_, _, hphase, rfl⟩
      exact (h.upsertIndex _).giveBack halive (h.claimed pid _ halive hholds)
        (h.target_ne halive hholds) (sessionId_mem_upsertIndex (Or.inr rfl))
    next => exact h

end Steps

theorem Owned.once {s : Workspace} (h : Owned s) : OwnedOnce s := by
  intro pid other id hne halive hlive hown hother
  obtain ⟨_, ho⟩ := h.claimed pid id halive (Or.inl hown)
  obtain ⟨_, ho'⟩ := h.claimed other id hlive (Or.inl hother)
  rw [ho] at ho'
  cases ho'
  exact hne rfl

/-- **One process per session**: over any run of any number of processes that are in nobody's
way, from whatever sessions and claims there are on disk. -/
theorem session_owned_once {now : Nat} {psutil : Bool} {index : List SessionEntry}
    {owner : Text → Option Claim} {as : List Action}
    (hcalm : Along step Undisturbed (.quiet now psutil index owner) as) :
    Always step OwnedOnce (.quiet now psutil index owner) as :=
  Always.mono (fun _ h => h.once)
    (always_of_along (fun _ _ h ha => owned_step h ha) (owned_quiet now psutil index owner) hcalm)

/-- A workspace with one session, which nobody has claimed. -/
def oneSession : Workspace := .quiet 0 true [⟨['s'], true, 0⟩] fun _ => none

/-- The second process comes when the first one has the session. -/
def oneByOne : List Action :=
  [.spawn 1, .start 1, .check 1, .claim 1 true, .log 1, .spawn 2, .start 2, .check 2,
    .create 2 ['t'], .claim 2 true]

/-- The theorem on a run. -/
theorem session_owned_once_oneByOne : Always step OwnedOnce oneSession oneByOne := by
  refine session_owned_once
    ⟨trivial, trivial, ?_, rfl, trivial, trivial, trivial, ?_, ?_, rfl, trivial⟩
  · intro candidate rest busy _ _ other hne hlive
    have halone : (run step oneSession (oneByOne.take 2)).alive other = false := by
      simp [oneByOne, oneSession, Workspace.quiet, step, Workspace.alive, Workspace.setProcess,
        Workspace.goOn, Workspace.point, Function.update, hne]
    cases halone.symm.trans hlive
  · intro candidate rest busy hpoint _ other hne hlive
    have hc : (run step oneSession (oneByOne.take 7)).point 2 = .choosing [⟨['s'], true, 0⟩] 0 := by
      decide
    cases hc.symm.trans hpoint
    refine ⟨?_, fun _ heartbeat ho => ?_⟩
    · by_cases h₁ : other = 1
      · rw [h₁]
        decide
      · have hdead : (run step oneSession (oneByOne.take 7)).alive other = false := by
          simp [oneByOne, oneSession, Workspace.quiet, step, Workspace.alive,
            Workspace.setProcess, Workspace.goOn, Workspace.giveBack, Workspace.point,
            Workspace.claim, Workspace.upsertIndex, Workspace.claimedByOther,
            Workspace.activeLoggers, Function.update, hne, h₁]
        cases hdead.symm.trans hlive
    · have hclaim : (run step oneSession (oneByOne.take 7)).owner ['s'] = some ⟨1, 0⟩ := by
        decide
      cases hclaim.symm.trans ho
      decide
  · show _ ∉ (run step oneSession (oneByOne.take 8)).index.map SessionEntry.sessionId
    decide

/-- Both processes look at the session before either has claimed it. -/
def bothLook : List Action :=
  [.spawn 1, .spawn 2, .start 1, .start 2, .check 1, .check 2, .claim 1 true, .claim 2 true, .log 1,
    .log 2]

/-- Then both have it. -/
theorem session_owned_twice :
    ¬ ∀ (now : Nat) (psutil : Bool) (index : List SessionEntry) (owner : Text → Option Claim)
      (as : List Action), Always step OwnedOnce (.quiet now psutil index owner) as := by
  intro h
  have hend := always_iff.mp (h 0 true [⟨['s'], true, 0⟩] (fun _ => none) bothLook) bothLook
    (List.prefix_refl _)
  exact hend 1 2 ['s'] (by decide) (by decide) (by decide) (by decide)
    (by decide)

end Shamsu.Session
