import Shamsu.Lib.Run
import Shamsu.Tools.Resolve

/-!
# What several loggers write of one session

`shamsu/session/manager.py`: the metadata of a session is in `session.json` and in the index,
and in the memory of every logger of the session. A logger reads it once, when it is opened, and
writes all of it whenever it logs.

So what `rename_session`, `clear_context` and `save_summary` have written is written over by the
next log of a logger that has other values: `effects_kept_iff`.
-/

namespace Shamsu.Session

open Shamsu.Lib Shamsu.Py
open Shamsu.Tools (Casing)

/-- `SessionMetadata`, as far as it changes. -/
structure SessionMetadata where
  title : Text
  updatedAt : Nat
  lastUserPrompt : Text := []
  eventCount : Nat := 0
  autoTitled : Bool := false
  messageCount : Nat := 0
  summaryUpdatedAt : Nat := 0
  summary : Text := []
  summarizedUpto : Int := 1
  contextClearedUpto : Int := 0
  deriving DecidableEq, Repr

/-- The session on disk, with the titles of the other sessions and the length of its transcript,
and its loggers. -/
structure Shared where
  file : SessionMetadata
  index : SessionMetadata
  otherTitles : List Text
  messages : Nat
  logger : Nat → Option SessionMetadata

/-- `DEFAULT_TITLE`. -/
def defaultTitle : Text := "Untitled Session".toList

/-- `f"{desired} ({suffix})"`. -/
def suffixed (desired : Text) (suffix : Nat) : Text :=
  desired ++ " (".toList ++ (toString suffix).toList ++ ")".toList

/-- `unique_title`: of as many suffixes as there are titles, and one, one is free. -/
def uniqueTitle (c : Casing) (others : List Text) (desired : Text) : Text :=
  let desired := if strip desired = [] then defaultTitle else strip desired
  let existing := others.map fun title => c.lower (strip title)
  if !existing.contains (c.lower desired) then desired
  else
    let free := (List.range (others.length + 1)).find? fun n =>
      !existing.contains (c.lower (suffixed desired (n + 2)))
    suffixed desired (free.getD 0 + 2)

/-- An event that is logged; a prompt has its text. -/
inductive EventType where
  | userPrompt (prompt : Text)
  | chatMessage
  | other
  deriving DecidableEq, Repr

/-- What `log` makes of the metadata. -/
def SessionMetadata.logged (m : SessionMetadata) (now : Nat) (event : EventType) :
    SessionMetadata :=
  let m := { m with eventCount := m.eventCount + 1, updatedAt := now }
  match event with
  | .userPrompt prompt => { m with lastUserPrompt := prompt }
  | .chatMessage => { m with messageCount := m.messageCount + 1 }
  | .other => m

/-- What `save_summary` does. -/
def SessionMetadata.summed (m : SessionMetadata) (now : Nat) (summary : Text) (upto : Int) :
    SessionMetadata :=
  { m with summary, summarizedUpto := max upto 1, summaryUpdatedAt := now }

/-- What `clear_context` does. -/
def SessionMetadata.cleared (m : SessionMetadata) (now : Nat) (existing : Nat) :
    SessionMetadata :=
  { m with
    contextClearedUpto := existing, summary := [], summarizedUpto := max existing 1
    summaryUpdatedAt := now }

/-- What `rename_session` does. -/
def SessionMetadata.renamed (m : SessionMetadata) (now : Nat) (title : Text) : SessionMetadata :=
  { m with title, autoTitled := true, updatedAt := now }

/-- What is done to the session: by one of its loggers, or by a manager. -/
inductive Operation where
  /-- A logger is opened. -/
  | openLogger (k : Nat)
  | log (k : Nat) (now : Nat) (event : EventType)
  | appendMessage
  | renameSession (now : Nat) (title : Text)
  | clearContext (k : Nat) (now : Nat)
  | saveSummary (k : Nat) (now : Nat) (summary : Text) (upto : Int)
  deriving DecidableEq, Repr

namespace Shared

variable (s : Shared)

/-- `_write_metadata` and `_upsert_index`. -/
def writeMetadata (m : SessionMetadata) : Shared := { s with file := m, index := m }

/-- A logger changes its metadata and writes them. -/
def change (k : Nat) (f : SessionMetadata → SessionMetadata) : Shared :=
  match s.logger k with
  | none => s
  | some m => { s with logger := Function.update s.logger k (some (f m)) }.writeMetadata (f m)

/-- One operation. A manager reads the index. -/
def step (c : Casing) (s : Shared) : Operation → Shared
  | .openLogger k =>
    match s.logger k with
    | none => { s with logger := Function.update s.logger k (some s.index) }
    | some _ => s
  | .log k now event => s.change k fun m => m.logged now event
  | .appendMessage => { s with messages := s.messages + 1 }
  | .renameSession now title =>
    s.writeMetadata (s.index.renamed now (uniqueTitle c s.otherTitles title))
  | .clearContext k now => s.change k fun m => m.cleared now s.messages
  | .saveSummary k now summary upto => s.change k fun m => m.summed now summary upto

end Shared

/-- The operations that are asked to stay. -/
def Operation.isChange : Operation → Bool
  | .renameSession .. | .clearContext .. | .saveSummary .. => true
  | _ => false

/-- The logger whose operation it is. -/
def Operation.logger : Operation → Option Nat
  | .openLogger k | .log k .. | .clearContext k _ | .saveSummary k .. => some k
  | _ => none

/-- What an operation leaves in the metadata. -/
inductive Effect where
  | title (title : Text) (autoTitled : Bool)
  | context (clearedUpto : Int) (summary : Text) (summarizedUpto : Int)
  | summary (summary : Text) (summarizedUpto : Int)
  deriving DecidableEq, Repr

/-- The part of the metadata that the operation sets. -/
def Operation.effect (op : Operation) (m : SessionMetadata) : Option Effect :=
  match op with
  | .renameSession .. => some (.title m.title m.autoTitled)
  | .clearContext .. => some (.context m.contextClearedUpto m.summary m.summarizedUpto)
  | .saveSummary .. => some (.summary m.summary m.summarizedUpto)
  | _ => none

/-- It is a change of the metadata, by a manager or by a logger that is open. -/
def Operation.Changes (op : Operation) (s : Shared) : Prop :=
  op.isChange = true ∧ ∀ k, op.logger = some k → s.logger k ≠ none

/-- A logger logs, that was open before another one's (or a manager's) operation was completed,
while the effect of that is in place. -/
structure LogsAfter (c : Casing) (s₀ : Shared) (earlier : List Operation) (op : Operation)
    (between : List Operation) (k : Nat) : Prop where
  changes : op.Changes (run (Shared.step c) s₀ earlier)
  another : op.logger ≠ some k
  opened : (run (Shared.step c) s₀ earlier).logger k ≠ none
  file : op.effect (run (Shared.step c) s₀ (earlier ++ op :: between)).file =
    op.effect (run (Shared.step c) s₀ (earlier ++ [op])).file
  index : op.effect (run (Shared.step c) s₀ (earlier ++ op :: between)).index =
    op.effect (run (Shared.step c) s₀ (earlier ++ [op])).index

/-- **No log undoes what has been completed.** -/
def EffectsKept (c : Casing) (s₀ : Shared) (ops : List Operation) : Prop :=
  ∀ earlier op between k now event later,
    ops = earlier ++ op :: (between ++ .log k now event :: later) →
    LogsAfter c s₀ earlier op between k →
    let done := run (Shared.step c) s₀ (earlier ++ [op])
    let s := run (Shared.step c) s₀ (earlier ++ op :: (between ++ [.log k now event]))
    op.effect s.file = op.effect done.file ∧ op.effect s.index = op.effect done.index

/-- The logger that logs has what has been completed in its own copy. -/
def LoggersInformed (c : Casing) (s₀ : Shared) (ops : List Operation) : Prop :=
  ∀ earlier op between k now event later,
    ops = earlier ++ op :: (between ++ .log k now event :: later) →
    LogsAfter c s₀ earlier op between k →
    let s := run (Shared.step c) s₀ (earlier ++ op :: between)
    ∀ m, s.logger k = some m → op.effect m = op.effect s.file

section Steps

variable {c : Casing} {s : Shared} {op : Operation} {k : Nat}

@[simp] theorem effect_logged (m : SessionMetadata) (now : Nat) (event : EventType) :
    op.effect (m.logged now event) = op.effect m := by
  cases op <;> cases event <;> rfl

theorem log_eq {m : SessionMetadata} (h : s.logger k = some m) (now : Nat) (event : EventType) :
    (s.step c (.log k now event)).file = m.logged now event ∧
      (s.step c (.log k now event)).index = m.logged now event := by
  dsimp only [Shared.step, Shared.change]
  rw [h]
  exact ⟨rfl, rfl⟩

/-- A change that is completed is in the file and in the index. -/
theorem file_eq_index (h : op.Changes s) : (s.step c op).file = (s.step c op).index := by
  obtain ⟨hchange, hopen⟩ := h
  have hwrite : ∀ (k : Nat) (f : SessionMetadata → SessionMetadata), s.logger k ≠ none →
      (s.change k f).file = (s.change k f).index := by
    intro k f hk
    unfold Shared.change
    cases hm : s.logger k with
    | none => exact absurd hm hk
    | some m => rfl
  cases op with
  | renameSession => rfl
  | clearContext k => exact hwrite k _ (hopen k rfl)
  | saveSummary k => exact hwrite k _ (hopen k rfl)
  | openLogger => cases hchange
  | log => cases hchange
  | appendMessage => cases hchange

/-- A logger stays open. -/
theorem logger_step (h : s.logger k ≠ none) (op : Operation) : (s.step c op).logger k ≠ none := by
  have hupdate : ∀ (j : Nat) (m : SessionMetadata),
      Function.update s.logger j (some m) k ≠ none := by
    intro j m
    by_cases hkj : k = j
    · subst hkj
      rw [Function.update_self]
      exact Option.some_ne_none m
    · rw [Function.update_of_ne hkj]
      exact h
  have hchange : ∀ (j : Nat) (f : SessionMetadata → SessionMetadata),
      (s.change j f).logger k ≠ none := by
    intro j f
    unfold Shared.change
    cases s.logger j with
    | none => exact h
    | some m => exact hupdate j (f m)
  cases op with
  | openLogger j =>
    dsimp only [Shared.step]
    cases s.logger j with
    | none => exact hupdate j s.index
    | some m => exact h
  | log j now event => exact hchange j _
  | appendMessage => exact h
  | renameSession => exact h
  | clearContext j => exact hchange j _
  | saveSummary j => exact hchange j _

theorem logger_run (h : s.logger k ≠ none) (ops : List Operation) :
    (run (Shared.step c) s ops).logger k ≠ none := by
  induction ops generalizing s with
  | nil => exact h
  | cons op ops ih => exact ih (logger_step h op)

/-- One log keeps the effect, exactly when the logger has it. -/
theorem log_keeps_iff {s₀ : Shared} {earlier between : List Operation}
    (h : LogsAfter c s₀ earlier op between k) (now : Nat) (event : EventType) :
    (let done := run (Shared.step c) s₀ (earlier ++ [op])
     let s := run (Shared.step c) s₀ (earlier ++ op :: (between ++ [.log k now event]))
     op.effect s.file = op.effect done.file ∧ op.effect s.index = op.effect done.index) ↔
    (let s := run (Shared.step c) s₀ (earlier ++ op :: between)
     ∀ m, s.logger k = some m → op.effect m = op.effect s.file) := by
  dsimp only
  have hopen : (run (Shared.step c) s₀ (earlier ++ op :: between)).logger k ≠ none := by
    rw [run_append]
    exact logger_run h.opened _
  have hboth : (run (Shared.step c) s₀ (earlier ++ [op])).file =
      (run (Shared.step c) s₀ (earlier ++ [op])).index := by
    rw [run_append]
    exact file_eq_index h.changes
  have hlog : run (Shared.step c) s₀ (earlier ++ op :: (between ++ [.log k now event])) =
      (run (Shared.step c) s₀ (earlier ++ op :: between)).step c (.log k now event) := by
    rw [← List.cons_append, ← List.append_assoc, run_append]
    rfl
  rw [hlog, h.file]
  obtain ⟨m, hm⟩ := Option.ne_none_iff_exists'.mp hopen
  obtain ⟨hfile, hindex⟩ := log_eq (c := c) hm now event
  rw [hfile, hindex, effect_logged, ← hboth]
  constructor
  · intro hsome m' hm'
    obtain ⟨he, _⟩ := hsome
    cases hm.symm.trans hm'
    exact he
  · intro he
    exact ⟨he m hm, he m hm⟩

end Steps

/-- **What is completed stays**, exactly when the loggers that log have it in their own copy:
for every order of the operations of any number of loggers and managers. -/
theorem effects_kept_iff (c : Casing) (s₀ : Shared) (ops : List Operation) :
    EffectsKept c s₀ ops ↔ LoggersInformed c s₀ ops := by
  constructor
  · intro h earlier op between k now event later hops hlogs
    exact (log_keeps_iff hlogs now event).mp (h earlier op between k now event later hops hlogs)
  · intro h earlier op between k now event later hops hlogs
    exact (log_keeps_iff hlogs now event).mpr (h earlier op between k now event later hops hlogs)

/-- A session with no loggers. -/
def newSession : Shared :=
  { file := { title := defaultTitle, updatedAt := 0 }
    index := { title := defaultTitle, updatedAt := 0 }
    otherTitles := [], messages := 0, logger := fun _ => none }

/-- A logger that was open when the session was renamed takes the new title back. -/
theorem rename_undone : ¬ EffectsKept Casing.ascii newSession
    [.openLogger 0, .renameSession 1 "Fix login".toList, .log 0 2 .chatMessage] := by
  intro h
  have hkept := h [.openLogger 0] (.renameSession 1 "Fix login".toList) [] 0 2 .chatMessage [] rfl
    { changes := ⟨rfl, fun k hk => by cases hk⟩
      another := fun he => by cases he
      opened := by decide
      file := rfl
      index := rfl }
  exact absurd hkept.1 (by decide)

end Shamsu.Session
