import Shamsu.Py.Text

/-!
# The status of a run

`shamsu/action_ledger/ledger.py`: `TERMINAL_OUTCOMES`, and what `start`, `finish`
and `fail` do to the status in the manifest. `finish` takes any status and raises
for one that is not terminal (`finish_ok_iff`).
-/

namespace Shamsu.Ledger

open Shamsu.Py

/-- The statuses that callers write: `running`, the terminal ones, and the two that
`QueuedRunner` has of its own. -/
inductive RunStatus where
  | running
  | success | successUnverified | partialSuccess | failed | denied | needsInput | cancelled
  | timedOut | dryRun
  | stopped | incomplete
  deriving DecidableEq, Repr

/-- `TERMINAL_OUTCOMES`. -/
def terminalOutcomes : List RunStatus :=
  [.success, .successUnverified, .partialSuccess, .failed, .denied, .needsInput, .cancelled,
    .timedOut, .dryRun]

/-- What the manifest says of the run; there is none when the ledger is disabled. -/
abbrev Manifest := Option RunStatus

namespace Manifest

/-- `start`. -/
def start (enabled : Bool) : Manifest := if enabled then some .running else none

/-- The run is closed. -/
def isTerminal (m : Manifest) : Bool := m.any fun status => terminalOutcomes.contains status

/-- `finish`: `none` where it raises. A run that is closed stays as it is. -/
def finish (m : Manifest) (enabled : Bool) (status : RunStatus) : Option Manifest :=
  if !enabled then some m
  else if !terminalOutcomes.contains status then none
  else if m.isTerminal then some m
  else some (some status)

/-- `fail`. -/
def fail (m : Manifest) (enabled : Bool) : Option Manifest := m.finish enabled .failed

variable {m m' : Manifest} {enabled : Bool} {status : RunStatus}

theorem finish_isSome_iff : (m.finish enabled status).isSome = true ↔
    (enabled = true → status ∈ terminalOutcomes) := by
  unfold finish
  cases enabled with
  | false => simp
  | true =>
    by_cases h : status ∈ terminalOutcomes
    · have hc : terminalOutcomes.contains status = true := List.contains_iff_mem.mpr h
      rw [hc]
      simp only [Bool.not_true, Bool.false_eq_true, if_false, h]
      split <;> simp
    · have hc : terminalOutcomes.contains status = false := by
        rw [← Bool.not_eq_true, List.contains_iff_mem]
        exact h
      rw [hc]
      simp [h]

/-- After a `finish` the run is closed. -/
theorem isTerminal_finish (h : m.finish true status = some m') : m'.isTerminal = true := by
  unfold finish at h
  simp only [Bool.not_true, Bool.false_eq_true, if_false] at h
  split at h
  · cases h
  next hstatus =>
    split at h
    next hm =>
      cases h
      exact hm
    next =>
      cases h
      show terminalOutcomes.contains status = true
      simpa using hstatus

end Manifest

end Shamsu.Ledger
