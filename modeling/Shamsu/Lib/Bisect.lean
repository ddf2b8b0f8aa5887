import Mathlib

/-!
# Binary search for the last number that passes

`bisect` halves a range and keeps the last middle that passed the test. Whatever the test,
what it keeps has passed (`bisect_passes`). Where a number passes only if all below it do,
nothing above it passes (`le_bisect`).
-/

namespace Shamsu.Lib

/-- The search in `[low, stop)`, with the best so far. -/
def bisect (passes : Nat → Bool) (low stop : Nat) (best : Option Nat) : Option Nat :=
  if _h : low < stop then
    if passes ((low + (stop - 1)) / 2) then
      bisect passes ((low + (stop - 1)) / 2 + 1) stop (some ((low + (stop - 1)) / 2))
    else bisect passes low ((low + (stop - 1)) / 2) best
  else best
  termination_by stop - low
  decreasing_by all_goals omega

variable {passes : Nat → Bool}

/-- What is kept has passed, and is below the end. -/
theorem bisect_passes : ∀ (low stop : Nat) (best : Option Nat) (n : Nat),
    bisect passes low stop best = some n → best = some n ∨ (n < stop ∧ passes n = true)
  | low, stop, best, n => by
    unfold bisect
    split
    next h =>
      split
      next hpass =>
        intro hn
        rcases bisect_passes _ stop _ n hn with hbest | hlater
        · cases hbest
          exact Or.inr ⟨by omega, hpass⟩
        · exact Or.inr hlater
      next =>
        intro hn
        rcases bisect_passes low _ best n hn with hbest | ⟨hlt, hpass⟩
        · exact Or.inl hbest
        · exact Or.inr ⟨by omega, hpass⟩
    next => exact Or.inl
  termination_by low stop => stop - low
  decreasing_by all_goals omega

/-- Nothing is lost of the best so far. -/
theorem best_le_bisect : ∀ (low stop : Nat) (best : Option Nat) (m : Nat),
    (∀ n ∈ best, n < low) → m ∈ best → ∃ n, bisect passes low stop best = some n ∧ m ≤ n
  | low, stop, best, m => by
    intro hbest hm
    unfold bisect
    split
    next h =>
      have hlow := hbest m hm
      split
      next =>
        obtain ⟨n, hn, hle⟩ := best_le_bisect ((low + (stop - 1)) / 2 + 1) stop
          (some ((low + (stop - 1)) / 2)) _ (fun n hn => by cases hn; omega) rfl
        exact ⟨n, hn, by omega⟩
      next => exact best_le_bisect low _ best m hbest hm
    next => exact ⟨m, hm, Nat.le_refl m⟩
  termination_by low stop => stop - low
  decreasing_by all_goals omega

/-- **Where passing goes down**, what is kept is the last that passes. -/
theorem le_bisect (hdown : ∀ m n, m ≤ n → passes n = true → passes m = true) :
    ∀ (low stop : Nat) (best : Option Nat) (m : Nat), low ≤ m → m < stop → passes m = true →
      ∃ n, bisect passes low stop best = some n ∧ m ≤ n
  | low, stop, best, m => by
    intro hlow hstop hm
    unfold bisect
    rw [dif_pos (by omega)]
    split
    next hpass =>
      by_cases hnext : (low + (stop - 1)) / 2 + 1 ≤ m
      · exact le_bisect hdown _ stop _ m hnext hstop hm
      · obtain ⟨n, hn, hle⟩ := @best_le_bisect passes ((low + (stop - 1)) / 2 + 1) stop
          (some ((low + (stop - 1)) / 2)) _ (fun n hn => by cases hn; omega) rfl
        exact ⟨n, hn, by omega⟩
    next hfail =>
      have hbelow : m < (low + (stop - 1)) / 2 :=
        Nat.lt_of_not_le fun hle => hfail (hdown _ m hle hm)
      exact le_bisect hdown low _ best m hlow hbelow hm
  termination_by low stop => stop - low
  decreasing_by all_goals omega

end Shamsu.Lib
