import Shamsu.Lib.Bisect
import Shamsu.Py.Text

/-!
# Fitting a text into a number of tokens

`shamsu/context/budget.py`: `fit_token_budget` searches the lengths of a text for one whose
beginning fits, and measures each beginning with its marker by the counter that is in use.
The counter is a parameter: the vendored tokenizer, or a quarter of the characters without it
(`estimatedTokens`).

`fitTokenBudget_longest`: what comes back is a beginning of the text that fits, and the
longest one where longer beginnings have more tokens. That it fits needs nothing of the
counter, since the loop keeps only what it has measured (`count_fitTokenBudget`).
-/

namespace Shamsu.Context

open Shamsu.Lib Shamsu.Py

/-- `count_tokens` without the tokenizer. -/
def estimatedTokens (text : Text) : Nat := text.length / 4

/-- `fit_token_budget`. -/
def fitTokenBudget (countTokens : Text → Nat) (text : Text) (maxTokens : Int)
    (suffix : Text := []) : Text :=
  let cap := maxTokens.toNat
  if countTokens text ≤ cap then text
  else
    let suffix := if cap < countTokens suffix then [] else suffix
    match bisect (fun n => decide (countTokens (text.take n ++ suffix) ≤ cap)) 0
      (text.length + 1) none with
    | some n => text.take n ++ suffix
    | none => suffix

/-- A longer text has no fewer tokens than its beginning. -/
def MonotoneOnPrefixes (countTokens : Text → Nat) : Prop :=
  ∀ p q : Text, p <+: q → countTokens p ≤ countTokens q

theorem monotone_estimatedTokens : MonotoneOnPrefixes estimatedTokens :=
  fun _ _ h => Nat.div_le_div_right h.length_le

variable {countTokens : Text → Nat}

/-- **What comes back fits**, its marker included. -/
theorem count_fitTokenBudget (hnil : countTokens [] = 0) (text : Text) (maxTokens : Int)
    (suffix : Text) :
    countTokens (fitTokenBudget countTokens text maxTokens suffix) ≤ maxTokens.toNat := by
  unfold fitTokenBudget
  dsimp only
  split
  next h => exact h
  next =>
    generalize hmark : (if maxTokens.toNat < countTokens suffix then [] else suffix) = mark
    have hmarkFits : countTokens mark ≤ maxTokens.toNat := by
      rw [← hmark]
      split
      · rw [hnil]
        exact Nat.zero_le _
      next h => exact Nat.le_of_not_lt h
    split
    next n hn =>
      have hpass := (bisect_passes _ _ _ n hn).resolve_left nofun
      exact of_decide_eq_true hpass.2
    next => exact hmarkFits

/-- Without a marker it is a beginning of the text. -/
theorem fitTokenBudget_prefix (text : Text) (maxTokens : Int) :
    fitTokenBudget countTokens text maxTokens <+: text := by
  unfold fitTokenBudget
  dsimp only
  rw [ite_self]
  split
  · exact List.prefix_rfl
  · split
    · rw [List.append_nil]
      exact List.take_prefix _ _
    · exact List.nil_prefix

/-- Beginnings that fit are no longer than it. -/
theorem length_le_fitTokenBudget (maxTokens : Int) (hmono : MonotoneOnPrefixes countTokens)
    {text p : Text} (hp : p <+: text) (hfits : countTokens p ≤ maxTokens.toNat) :
    p.length ≤ (fitTokenBudget countTokens text maxTokens).length := by
  unfold fitTokenBudget
  dsimp only
  rw [ite_self]
  split
  · exact hp.length_le
  next =>
    have hlen := hp.length_le
    have htake : text.take p.length = p := (List.prefix_iff_eq_take.mp hp).symm
    -- a beginning of a beginning that fits does so too
    have hdown : ∀ m n, m ≤ n →
        decide (countTokens (text.take n ++ []) ≤ maxTokens.toNat) = true →
        decide (countTokens (text.take m ++ []) ≤ maxTokens.toNat) = true := by
      intro m n hle hn
      rw [List.append_nil, decide_eq_true_eq] at hn ⊢
      exact (hmono _ _ (List.take_prefix_take_left hle)).trans hn
    obtain ⟨n, hn, hle⟩ := le_bisect hdown 0 (text.length + 1) none p.length (Nat.zero_le _)
      (by omega) (by rw [List.append_nil, htake, decide_eq_true_eq]; exact hfits)
    rw [hn]
    dsimp only
    rw [List.append_nil, List.length_take]
    omega

/-- **The longest beginning that fits**, for every text, limit and counter. -/
theorem fitTokenBudget_longest (countTokens : Text → Nat) (hnil : countTokens [] = 0) (text : Text)
    (maxTokens : Int) :
    fitTokenBudget countTokens text maxTokens <+: text ∧
      (countTokens (fitTokenBudget countTokens text maxTokens) : Int) ≤ max 0 maxTokens ∧
      (MonotoneOnPrefixes countTokens → ∀ p, p <+: text →
        (countTokens p : Int) ≤ max 0 maxTokens →
        p <+: fitTokenBudget countTokens text maxTokens) := by
  have hfits := count_fitTokenBudget hnil text maxTokens []
  refine ⟨ fitTokenBudget_prefix text maxTokens, by omega, ?_⟩
  intro hmono p hp hcount
  have hlen := length_le_fitTokenBudget maxTokens hmono hp (by omega)
  exact List.prefix_of_prefix_length_le hp ( fitTokenBudget_prefix text maxTokens) hlen

theorem fitTokenBudget_longest_words :
    fitTokenBudget estimatedTokens "hello world".toList 1 = "hello w".toList ∧
    fitTokenBudget estimatedTokens "hello world".toList 1 <+: "hello world".toList :=
  ⟨by simp [fitTokenBudget, bisect, estimatedTokens],
    (fitTokenBudget_longest estimatedTokens rfl "hello world".toList 1).1⟩

end Shamsu.Context
