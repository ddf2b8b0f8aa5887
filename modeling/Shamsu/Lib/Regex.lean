import Mathlib

/-!
# Regular expressions with look-around

A match is of a part of a text, between the element before it and the one after it: `look` asks
about these two and takes nothing, as `\b` does.

- `Matches r before s after`: what the expression means.
- `longest r before s`: how long the longest match is that `s` begins with, by derivatives.
- `search r s`: there is a match somewhere in `s`.

`longest_isSome` and `search_iff` say that the last two are what the first means.
-/

namespace Shamsu.Lib

inductive Regex (α : Type) where
  | empty
  | nothing
  | set (p : α → Bool)
  | look (q : Option α → Option α → Bool)
  | seq (a b : Regex α)
  | alt (a b : Regex α)
  | star (a : Regex α)

namespace Regex

variable {α : Type}

inductive Matches : Regex α → Option α → List α → Option α → Prop where
  | nothing {before after : Option α} : Matches .nothing before [] after
  | set {p : α → Bool} {c : α} {before after : Option α} (hc : p c = true) :
      Matches (.set p) before [c] after
  | look {q : Option α → Option α → Bool} {before after : Option α}
      (hq : q before after = true) : Matches (.look q) before [] after
  | seq {a b : Regex α} {s t : List α} {before after : Option α}
      (ha : Matches a before s (t.head?.or after)) (hb : Matches b (s.getLast?.or before) t after) :
      Matches (.seq a b) before (s ++ t) after
  | altLeft {a b : Regex α} {s : List α} {before after : Option α}
      (ha : Matches a before s after) : Matches (.alt a b) before s after
  | altRight {a b : Regex α} {s : List α} {before after : Option α}
      (hb : Matches b before s after) : Matches (.alt a b) before s after
  | done {a : Regex α} {before after : Option α} : Matches (.star a) before [] after
  | again {a : Regex α} {s t : List α} {before after : Option α}
      (ha : Matches a before s (t.head?.or after))
      (has : Matches (.star a) (s.getLast?.or before) t after) :
      Matches (.star a) before (s ++ t) after

/-- It matches nothing, between these two. -/
def nullable : Regex α → Option α → Option α → Bool
  | .empty, _, _ => false
  | .nothing, _, _ => true
  | .set _, _, _ => false
  | .look q, before, after => q before after
  | .seq a b, before, after => a.nullable before after && b.nullable before after
  | .alt a b, before, after => a.nullable before after || b.nullable before after
  | .star _, _, _ => true

/-- What is left to be matched after `c`. -/
def deriv : Regex α → Option α → α → Regex α
  | .empty, _, _ => .empty
  | .nothing, _, _ => .empty
  | .set p, _, c => if p c then .nothing else .empty
  | .look _, _, _ => .empty
  | .seq a b, before, c =>
    if a.nullable before (some c) then .alt (.seq (a.deriv before c) b) (b.deriv before c)
    else .seq (a.deriv before c) b
  | .alt a b, before, c => .alt (a.deriv before c) (b.deriv before c)
  | .star a, before, c => .seq (a.deriv before c) (.star a)

/-- The length of the longest match at the beginning. -/
def longest : Regex α → Option α → List α → Option Nat
  | r, before, [] => if r.nullable before none then some 0 else none
  | r, before, c :: s =>
    match longest (r.deriv before c) (some c) s with
    | some n => some (n + 1)
    | none => if r.nullable before (some c) then some 0 else none

/-- There is a match at the beginning, or later. -/
def searchFrom (r : Regex α) : Option α → List α → Bool
  | before, [] => (r.longest before []).isSome
  | before, c :: s => (r.longest before (c :: s)).isSome || searchFrom r (some c) s

def search (r : Regex α) (s : List α) : Bool := searchFrom r none s

/-! ## What they mean -/

theorem matches_nil {r : Regex α} {before after : Option α} :
    Matches r before [] after ↔ r.nullable before after = true := by
  induction r generalizing before after with
  | empty => exact ⟨nofun, nofun⟩
  | nothing => exact ⟨fun _ => rfl, fun _ => .nothing⟩
  | set p => exact ⟨nofun, nofun⟩
  | look q => exact ⟨fun h => by cases h; assumption, .look⟩
  | seq a b iha ihb =>
    rw [nullable, Bool.and_eq_true, ← iha, ← ihb]
    constructor
    · intro h
      generalize hs : ([] : List α) = s at h
      cases h with
      | seq ha hb =>
        obtain ⟨rfl, rfl⟩ := List.append_eq_nil_iff.mp hs.symm
        exact ⟨ha, hb⟩
    · intro hsome
      obtain ⟨ha, hb⟩ := hsome
      exact .seq (s := []) (t := []) ha hb
  | alt a b iha ihb =>
    rw [nullable, Bool.or_eq_true, ← iha, ← ihb]
    constructor
    · intro h
      cases h with
      | altLeft ha => exact .inl ha
      | altRight hb => exact .inr hb
    · intro hcase
      rcases hcase with ha | hb
      · exact .altLeft ha
      · exact .altRight hb
  | star a => exact ⟨fun _ => rfl, fun _ => .done⟩

theorem getLast?_cons_or (c : α) (s : List α) (before : Option α) :
    (c :: s).getLast?.or before = s.getLast?.or (some c) := by
  cases s with
  | nil => rfl
  | cons d s =>
    rw [List.getLast?_cons_cons]
    cases h : (d :: s).getLast? with
    | none => cases List.getLast?_eq_none_iff.mp h
    | some e => rfl

/-- A repetition that takes something takes something with one of its parts. -/
theorem star_cons {a : Regex α} {before after : Option α} {c : α} {s : List α}
    (h : Matches (.star a) before (c :: s) after) :
    ∃ s₁ s₂, s = s₁ ++ s₂ ∧ Matches a before (c :: s₁) (s₂.head?.or after) ∧
      Matches (.star a) ((c :: s₁).getLast?.or before) s₂ after := by
  generalize hr : Regex.star a = r at h
  generalize hs : c :: s = cs at h
  induction h with
  | @again a' t₁ t₂ before after ha has _ ih =>
    cases hr
    cases t₁ with
    | nil => exact ih rfl hs
    | cons d t₁ =>
      cases hs
      exact ⟨t₁, t₂, rfl, ha, has⟩
  | done => cases hs
  | _ => cases hr

theorem matches_cons {r : Regex α} {before after : Option α} {c : α} {s : List α} :
    Matches r before (c :: s) after ↔ Matches (r.deriv before c) (some c) s after := by
  induction r generalizing before after s with
  | empty => exact ⟨nofun, nofun⟩
  | nothing => exact ⟨nofun, nofun⟩
  | look q => exact ⟨nofun, nofun⟩
  | set p =>
    unfold deriv
    constructor
    · intro h
      cases h with
      | set hc =>
        rw [if_pos hc]
        exact .nothing
    · intro h
      split at h
      · cases h
        exact .set ‹_›
      · cases h
  | seq a b iha ihb =>
    -- the first part takes `c`, or nothing and the second takes it
    have hsplit : Matches (.seq a b) before (c :: s) after ↔
        Matches (.seq (a.deriv before c) b) (some c) s after ∨
          (a.nullable before (some c) = true ∧ Matches (b.deriv before c) (some c) s after) := by
      constructor
      · intro h
        generalize hs : c :: s = cs at h
        cases h with
        | @seq _ _ s₁ s₂ _ _ ha hb =>
          cases s₁ with
          | nil =>
            cases hs
            exact .inr ⟨matches_nil.mp ha, ihb.mp hb⟩
          | cons d s₁ =>
            cases hs
            rw [getLast?_cons_or] at hb
            exact .inl (.seq (iha.mp ha) hb)
      · intro hcase
        rcases hcase with h | ⟨hnull, hb⟩
        · cases h with
          | @seq _ _ s₁ s₂ _ _ ha hb =>
            rw [← getLast?_cons_or c s₁ before] at hb
            exact .seq (s := c :: s₁) (iha.mpr ha) hb
        · exact .seq (s := []) (t := c :: s) (matches_nil.mpr hnull) (ihb.mpr hb)
    rw [hsplit, deriv]
    by_cases hnull : a.nullable before (some c) = true
    · rw [if_pos hnull]
      constructor
      · intro hcase
        rcases hcase with h | ⟨_, h⟩
        · exact .altLeft h
        · exact .altRight h
      · intro h
        cases h with
        | altLeft h => exact .inl h
        | altRight h => exact .inr ⟨hnull, h⟩
    · rw [if_neg hnull]
      exact ⟨fun h => h.resolve_right fun h => hnull h.1, .inl⟩
  | alt a b iha ihb =>
    constructor
    · intro h
      cases h with
      | altLeft h => exact .altLeft (iha.mp h)
      | altRight h => exact .altRight (ihb.mp h)
    · intro h
      cases h with
      | altLeft h => exact .altLeft (iha.mpr h)
      | altRight h => exact .altRight (ihb.mpr h)
  | star a iha =>
    constructor
    · intro h
      obtain ⟨s₁, s₂, rfl, ha, has⟩ := star_cons h
      rw [getLast?_cons_or] at has
      exact .seq (iha.mp ha) has
    · intro h
      cases h with
      | @seq _ _ s₁ s₂ _ _ ha has =>
        rw [← getLast?_cons_or c s₁ before] at has
        exact .again (s := c :: s₁) (iha.mpr ha) has

/-! ## The matchers -/

/-- The length is the one of a match. -/
theorem matches_of_longest {r : Regex α} {before : Option α} {s : List α} {n : Nat}
    (h : r.longest before s = some n) :
    n ≤ s.length ∧ Matches r before (s.take n) (s.drop n).head? := by
  induction s generalizing r before n with
  | nil =>
    unfold longest at h
    split at h
    case isTrue hnull =>
      cases h
      exact ⟨Nat.zero_le _, matches_nil.mpr hnull⟩
    case isFalse => cases h
  | cons c s ih =>
    unfold longest at h
    split at h
    case h_1 m hm =>
      cases h
      obtain ⟨hle, hmatch⟩ := ih hm
      exact ⟨Nat.succ_le_succ hle, matches_cons.mpr hmatch⟩
    case h_2 =>
      split at h
      case isTrue hnull =>
        cases h
        exact ⟨Nat.zero_le _, matches_nil.mpr hnull⟩
      case isFalse => cases h

/-- No match is longer. -/
theorem le_longest {r : Regex α} {before : Option α} {s t : List α}
    (h : Matches r before s t.head?) : ∃ n, r.longest before (s ++ t) = some n ∧ s.length ≤ n := by
  induction s generalizing r before with
  | nil =>
    have hnull := matches_nil.mp h
    cases t with
    | nil => exact ⟨0, if_pos hnull, Nat.le_refl _⟩
    | cons c t =>
      rw [List.nil_append, longest]
      cases longest (r.deriv before c) (some c) t with
      | some n => exact ⟨n + 1, rfl, Nat.zero_le _⟩
      | none => exact ⟨0, if_pos hnull, Nat.le_refl _⟩
  | cons c s ih =>
    obtain ⟨n, hn, hle⟩ := ih (matches_cons.mp h)
    exact ⟨n + 1, by rw [List.cons_append, longest, hn], Nat.succ_le_succ hle⟩

/-- There is a longest match, exactly when there is a match. -/
theorem longest_isSome {r : Regex α} {before : Option α} {s : List α} :
    (r.longest before s).isSome = true ↔
      ∃ s₁ s₂, s = s₁ ++ s₂ ∧ Matches r before s₁ s₂.head? := by
  constructor
  · intro h
    obtain ⟨n, hn⟩ := Option.isSome_iff_exists.mp h
    exact ⟨_, _, (List.take_append_drop n s).symm, (matches_of_longest hn).2⟩
  · intro hsome
    obtain ⟨s₁, s₂, rfl, h⟩ := hsome
    obtain ⟨n, hn, _⟩ := le_longest h
    rw [hn]
    rfl

theorem searchFrom_iff {r : Regex α} {before : Option α} {s : List α} :
    searchFrom r before s = true ↔
      ∃ s₁ s₂ s₃, s = s₁ ++ s₂ ++ s₃ ∧ Matches r (s₁.getLast?.or before) s₂ s₃.head? := by
  induction s generalizing before with
  | nil =>
    rw [searchFrom, longest_isSome]
    constructor
    · intro hsome
      obtain ⟨s₁, s₂, hs, h⟩ := hsome
      exact ⟨[], s₁, s₂, hs, h⟩
    · intro hsome
      obtain ⟨s₁, s₂, s₃, hs, h⟩ := hsome
      obtain ⟨hs₁₂, rfl⟩ := List.append_eq_nil_iff.mp hs.symm
      obtain ⟨rfl, rfl⟩ := List.append_eq_nil_iff.mp hs₁₂
      exact ⟨[], [], rfl, h⟩
  | cons c s ih =>
    rw [searchFrom, Bool.or_eq_true, longest_isSome, ih]
    constructor
    · intro hcase
      rcases hcase with ⟨s₁, s₂, hs, h⟩ | ⟨s₁, s₂, s₃, rfl, h⟩
      · exact ⟨[], s₁, s₂, hs, h⟩
      · refine ⟨c :: s₁, s₂, s₃, rfl, ?_⟩
        rw [getLast?_cons_or]
        exact h
    · intro hsome
      obtain ⟨s₁, s₂, s₃, hs, h⟩ := hsome
      cases s₁ with
      | nil => exact .inl ⟨s₂, s₃, hs, h⟩
      | cons d s₁ =>
        cases hs
        rw [getLast?_cons_or] at h
        exact .inr ⟨s₁, s₂, s₃, rfl, h⟩

/-- A search finds a match, exactly when there is one. -/
theorem search_iff {r : Regex α} {s : List α} :
    search r s = true ↔
      ∃ s₁ s₂ s₃, s = s₁ ++ s₂ ++ s₃ ∧ Matches r s₁.getLast? s₂ s₃.head? := by
  have hor : ∀ o : Option α, o.or none = o := fun o => by cases o <;> rfl
  unfold search
  rw [searchFrom_iff]
  simp only [hor]

end Regex

end Shamsu.Lib
