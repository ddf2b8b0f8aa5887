import Shamsu.Py.Text

/-!
# Searching a text

What `find`, `count`, `split` and `replace` of `Py.Text` do: an occurrence that is found is
one, nothing is before it, and a text that occurs at one place only is found and replaced
there (`OccursOnce`).
-/

namespace Shamsu.Py

/-! ## What a search finds -/

theorem find_spec {sub s : Text} {i : Nat} (h : find sub s = some i) :
    s = s.take i ++ (sub ++ s.drop (i + sub.length)) := by
  induction s generalizing i with
  | nil =>
    unfold find at h
    split at h
    next hsub =>
      cases h
      rw [List.isEmpty_iff.mp hsub]
      rfl
    next => cases h
  | cons c s ih =>
    unfold find at h
    split at h
    next hp =>
      cases h
      obtain ⟨post, hpost⟩ := List.isPrefixOf_iff_prefix.mp hp
      rw [List.take_zero, List.nil_append, Nat.zero_add, ← hpost, List.drop_left]
    next hp =>
      cases hf : find sub s with
      | none => rw [hf] at h; cases h
      | some j =>
        rw [hf] at h
        cases h
        have hs := ih hf
        rw [List.take_succ_cons, List.cons_append, Nat.add_right_comm, List.drop_succ_cons]
        exact congrArg (List.cons c) hs

theorem find_le {sub s : Text} {i : Nat} (h : find sub s = some i) : i ≤ s.length := by
  induction s generalizing i with
  | nil =>
    unfold find at h
    split at h <;> cases h
    exact Nat.le_refl 0
  | cons c s ih =>
    unfold find at h
    split at h
    · cases h
      exact Nat.zero_le _
    · cases hf : find sub s with
      | none => rw [hf] at h; cases h
      | some j =>
        rw [hf] at h
        cases h
        exact Nat.succ_le_succ (ih hf)

theorem find_isSome {sub s : Text} : (find sub s).isSome = true ↔ sub <:+: s := by
  constructor
  · intro h
    obtain ⟨i, hi⟩ := Option.isSome_iff_exists.mp h
    exact ⟨s.take i, s.drop (i + sub.length), by
      rw [List.append_assoc]
      exact (find_spec hi).symm⟩
  · intro h
    induction s with
    | nil =>
      rw [List.infix_nil.mp h]
      rfl
    | cons c s ih =>
      unfold find
      split
      · rfl
      next hp =>
        rcases List.infix_cons_iff.mp h with hpre | hin
        · exact absurd (List.isPrefixOf_iff_prefix.mpr hpre) hp
        · rw [Option.isSome_map]
          exact ih hin

theorem find_eq_none {sub s : Text} : find sub s = none ↔ ¬ sub <:+: s := by
  rw [← find_isSome, Bool.not_eq_true, Option.isSome_eq_false_iff, Option.isNone_iff_eq_none]

theorem find_of_opening {sub s : Text} (h : sub <+: s) : find sub s = some 0 := by
  cases s with
  | nil =>
    rw [List.prefix_nil.mp h]
    rfl
  | cons c s =>
    unfold find
    rw [if_pos (List.isPrefixOf_iff_prefix.mpr h)]

theorem splitFuel_of_none {sub s : Text} (h : find sub s = none) (fuel : Nat) :
    splitFuel sub fuel s = [s] := by
  cases fuel with
  | zero => rfl
  | succ fuel =>
    unfold splitFuel
    rw [h]

theorem split_of_find {sub s : Text} {i : Nat} (hsub : sub ≠ []) (h : find sub s = some i) :
    split sub s = s.take i :: splitFuel sub (s.length - 1) (s.drop (i + sub.length)) := by
  cases s with
  | nil =>
    have hin := find_isSome.mp (Option.isSome_iff_exists.mpr ⟨i, h⟩)
    exact absurd (List.infix_nil.mp hin) hsub
  | cons c s =>
    show splitFuel sub (s.length + 1) (c :: s) = _
    rw [splitFuel, h]
    rfl

theorem splitFuel_ne_nil {sub : Text} (fuel : Nat) (s : Text) : splitFuel sub fuel s ≠ [] := by
  cases fuel with
  | zero => simp [splitFuel]
  | succ fuel =>
    unfold splitFuel
    split <;> simp

theorem count_ne_zero {sub s : Text} (hsub : sub ≠ []) : count sub s ≠ 0 ↔ sub <:+: s := by
  unfold count
  cases h : find sub s with
  | none =>
    have hno := find_eq_none.mp h
    unfold split
    rw [splitFuel_of_none h]
    simp [hno]
  | some i =>
    have hin := find_isSome.mp (Option.isSome_iff_exists.mpr ⟨i, h⟩)
    rw [split_of_find hsub h, List.length_cons]
    have hpos := List.length_pos_iff.mpr
      (@splitFuel_ne_nil sub (s.length - 1) (s.drop (i + sub.length)))
    exact iff_of_true (by omega) hin

/-- A text is in another at one place at most. -/
def OccursOnce (sub s : Text) : Prop :=
  ∀ before after before' after', s = before ++ (sub ++ after) → s = before' ++ (sub ++ after') →
    before = before'

/-- What is in it at one place is found there, and nowhere after. -/
theorem OccursOnce.find {sub s before after : Text} (h : OccursOnce sub s)
    (hs : s = before ++ (sub ++ after)) : find sub s = some before.length := by
  cases hf : Py.find sub s with
  | none =>
    exact absurd ⟨before, after, by rw [List.append_assoc]; exact hs.symm⟩ (find_eq_none.mp hf)
  | some i =>
    have hpre := h _ _ _ _ hs (find_spec hf)
    rw [hpre, List.length_take, min_eq_left (find_le hf)]

theorem OccursOnce.split {sub s before after : Text} (h : OccursOnce sub s) (hsub : sub ≠ [])
    (hs : s = before ++ (sub ++ after)) : split sub s = [before, after] := by
  have hfind := h.find hs
  have htake : s.take before.length = before := by
    rw [hs, List.take_left]
  have hdrop : s.drop (before.length + sub.length) = after := by
    rw [hs, ← List.append_assoc, ← List.length_append, List.drop_left]
  have hnone : Py.find sub after = none := by
    rw [find_eq_none]
    intro hsome
    obtain ⟨pre, post, hpost⟩ := hsome
    have hlater : s = (before ++ (sub ++ pre)) ++ (sub ++ post) := by
      rw [hs, ← hpost]
      simp only [List.append_assoc]
    have heq := congrArg List.length (h _ _ _ _ hs hlater)
    have hpos := List.length_pos_iff.mpr hsub
    simp only [List.length_append] at heq
    omega
  rw [split_of_find hsub hfind, htake, hdrop, splitFuel_of_none hnone]

theorem OccursOnce.replaceOne {sub s before after : Text} (h : OccursOnce sub s)
    (hs : s = before ++ (sub ++ after)) (new : Text) :
    replaceOne sub new s = before ++ (new ++ after) := by
  unfold Py.replaceOne
  rw [h.find hs]
  dsimp only
  rw [List.append_assoc]
  congr 1
  · rw [hs, List.take_left]
  · congr 1
    rw [hs, ← List.append_assoc, ← List.length_append, List.drop_left]

/-! ## Lines -/

theorem newlines_le_splitlinesFrom (acc s : Text) :
    s.count '\n' ≤ (splitlinesFrom acc s).length := by
  fun_induction splitlinesFrom acc s with
  | case1 acc h => simp
  | case2 acc h => simp
  | case3 acc s ih =>
    simp only [List.length_cons]
    have : List.count '\n' ('\r' :: '\n' :: s) = s.count '\n' + 1 := by simp
    omega
  | case4 acc c s hne hbreak ih =>
    have hle : List.count '\n' (c :: s) ≤ s.count '\n' + 1 := by
      rw [List.count_cons]
      split <;> omega
    rw [List.length_cons]
    omega
  | case5 acc c s hne hbreak ih =>
    have hc : c ≠ '\n' := by
      intro heq
      subst heq
      exact hbreak (by decide)
    rw [List.count_cons_of_ne hc]
    exact ih

theorem prefix_of_splitlinesFrom {acc s l : Text} (h : splitlinesFrom acc s = [l]) :
    l <+: acc.reverse ++ s := by
  fun_induction splitlinesFrom acc s with
  | case1 acc hacc => cases h
  | case2 acc hacc =>
    cases h
    exact List.prefix_append _ _
  | case3 acc s ih =>
    cases (List.cons.inj h).1
    exact List.prefix_append _ _
  | case4 acc c s hne hbreak ih =>
    cases (List.cons.inj h).1
    exact List.prefix_append _ _
  | case5 acc c s hne hbreak ih =>
    have hp := ih h
    rw [List.reverse_cons, List.append_assoc] at hp
    exact hp

theorem join_append {sep : Char} {a b : List Text} (ha : a ≠ []) (hb : b ≠ []) :
    join sep (a ++ b) = join sep a ++ (sep :: join sep b) := by
  induction a with
  | nil => exact absurd rfl ha
  | cons x a ih =>
    cases a with
    | nil =>
      obtain ⟨y, b, rfl⟩ := List.exists_cons_of_ne_nil hb
      rw [join_singleton]
      exact join_cons_cons x y b
    | cons y a =>
      have hrest := ih (List.cons_ne_nil y a)
      rw [List.cons_append, List.cons_append, join_cons_cons, join_cons_cons,
        ← List.cons_append, hrest]
      simp

end Shamsu.Py
