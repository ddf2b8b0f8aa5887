import Shamsu.Py.Text

/-!
# `str.strip` and its halves
-/

namespace Shamsu.Py

theorem strip_inside (s : Text) : strip s <:+: s := by
  unfold strip lstrip rstrip
  exact (List.dropWhile_suffix _).isInfix.trans (List.rdropWhile_prefix _ _).isInfix

theorem rstrip_append (x w : Text) :
    rstrip (x ++ w) = if rstrip w = [] then rstrip x else x ++ rstrip w := by
  unfold rstrip List.rdropWhile
  rw [List.reverse_append, List.dropWhile_append]
  by_cases h : (w.reverse.dropWhile isSpace).isEmpty = true
  · rw [if_pos h, if_pos (by rw [List.isEmpty_iff.mp h]; rfl)]
  · rw [if_neg h, if_neg]
    · rw [List.reverse_append, List.reverse_reverse]
    · intro hnil
      exact h (List.isEmpty_iff.mpr (List.reverse_eq_nil_iff.mp hnil))

theorem rstrip_spaces {w : Text} (h : ∀ c ∈ w, isSpace c = true) : rstrip w = [] :=
  List.rdropWhile_eq_nil_iff.mpr h

theorem lstrip_append {w : Text} (h : ∀ c ∈ w, isSpace c = true) (x : Text) :
    lstrip (w ++ x) = lstrip x := List.dropWhile_append_of_pos h

/-- White space around a text is stripped with it. -/
theorem strip_pad {w w' : Text} (h : ∀ c ∈ w, isSpace c = true) (h' : ∀ c ∈ w', isSpace c = true)
    (l : Text) : strip (w ++ (l ++ w')) = strip l := by
  unfold strip
  rw [← List.append_assoc, rstrip_append, if_pos (rstrip_spaces h'), rstrip_append]
  split
  next hnil => rw [hnil, rstrip_spaces h]
  next => exact lstrip_append h _

/-- A text is what is stripped of it, between white space. -/
theorem exists_strip (s : Text) : ∃ w w', s = w ++ (strip s ++ w') ∧ (∀ c ∈ w, isSpace c = true) ∧
    ∀ c ∈ w', isSpace c = true := by
  refine ⟨(rstrip s).takeWhile isSpace, s.rtakeWhile isSpace, ?_, ?_, ?_⟩
  · unfold strip lstrip
    rw [← List.append_assoc, List.takeWhile_append_dropWhile]
    exact List.rdropWhile_append_rtakeWhile.symm
  · exact fun c hc => List.mem_takeWhile_imp hc
  · exact fun c hc => List.mem_rtakeWhile_imp hc

/-- A stripped text starts and ends with no white space. -/
theorem head_strip {s : Text} {c : Char} {t : Text} (h : strip s = c :: t) : isSpace c = false := by
  unfold strip lstrip at h
  have := List.head?_dropWhile_not isSpace (rstrip s)
  rw [h] at this
  simpa using this

theorem length_strip_le (s : Text) : (strip s).length ≤ s.length := (strip_inside s).length_le

/-- What is stripped to nothing is white space. -/
theorem space_of_blank {s : Text} (h : strip s = []) : ∀ c ∈ s, isSpace c = true := by
  obtain ⟨w, w', hs, hw, hw'⟩ := exists_strip s
  intro c hc
  rw [hs, h, List.nil_append] at hc
  exact (List.mem_append.mp hc).elim (hw c) (hw' c)

theorem indent_space (s : Text) : ∀ c ∈ s.takeWhile isSpace, isSpace c = true :=
  fun _ hc => List.mem_takeWhile_imp hc

/-- It makes no difference which end is stripped first. -/
theorem strip_eq_rstrip_lstrip (s : Text) : strip s = rstrip (lstrip s) := by
  have hsplit : s.takeWhile isSpace ++ lstrip s = s := List.takeWhile_append_dropWhile
  unfold strip
  conv_lhs => rw [← hsplit, rstrip_append]
  split
  next hnil => rw [hnil, rstrip_spaces (indent_space s), lstrip, List.dropWhile_nil]
  next hne =>
    rw [lstrip_append (indent_space s)]
    have hopens : rstrip (lstrip s) <+: lstrip s := List.rdropWhile_prefix _ _
    -- what is left starts where the text without its indentation does
    cases hr : rstrip (lstrip s) with
    | nil => exact absurd hr hne
    | cons c t =>
      rw [hr] at hopens
      obtain ⟨t', ht⟩ := hopens
      have hhead := List.head?_dropWhile_not isSpace s
      rw [show s.dropWhile isSpace = c :: (t ++ t') from ht.symm] at hhead
      exact List.dropWhile_cons_of_neg (by simpa using hhead)

/-- Stripping a second time changes nothing. -/
theorem strip_strip (s : Text) : strip (strip s) = strip s := by
  have hl : lstrip (strip s) = strip s := List.dropWhile_idempotent _ _
  rw [strip_eq_rstrip_lstrip (strip s), hl, strip_eq_rstrip_lstrip]
  exact List.rdropWhile_idempotent _ _

/-- A longer text is stripped to a longer one. -/
theorem strip_prefix {x y : Text} (h : x <+: y) (hne : strip x ≠ []) : strip x <+: strip y := by
  obtain ⟨t, rfl⟩ := h
  rw [strip_eq_rstrip_lstrip] at hne ⊢
  have hlne : (lstrip x).isEmpty = false := by
    rw [Bool.eq_false_iff]
    intro hnil
    rw [List.isEmpty_iff.mp hnil] at hne
    exact hne rfl
  have happend : lstrip (x ++ t) = lstrip x ++ t := by
    unfold lstrip at hlne ⊢
    rw [List.dropWhile_append, if_neg (by rw [hlne]; exact Bool.false_ne_true)]
  rw [strip_eq_rstrip_lstrip, happend, rstrip_append]
  split
  · exact List.prefix_refl _
  · exact (List.rdropWhile_prefix _ _).trans (List.prefix_append _ _)

/-- What has a text in it is stripped to what has the stripped text in it. -/
theorem strip_infix {x y : Text} (h : x <:+: y) (hne : strip x ≠ []) : strip x <:+: strip y := by
  obtain ⟨a, b, rfl⟩ := h
  obtain ⟨w, w', hx, -, hw'⟩ := exists_strip x
  have hr : rstrip (strip x) = strip x := by
    rw [strip_eq_rstrip_lstrip]
    exact List.rdropWhile_idempotent _ _
  -- up to the end of the stripped text nothing is stripped behind it
  have hfront : strip (a ++ w ++ strip x) = lstrip (a ++ w ++ strip x) := by
    show lstrip (rstrip (a ++ w ++ strip x)) = _
    rw [rstrip_append, hr, if_neg hne]
  have hsuffix : strip x <:+ strip (a ++ w ++ strip x) := by
    rw [hfront]
    unfold lstrip
    rw [List.dropWhile_append]
    split
    · have hl : (strip x).dropWhile isSpace = strip x := List.dropWhile_idempotent _ _
      rw [hl]
    · exact List.suffix_append _ _
  refine hsuffix.isInfix.trans ( strip_prefix ?_ fun hnil => ?_).isInfix
  · refine ⟨w' ++ b, ?_⟩
    conv_rhs => rw [hx]
    simp only [List.append_assoc]
  · rw [hnil] at hsuffix
    exact hne (List.suffix_nil.mp hsuffix)

/-! ## Joined lines -/

theorem isBlank_join (parts : List Text) :
    isBlank (join '\n' parts) = true ↔ ∀ part ∈ parts, isBlank part = true := by
  induction parts with
  | nil => exact ⟨fun _ _ h => absurd h List.not_mem_nil, fun _ => rfl⟩
  | cons part parts ih =>
    cases parts with
    | nil =>
      rw [join_singleton, List.forall_mem_cons]
      exact ⟨fun h => ⟨h, nofun⟩, And.left⟩
    | cons next parts =>
      rw [join_cons_cons, List.forall_mem_cons, ← ih]
      unfold isBlank
      rw [List.all_append, List.all_cons, Bool.and_eq_true, Bool.and_eq_true]
      exact and_congr_right fun _ => ⟨And.right, fun h => ⟨rfl, h⟩⟩

theorem mem_join {part : Text} {parts : List Text} (h : part ∈ parts) :
    part <:+: join '\n' parts := by
  induction parts with
  | nil => cases h
  | cons first parts ih =>
    cases parts with
    | nil =>
      rw [join_singleton, List.mem_singleton.mp h]
    | cons next parts =>
      rw [join_cons_cons]
      rcases List.mem_cons.mp h with rfl | hmem
      · exact (List.prefix_append _ _).isInfix
      · have hmore : first ++ '\n' :: join '\n' (next :: parts) =
            (first ++ ['\n']) ++ join '\n' (next :: parts) := by rw [List.append_assoc]; rfl
        rw [hmore]
        exact (ih hmem).trans (List.suffix_append _ _).isInfix

end Shamsu.Py
