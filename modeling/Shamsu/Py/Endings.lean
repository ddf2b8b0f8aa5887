import Shamsu.Py.Lines

/-!
# Lines with their terminators

`str.splitlines(keepends=True)`: the lines of a text, each with what ended it. Only the last
one may be ended by nothing (`Unended.of_rawLines`). Reading a file translates its newlines,
which changes the terminators and no line (`splitlines_translateNewlines`).
-/

namespace Shamsu.Py

structure RawLine where
  line : Text
  ending : Text
  deriving DecidableEq, Repr

/-- The line as it stands in the text. -/
def RawLine.text (r : RawLine) : Text := r.line ++ r.ending

/-- `splitlinesFrom` with what it drops. -/
def rawLinesFrom : Text → Text → List RawLine
  | acc, [] => if acc.isEmpty then [] else [⟨acc.reverse, []⟩]
  | acc, '\r' :: '\n' :: s => ⟨acc.reverse, ['\r', '\n']⟩ :: rawLinesFrom [] s
  | acc, c :: s =>
    if isLineBreak c then ⟨acc.reverse, [c]⟩ :: rawLinesFrom [] s
    else rawLinesFrom (c :: acc) s

def rawLines (s : Text) : List RawLine := rawLinesFrom [] s

/-- The text of raw lines. -/
def rawText (l : List RawLine) : Text := l.flatMap RawLine.text

/-- A text without line breaks. -/
def IsPlain (t : Text) : Prop := ∀ c ∈ t, isLineBreak c = false

instance (t : Text) : Decidable (IsPlain t) := inferInstanceAs (Decidable (∀ c ∈ t, _))

theorem rawLinesFrom_line (s : Text) : ∀ acc : Text,
    (rawLinesFrom acc s).map RawLine.line = splitlinesFrom acc s := by
  intro acc
  induction acc, s using splitlinesFrom.induct with
  | case1 acc hacc => simp [rawLinesFrom, splitlinesFrom, hacc]
  | case2 acc hacc => simp [rawLinesFrom, splitlinesFrom, hacc]
  | case3 acc s ih => rw [rawLinesFrom, splitlinesFrom, List.map_cons, ih]
  | case4 acc c s hne hbreak ih =>
    rw [rawLinesFrom, splitlinesFrom, if_pos hbreak, if_pos hbreak, List.map_cons, ih]
    · exact hne
    · exact hne
  | case5 acc c s hne hbreak ih =>
    rw [rawLinesFrom, splitlinesFrom, if_neg hbreak, if_neg hbreak, ih]
    · exact hne
    · exact hne

theorem rawLines_line (s : Text) : (rawLines s).map RawLine.line = splitlines s :=
  rawLinesFrom_line s []

theorem rawLinesFrom_text (s : Text) : ∀ acc : Text,
    rawText (rawLinesFrom acc s) = acc.reverse ++ s := by
  intro acc
  induction acc, s using splitlinesFrom.induct with
  | case1 acc hacc =>
    rw [rawLinesFrom, if_pos hacc, List.isEmpty_iff.mp hacc]
    rfl
  | case2 acc hacc =>
    rw [rawLinesFrom, if_neg hacc]
    simp [rawText, RawLine.text]
  | case3 acc s ih =>
    rw [rawLinesFrom, rawText, List.flatMap_cons, ← rawText, ih, RawLine.text, List.append_assoc]
    rfl
  | case4 acc c s hne hbreak ih =>
    rw [rawLinesFrom, if_pos hbreak, rawText, List.flatMap_cons, ← rawText, ih, RawLine.text,
      List.append_assoc]
    · rfl
    · exact hne
  | case5 acc c s hne hbreak ih =>
    rw [rawLinesFrom, if_neg hbreak, ih, List.reverse_cons, List.append_assoc]
    · rfl
    · exact hne

/-- **Nothing is lost.** -/
theorem rawText_rawLines (s : Text) : rawText (rawLines s) = s := rawLinesFrom_text s []

/-- What `splitlines` breaks at. -/
def IsBreak (t : Text) : Prop := t = ['\r', '\n'] ∨ ∃ c, t = [c] ∧ isLineBreak c = true

/-- A line is ended by nothing only at the end, and then it is not empty. -/
def OnlyLastUnended (l : List RawLine) : Prop :=
  ∀ front r back, l = front ++ r :: back → IsPlain r.line ∧
    (IsBreak r.ending ∨ r.ending = [] ∧ back = [] ∧ r.line ≠ [])

theorem OnlyLastUnended.last {front back : List RawLine} {r : RawLine} {l : List RawLine}
    (h : OnlyLastUnended l) (heq : l = front ++ r :: back) (hnil : r.ending = []) :
    back = [] ∧ r.line ≠ [] := by
  rcases (h front r back heq).2 with (hcr | ⟨c, hc, _⟩) | hlast
  · rw [hnil] at hcr
    cases hcr
  · rw [hnil] at hc
    cases hc
  · exact hlast.2

theorem OnlyLastUnended.cons {r : RawLine} {l : List RawLine} (h : OnlyLastUnended l)
    (hline : IsPlain r.line) (hbreak : IsBreak r.ending) : OnlyLastUnended (r :: l) := by
  intro front r' back heq
  cases front with
  | nil =>
    rw [List.nil_append] at heq
    cases heq
    exact ⟨hline, Or.inl hbreak⟩
  | cons first front =>
    rw [List.cons_append] at heq
    exact h front r' back (List.cons.inj heq).2

theorem OnlyLastUnended.drop {front l : List RawLine} (h : OnlyLastUnended (front ++ l)) :
    OnlyLastUnended l := fun front' r back heq =>
  h (front ++ front') r back (by rw [heq, List.append_assoc])

theorem rawLinesFrom_unended (s : Text) : ∀ acc : Text, IsPlain acc →
    OnlyLastUnended (rawLinesFrom acc s) := by
  have hplain : ∀ {acc : Text}, IsPlain acc → IsPlain acc.reverse := fun h c hc =>
    h c (List.mem_reverse.mp hc)
  intro acc
  induction acc, s using splitlinesFrom.induct with
  | case1 acc hacc =>
    intro _ front r back heq
    rw [rawLinesFrom, if_pos hacc] at heq
    exact absurd heq.symm (by simp)
  | case2 acc hacc =>
    intro h front r back heq
    rw [rawLinesFrom, if_neg hacc] at heq
    rcases front with _ | ⟨first, front⟩
    · cases heq
      exact ⟨hplain h, Or.inr ⟨rfl, rfl, fun hnil => hacc (by simpa using hnil)⟩⟩
    · exact absurd (List.cons.inj heq).2.symm (by simp)
  | case3 acc s ih =>
    intro h
    rw [rawLinesFrom]
    exact (ih (List.forall_mem_nil _)).cons (hplain h) (Or.inl rfl)
  | case4 acc c s hne hbreak ih =>
    intro h
    rw [rawLinesFrom, if_pos hbreak]
    · exact (ih (List.forall_mem_nil _)).cons (hplain h) (Or.inr ⟨c, rfl, hbreak⟩)
    · exact hne
  | case5 acc c s hne hbreak ih =>
    intro h
    rw [rawLinesFrom, if_neg hbreak]
    · refine ih fun c' hc' => ?_
      rcases List.mem_cons.mp hc' with rfl | hc'
      · exact Bool.eq_false_iff.mpr hbreak
      · exact h c' hc'
    · exact hne

theorem rawLines_unended (s : Text) : OnlyLastUnended (rawLines s) :=
  rawLinesFrom_unended s [] nofun

/-- No line of `splitlines` has a line break in it. -/
theorem isPlain_splitlines {s line : Text} (h : line ∈ splitlines s) : IsPlain line := by
  rw [← rawLines_line] at h
  obtain ⟨r, hr, rfl⟩ := List.mem_map.mp h
  obtain ⟨front, back, hsplit⟩ := List.append_of_mem hr
  exact (rawLines_unended s front r back hsplit).1

/-- Translating the newlines leaves the lines. -/
theorem splitlinesFrom_translateNewlines (s : Text) : ∀ acc : Text,
    splitlinesFrom acc (translateNewlines s) = splitlinesFrom acc s := by
  intro acc
  induction acc, s using splitlinesFrom.induct with
  | case1 acc hacc => rfl
  | case2 acc hacc => rfl
  | case3 acc s ih =>
    rw [translateNewlines, splitlinesFrom_cons (by decide), if_pos (by decide), splitlinesFrom, ih]
  | case4 acc c s hne hbreak ih =>
    have hcut : splitlinesFrom acc (c :: s) = acc.reverse :: splitlinesFrom [] s := by
      rw [splitlinesFrom, if_pos hbreak]
      exact hne
    rw [translateNewlines, hcut]
    · by_cases hc : c = '\r'
      · rw [if_pos hc, splitlinesFrom_cons (by decide), if_pos (by decide), ih]
      · rw [if_neg hc, splitlinesFrom_cons hc, if_pos hbreak, ih]
    · exact hne
  | case5 acc c s hne hbreak ih =>
    have hc : c ≠ '\r' := fun hc => hbreak (hc ▸ by decide)
    rw [translateNewlines, if_neg hc, splitlinesFrom_cons hc, if_neg hbreak, splitlinesFrom,
      if_neg hbreak, ih]
    · exact hne
    · exact hne

theorem splitlines_translateNewlines (s : Text) :
    splitlines (translateNewlines s) = splitlines s :=
  splitlinesFrom_translateNewlines s []

theorem rawText_infix {r : RawLine} {l : List RawLine} (h : r ∈ l) : r.line <:+: rawText l := by
  obtain ⟨front, back, rfl⟩ := List.append_of_mem h
  refine ⟨rawText front, r.ending ++ rawText back, ?_⟩
  simp [rawText, RawLine.text]

/-- A line is a part of its text. -/
theorem infix_of_mem_splitlines {s line : Text} (h : line ∈ splitlines s) : line <:+: s := by
  rw [← rawLines_line] at h
  obtain ⟨r, hr, rfl⟩ := List.mem_map.mp h
  have hpart := rawText_infix hr
  rwa [rawText_rawLines] at hpart

end Shamsu.Py
