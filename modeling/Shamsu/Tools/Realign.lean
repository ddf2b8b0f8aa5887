import Shamsu.Py.Strip
import Shamsu.Tools.EditText

/-!
# The indentation of a repaired edit

A block that was found by its stripped lines is replaced by text at the file's
indentation: each line is moved by the error its line has in `old_string`. The
errors are kept by the text of the line, one for each text.

`realign_restores`: text that was not changed comes back as the file has it exactly
when every line is off by what the first line with its text is off by, in the
characters of its indentation too.
-/

namespace Shamsu.Tools

open Shamsu.Py

/-- The white space a line starts with. -/
def indent (line : Text) : Text := line.takeWhile isSpace

/-- `real` is `old` without its first `d` characters, or with `-d` blanks in front. -/
def Shifted (d : Int) (old real : Text) : Prop :=
  if 0 < d then real = old.drop d.toNat else real = List.replicate (-d).toNat ' ' ++ old

instance (d : Int) (old real : Text) : Decidable (Shifted d old real) :=
  inferInstanceAs (Decidable (if 0 < d then real = old.drop d.toNat
    else real = List.replicate (-d).toNat ' ' ++ old))

/-- The lines of the two blocks, paired. -/
def linePairs (old matched : Text) : List (Text × Text) := (lines old).zip (lines matched)

/-- Every line of the block is shifted by what the first line with the same text is. -/
def Steady (old matched : Text) : Prop :=
  ∀ p ∈ linePairs old matched, strip p.1 ≠ [] →
    ∀ first ∈ (linePairs old matched).find? fun q => strip q.1 == strip p.1,
      Shifted ((indentOf first.1 : Int) - indentOf first.2) (indent p.1) (indent p.2)

instance (old matched : Text) : Decidable (Steady old matched) :=
  inferInstanceAs (Decidable (∀ p ∈ linePairs old matched, _ → _))

/-! ## One line -/

theorem indent_append_lstrip (line : Text) : indent line ++ lstrip line = line :=
  List.takeWhile_append_dropWhile

theorem indentOf_eq (line : Text) : indentOf line = (indent line).length := by
  have hlen := congrArg List.length (indent_append_lstrip line)
  rw [List.length_append] at hlen
  unfold indentOf
  omega

/-- A line behind other white space than its own. -/
theorem rstrip_reindented (w : Text) {line : Text} (hne : strip line ≠ []) :
    rstrip (w ++ lstrip line) = w ++ strip line := by
  rw [rstrip_append, ← strip_eq_rstrip_lstrip, if_neg hne]

theorem rstrip_indented {line : Text} (hne : strip line ≠ []) :
    rstrip line = indent line ++ strip line := by
  conv_lhs => rw [← indent_append_lstrip line]
  exact rstrip_reindented (indent line) hne

theorem rstrip_of_blank {line : Text} (h : strip line = []) : rstrip line = [] := by
  conv_lhs => rw [← indent_append_lstrip line]
  rw [rstrip_append, ← strip_eq_rstrip_lstrip, if_pos h]
  exact rstrip_spaces (indent_space line)

/-- The indentation `_outdented` gives a line. -/
def outdent (d : Int) (old : Text) : Text :=
  if 0 < d then old.drop d.toNat else List.replicate (-d).toNat ' ' ++ old

theorem shifted_iff {d : Int} {old real : Text} : Shifted d old real ↔ outdent d old = real := by
  unfold Shifted outdent
  split <;> exact eq_comm

theorem outdented_eq (line : Text) (d : Int) :
    outdented line d = outdent d (indent line) ++ lstrip line := by
  have hline := indent_append_lstrip line
  unfold outdented outdent
  split
  · have hdrop : ∀ n ≤ (indent line).length, line.drop n = (indent line).drop n ++ lstrip line := by
      intro n hn
      rw [← List.drop_append_of_le_length hn, hline]
    rw [indentOf_eq, hdrop _ (Nat.min_le_right _ _)]
    -- what is cut off is white space of the line, all of it at most
    rcases Nat.le_total d.toNat (indent line).length with hle | hle
    · rw [Nat.min_eq_left hle]
    · rw [Nat.min_eq_right hle, List.drop_length, List.drop_eq_nil_of_le hle]
  · rw [List.append_assoc, hline]

/-- A line comes back right when its indentation does. -/
theorem rstrip_outdented {old real : Text} (h : strip old = strip real) (hne : strip old ≠ [])
    (d : Int) : rstrip (outdented old d) = rstrip real ↔ Shifted d (indent old) (indent real) := by
  rw [outdented_eq, rstrip_reindented _ hne, rstrip_indented (h ▸ hne), ← h,
    List.append_cancel_right_eq, shifted_iff]

theorem newline_not_mem_outdented {line : Text} (h : '\n' ∉ line) (d : Int) :
    '\n' ∉ outdented line d := by
  unfold outdented
  split
  · exact fun hc => h (List.mem_of_mem_drop hc)
  · intro hc
    rcases List.mem_append.mp hc with hc | hc
    · exact absurd (List.eq_of_mem_replicate hc) (by decide)
    · exact h hc

/-! ## The block -/

/-- The line as the loop returns it, when the line is known. -/
def realigned (deltas : Text → Option Int) (line : Text) : Text :=
  if strip line = [] then line else outdented line ((deltas (strip line)).getD 0)

/-- Lines that are all known carry nothing on. -/
theorem realignLines_known {deltas : Text → Option Int} {ls : List Text}
    (h : ∀ line ∈ ls, strip line ≠ [] → (deltas (strip line)).isSome = true) (carried : Int) :
    realignLines deltas carried ls = ls.map (realigned deltas) := by
  induction ls generalizing carried with
  | nil => rfl
  | cons line rest ih =>
    have hrest := fun carried => ih (fun l hl => h l (List.mem_cons_of_mem _ hl)) carried
    rw [realignLines, List.map_cons, realigned]
    split
    · rw [hrest]
    next hne =>
      obtain ⟨d, hd⟩ := Option.isSome_iff_exists.mp (h line List.mem_cons_self hne)
      simp only [hd, Option.getD_some, hrest]

/-- Two lists agree under two functions when their pairs do. -/
theorem map_eq_map_iff_zip {α β γ : Type} {f : α → γ} {g : β → γ} {l : List α} {l' : List β}
    (hlen : l.length = l'.length) : l.map f = l'.map g ↔ ∀ p ∈ l.zip l', f p.1 = g p.2 := by
  rw [← List.forall₂_eq_eq_eq, List.forall₂_map_left_iff, List.forall₂_map_right_iff,
    List.forall₂_iff_zip]
  exact ⟨fun h p hp => h.2 hp, fun h => ⟨hlen, fun hp => h _ hp⟩⟩

/-- The error of the first line with this text. -/
def firstDelta (old matched key : Text) : Option Int :=
  ((linePairs old matched).find? fun p => strip p.1 == key).map fun p =>
    (indentOf p.1 : Int) - indentOf p.2

variable {old matched : Text}

theorem exists_pair (hlen : (lines old).length = (lines matched).length) {line : Text}
    (h : line ∈ lines old) : ∃ p ∈ linePairs old matched, p.1 = line := by
  have hfst : (linePairs old matched).map Prod.fst = lines old := by
    rw [linePairs, List.map_fst_zip (by omega)]
  rw [← hfst] at h
  exact List.mem_map.mp h

theorem firstDelta_isSome (hlen : (lines old).length = (lines matched).length) {line : Text}
    (h : line ∈ lines old) : (firstDelta old matched (strip line)).isSome = true := by
  obtain ⟨p, hp, rfl⟩ := exists_pair hlen h
  rw [firstDelta, Option.isSome_map, List.find?_isSome]
  exact ⟨p, hp, beq_self_eq_true _⟩

theorem lines_realignReplacement (hlen : (lines old).length = (lines matched).length) :
    lines (realignReplacement old matched old) =
      (lines old).map (realigned (firstDelta old matched)) := by
  have hloop : realignLines (firstDelta old matched) 0 (lines old) =
      (lines old).map (realigned (firstDelta old matched)) :=
    realignLines_known (fun line hl _ => firstDelta_isSome hlen hl) 0
  have hwhole : realignReplacement old matched old =
      join '\n' ((lines old).map (realigned (firstDelta old matched))) := by
    rw [← hloop]
    rfl
  rw [hwhole]
  refine List.splitOn_intercalate '\n' (fun line hl => ?_) (by simpa using lines_ne_nil old)
  obtain ⟨line, hmem, rfl⟩ := List.mem_map.mp hl
  rw [realigned]
  split
  · exact newline_not_mem_lines old line hmem
  · exact newline_not_mem_outdented (newline_not_mem_lines old line hmem) _

/-- Text the model left alone comes back at the indentation of the file exactly when
the block is off by one shift for each text of a line. -/
theorem realign_restores (old matched : Text)
    (h : (lines old).map strip = (lines matched).map strip) :
    (lines (realignReplacement old matched old)).map rstrip = (lines matched).map rstrip ↔
      Steady old matched := by
  have hlen : (lines old).length = (lines matched).length := by
    simpa using congrArg List.length h
  rw [lines_realignReplacement hlen, List.map_map, map_eq_map_iff_zip hlen]
  refine forall₂_congr fun p hp => ?_
  have hp' : strip p.1 = strip p.2 := (map_eq_map_iff_zip hlen).mp h p hp
  by_cases hne : strip p.1 = []
  · rw [Function.comp_apply, realigned, if_pos hne, rstrip_of_blank hne,
      rstrip_of_blank (hp' ▸ hne)]
    exact iff_of_true rfl fun h => absurd hne h
  -- the line's own text is among those a shift is on record for
  · obtain ⟨d, hd⟩ := Option.isSome_iff_exists.mp
      (firstDelta_isSome hlen (List.of_mem_zip hp).1)
    obtain ⟨first, hfirst, rfl⟩ := Option.map_eq_some_iff.mp hd
    rw [Function.comp_apply, realigned, if_neg hne, hd, Option.getD_some,
      rstrip_outdented hp' hne, hfirst, forall_prop_of_true hne]
    simp

/-- A block that is one blank too deep throughout. -/
theorem realign_restores_deep :
    (lines (realignReplacement " a (\n   b\n )".toList "a (\n  b\n)".toList
        " a (\n   b\n )".toList)).map rstrip = (lines "a (\n  b\n)".toList).map rstrip :=
  (realign_restores _ _ (by decide)).mpr (by decide)

/-- Two closing brackets: the first was copied one blank too deep, the second is right. -/
theorem realign_takes_first :
    ¬ ∀ old matched : Text, (lines old).map strip = (lines matched).map strip →
      (lines (realignReplacement old matched old)).map rstrip = (lines matched).map rstrip := by
  intro h
  have hbraces := h "   if x (\n   )\n )".toList "  if x (\n  )\n )".toList (by decide)
  exact absurd hbraces (by decide)

end Shamsu.Tools
