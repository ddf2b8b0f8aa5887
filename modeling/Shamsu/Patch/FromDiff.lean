import Shamsu.Patch.Unified

/-!
# A diff takes its old text to its new one

The hunks of a `FileDiff` on its own old text. A hunk with a context line or a removed one is
found where it is, since no other place is closer. One that only adds lines is put before
the line that it should come after, and that line comes next: `applied` has it in hand.
`diff_applies_iff` is what comes of that.
-/

namespace Shamsu.Patch

open Shamsu.Lib Shamsu.Py

/-- What the hunks make of the text, with the lines that are still in hand. -/
def applied : List Text → List DiffHunk → List Text → List Text
  | hand, [], rest => hand ++ rest
  | hand, h :: hunks, rest =>
    if Edit.oldLines h.edits = [] then
      (hand ++ h.gap).dropLast ++ (Edit.newLines h.edits ++
        applied (hand ++ h.gap).getLast?.toList hunks rest)
    else hand ++ (h.gap ++ (Edit.newLines h.edits ++ applied [] hunks rest))

section Apply

variable {original : List Text}

/-- Lines with the marks of a hunk never fail. -/
theorem applyLines_marked (edits : List Edit) : ∀ (output : List Text) (cursor : Nat),
    ∃ state, (edits.map Edit.marked).foldlM
      (fun state line => applyLine original line state.1 state.2) (output, cursor) = .ok state := by
  induction edits with
  | nil => exact fun _ _ => ⟨_, rfl⟩
  | cons e edits ih =>
    intro output cursor
    have hline : ∃ state, applyLine original e.marked output cursor = .ok state := by
      unfold applyLine
      rw [Edit.marker_marked]
      cases e.side with
      | context => exact ⟨_, rfl⟩
      | removed => exact ⟨_, rfl⟩
      | added => exact ⟨_, rfl⟩
    obtain ⟨⟨output₁, cursor₁⟩, hline⟩ := hline
    obtain ⟨state, hrest⟩ := ih output₁ cursor₁
    exact ⟨state, result_bind_ok.mpr ⟨_, hline, hrest⟩⟩

theorem oldBlock_marked (edits : List Edit) :
    oldBlock (edits.map Edit.marked) = Edit.oldLines edits := by
  unfold oldBlock Edit.oldLines
  rw [List.filter_map, List.map_map]
  refine congrArg (List.map _) (List.filter_congr fun e _ => ?_)
  rw [Function.comp_apply, Edit.marker_marked]
  cases e.side with
  | removed => rfl
  | context => rfl
  | added => rfl

/-- On its own old side a hunk has its new side. -/
theorem newSide_marked (edits : List Edit) (more : List Text) :
    newSide (edits.map Edit.marked) (Edit.oldLines edits ++ more) = Edit.newLines edits := by
  induction edits with
  | nil => rfl
  | cons e edits ih =>
    obtain ⟨side, line, bare⟩ := e
    rw [List.map_cons, newSide, Edit.marker_marked]
    cases side with
    | context => exact congrArg (line :: ·) ih
    | removed => exact ih
    | added => exact congrArg (line :: ·) ih

/-- The lines of a hunk, at a place where its old side is. -/
theorem applyLines_there {edits : List Edit} {output more : List Text} {start : Nat}
    (hthere : original.drop start = Edit.oldLines edits ++ more) (hstart : start ≤ original.length) :
    (edits.map Edit.marked).foldlM (fun state line => applyLine original line state.1 state.2)
        (output, start) =
      .ok (output ++ Edit.newLines edits, start + (Edit.oldLines edits).length) := by
  obtain ⟨⟨output', cursor'⟩, hrun⟩ := @applyLines_marked original edits output start
  have hlen := congrArg List.length hthere
  rw [List.length_drop, List.length_append] at hlen
  obtain ⟨rfl, rfl, _⟩ := applyLines_spec (by rw [oldBlock_marked]; omega) hrun
  rw [hrun, hthere, newSide_marked, oldBlock_marked]

/-- Where an addition goes that has `u` before it since the last hunk. -/
theorem locateHunk_added {hand gap more : List Text} {cursor : Nat}
    (hcursor : cursor ≤ original.length)
    (hthere : original.drop cursor = (hand ++ gap) ++ more) :
    locateHunk original [] (cursor + (hand ++ gap).length - 1) cursor =
      some (cursor + ((hand ++ gap).length - 1)) := by
  have hlen := congrArg List.length hthere
  rw [List.length_drop, List.length_append] at hlen
  unfold locateHunk
  dsimp only [List.length_nil]
  rw [if_pos rfl]
  congr 1
  omega

/-- **Step lemma**: a hunk of the diff, with lines in hand. -/
theorem applyHunk_step {h : DiffHunk} {hand more output : List Text} {cursor oldBefore newStart : Nat}
    {oldCount newCount : Nat} (hcursor : cursor ≤ original.length)
    (hbefore : oldBefore = cursor + hand.length)
    (hthere : original.drop cursor = hand ++ (h.gap ++ (Edit.oldLines h.edits ++ more))) :
    ∃ cursor', applyHunk original (output, cursor)
        ⟨DiffHunk.startLine (oldBefore + h.gap.length) (Edit.oldLines h.edits).length, oldCount,
          newStart, newCount, h.edits.map Edit.marked⟩ =
        .ok (if Edit.oldLines h.edits = []
          then (output ++ (hand ++ h.gap).dropLast) ++ Edit.newLines h.edits
          else (output ++ (hand ++ h.gap)) ++ Edit.newLines h.edits, cursor') ∧
      cursor' ≤ original.length ∧
      original.drop cursor' = (if Edit.oldLines h.edits = []
        then (hand ++ h.gap).getLast?.toList else []) ++ more ∧
      oldBefore + h.gap.length + (Edit.oldLines h.edits).length = cursor' +
        (if Edit.oldLines h.edits = [] then (hand ++ h.gap).getLast?.toList else []).length := by
  have hlen := congrArg List.length hthere
  simp only [List.length_drop, List.length_append] at hlen
  rw [← List.append_assoc] at hthere
  unfold applyHunk DiffHunk.startLine
  dsimp only
  rw [oldBlock_marked]
  by_cases hold : Edit.oldLines h.edits = []
  · rw [hold, List.nil_append] at hthere
    rw [hold] at hlen
    rw [if_pos hold, if_pos hold, hold, List.length_nil, if_pos rfl, hbefore, Nat.add_assoc,
      ← List.length_append, locateHunk_added hcursor hthere]
    dsimp only
    -- the last line before the addition, if there is one, is still to come
    have hdrop : original.drop (cursor + ((hand ++ h.gap).length - 1)) =
        (hand ++ h.gap).getLast?.toList ++ more := by
      rw [← List.drop_drop, hthere, List.drop_append_of_le_length (Nat.sub_le _ _)]
      congr 1
      rcases List.eq_nil_or_concat (hand ++ h.gap) with hnil | ⟨front, last, hlast⟩
      · rw [hnil]
        rfl
      · rw [hlast]
        simp
    have htake : (original.drop cursor).take (cursor + ((hand ++ h.gap).length - 1) - cursor) =
        (hand ++ h.gap).dropLast := by
      rw [Nat.add_sub_cancel_left, hthere, List.take_append_of_le_length (Nat.sub_le _ _),
        List.dropLast_eq_take]
    have hlines : (h.edits.map Edit.marked).foldlM
        (fun state line => applyLine original line state.1 state.2)
        (output ++ (hand ++ h.gap).dropLast, cursor + ((hand ++ h.gap).length - 1)) =
        .ok (output ++ (hand ++ h.gap).dropLast ++ Edit.newLines h.edits,
          cursor + ((hand ++ h.gap).length - 1) + (Edit.oldLines h.edits).length) :=
      applyLines_there (by rw [hold, hdrop]; rfl) (by rw [List.length_append]; omega)
    rw [hold, List.length_nil, Nat.add_zero] at hlines
    refine ⟨_, by rw [htake, hlines], by rw [List.length_append]; omega, hdrop, ?_⟩
    rcases List.eq_nil_or_concat (hand ++ h.gap) with hnil | ⟨front, last, hlast⟩
    · rw [hnil]
      rfl
    · rw [hlast]
      simp
      omega
  · have hcount : (Edit.oldLines h.edits).length ≠ 0 := mt List.length_eq_zero_iff.mp hold
    rw [if_neg hold, if_neg hold, if_neg hcount, Nat.add_sub_cancel, hbefore, Nat.add_assoc,
      ← List.length_append]
    have hdrop : original.drop (cursor + (hand ++ h.gap).length) =
        Edit.oldLines h.edits ++ more := by
      rw [← List.drop_drop, hthere, List.drop_left]
    have hblock : ((original.drop (cursor + (hand ++ h.gap).length)).take
        (Edit.oldLines h.edits).length).map rstrip = (Edit.oldLines h.edits).map rstrip := by
      rw [hdrop, List.take_left]
    rw [locateHunk_hint hold (Nat.le_add_right _ _) (by rw [List.length_append]; omega) hblock]
    dsimp only
    rw [Nat.add_sub_cancel_left, hthere, List.take_left,
      applyLines_there hdrop (by rw [List.length_append]; omega)]
    refine ⟨_, rfl, by rw [List.length_append]; omega, ?_, by simp⟩
    rw [← List.drop_drop, hdrop, List.drop_left]
    rfl

/-- **Run lemma**: all the hunks. -/
theorem applyHunks_run {hunks : List DiffHunk} {rest : List Text} :
    ∀ {hand output : List Text} {cursor oldBefore newBefore : Nat}, cursor ≤ original.length →
      oldBefore = cursor + hand.length →
      original.drop cursor = hand ++ Piece.source (hunks.map DiffHunk.piece) rest →
    ∃ output' cursor', (DiffHunk.patchesFrom oldBefore newBefore hunks).foldlM
        (applyHunk original) (output, cursor) = .ok (output', cursor') ∧
      output' ++ original.drop cursor' = output ++ applied hand hunks rest := by
  induction hunks with
  | nil =>
    intro hand output cursor oldBefore newBefore _ _ hthere
    exact ⟨output, cursor, rfl, by rw [hthere]; rfl⟩
  | cons h hunks ih =>
    intro hand output cursor oldBefore newBefore hcursor hbefore hthere
    rw [List.map_cons, Piece.source_cons] at hthere
    obtain ⟨cursor₁, hstep, hcursor₁, hthere₁, hbefore₁⟩ := @applyHunk_step original h hand _
      output cursor oldBefore (DiffHunk.startLine (newBefore + h.gap.length)
        (Edit.newLines h.edits).length) (Edit.oldLines h.edits).length
      (Edit.newLines h.edits).length hcursor hbefore hthere
    obtain ⟨output', cursor', hrun, hresult⟩ := @ih _ _ _ _
      (newBefore + h.gap.length + (Edit.newLines h.edits).length) hcursor₁ hbefore₁ hthere₁
    refine ⟨output', cursor', result_bind_ok.mpr ⟨_, hstep, hrun⟩, hresult.trans ?_⟩
    rw [applied]
    split
    · simp only [List.append_assoc]
    · simp only [List.append_assoc]

end Apply

/-! ## When that is the new text -/

/-- Lines that are put before one they should come after. -/
theorem added_early {last : Text} {lines after after' : List Text} :
    lines ++ after = last :: (lines ++ after') ↔ (∀ line ∈ lines, line = last) ∧
      after = last :: after' := by
  induction lines with
  | nil => exact ⟨fun h => ⟨nofun, h⟩, fun h => h.2⟩
  | cons line lines ih =>
    rw [List.cons_append, List.cons_append, List.cons.injEq, List.forall_mem_cons]
    constructor
    · intro hsome
      obtain ⟨rfl, h⟩ := hsome
      exact ⟨⟨rfl, (ih.mp h).1⟩, (ih.mp h).2⟩
    · intro hsome
      obtain ⟨⟨rfl, hlines⟩, h⟩ := hsome
      exact ⟨rfl, ih.mpr ⟨hlines, h⟩⟩

/-- **The hunks give the new text** exactly when none of them adds early. -/
theorem applied_eq_iff {rest : List Text} : ∀ {hunks : List DiffHunk} {hand : List Text},
    (hand = [] ∨ ∀ h ∈ hunks.head?, h.gap ≠ []) → (∀ h ∈ hunks.tail, h.gap ≠ []) →
    (applied hand hunks rest = hand ++ Piece.target (hunks.map DiffHunk.piece) rest ↔
      ∀ h ∈ hunks, ¬ h.AddsEarly) := by
  intro hunks
  induction hunks with
  | nil => exact fun _ _ => iff_of_true rfl nofun
  | cons h hunks ih =>
    intro hand hfirst hapart
    have hapart' : ∀ h' ∈ hunks.tail, h'.gap ≠ [] := fun h' hh' =>
      hapart h' (List.mem_of_mem_tail hh')
    have hnext : ∀ h' ∈ hunks.head?, h'.gap ≠ [] := fun h' hh' =>
      hapart h' (List.mem_of_mem_head? hh')
    rw [List.forall_mem_cons, List.map_cons, Piece.target_cons]
    by_cases hold : Edit.oldLines h.edits = []
    · rw [applied, if_pos hold]
      rcases List.eq_nil_or_concat h.gap with hgap | ⟨front, last, hlast⟩
      · -- at the top of the file
        have hnil : hand = [] := hfirst.resolve_right fun hne => hne h rfl hgap
        have hearly : ¬ h.AddsEarly := by
          intro hsome
          obtain ⟨_, last, hlast, _⟩ := hsome
          rw [hgap] at hlast
          cases hlast
        rw [hnil, hgap, and_iff_right hearly, ← @ih [] (Or.inl rfl) hapart']
        show Edit.newLines h.edits ++ applied [] hunks rest =
          h.gap ++ (Edit.newLines h.edits ++ _) ↔ _
        rw [hgap, List.nil_append, List.append_cancel_left_eq]
        rfl
      · have hearly : ¬ h.AddsEarly ↔ ∀ line ∈ Edit.newLines h.edits, line = last := by
          unfold DiffHunk.AddsEarly
          rw [and_iff_right hold, hlast]
          simp
        have hu : hand ++ h.gap = (hand ++ front) ++ [last] := by
          rw [hlast, List.concat_eq_append, List.append_assoc]
        rw [hu, List.dropLast_concat, List.getLast?_concat, hearly,
          ← @ih [last] (Or.inr hnext) hapart']
        show hand ++ front ++ (Edit.newLines h.edits ++ applied [last] hunks rest) =
          hand ++ (h.gap ++ (Edit.newLines h.edits ++ _)) ↔ _
        rw [hlast, List.concat_eq_append, List.append_assoc hand, List.append_assoc front,
          List.append_cancel_left_eq,
          List.append_cancel_left_eq]
        exact added_early
    · have hearly : ¬ h.AddsEarly := fun h => hold h.1
      rw [applied, if_neg hold, and_iff_right hearly,
        ← @ih [] (Or.inl rfl) hapart']
      show hand ++ (h.gap ++ (Edit.newLines h.edits ++ applied [] hunks rest)) =
        hand ++ (h.gap ++ (Edit.newLines h.edits ++ _)) ↔ _
      rw [List.append_cancel_left_eq, List.append_cancel_left_eq, List.append_cancel_left_eq]
      rfl

namespace FileDiff

variable (d : FileDiff)

theorem applyHunks_eq : applyHunks d.old (DiffHunk.patchesFrom 0 0 d.hunks) =
    .ok (applied [] d.hunks d.rest) := by
  obtain ⟨output, cursor, hrun, hresult⟩ := @applyHunks_run d.old d.hunks d.rest [] [] 0 0 0
    (Nat.zero_le _) rfl rfl
  unfold applyHunks
  rw [hrun]
  exact congrArg Except.ok hresult

/-- Its paths pass and its numbers can be read, and it has hunks. -/
def IsAccepted (root : Path) : Prop :=
  validatePatchPaths root (cleanHeaderPath d.oldName) (cleanHeaderPath d.newName) = .ok () ∧
    (∀ n ∈ DiffHunk.startsFrom 0 0 d.hunks, Countable n) ∧ d.hunks ≠ []

/-- **The diff is read as one patch** when no line of it looks like another header. -/
theorem parse_single {root : Path} (hread : d.Readable) {patch : FilePatch} :
    parseFilePatches root d.text = .ok [patch] ↔
      (¬ ∃ h ∈ d.hunks, h.LooksLikeHeader) ∧ d.IsAccepted root ∧
      patch = ⟨cleanHeaderPath d.oldName, cleanHeaderPath d.newName,
        DiffHunk.patchesFrom 0 0 d.hunks⟩ := by
  have hlines : splitlines d.text = d.lines := splitlines_endedText hread
  rw [parseFilePatches_one hlines lines_fileMark, parseFilePatch_lines]
  rfl

end FileDiff

/-- **When a diff does what it says**: it is accepted, no removed line begins with `-- `, and
lines that a hunk adds without context are at the top of the file or copies of the line that
they come after. -/
theorem diff_applies_iff (root : Path) (d : FileDiff) (hread : d.Readable) :
    d.Applies root ↔ d.IsAccepted root ∧
      ∀ h ∈ d.hunks, ¬ h.LooksLikeHeader ∧ ¬ h.AddsEarly := by
  have hearly : applied [] d.hunks d.rest = d.new ↔ ∀ h ∈ d.hunks, ¬ h.AddsEarly :=
    applied_eq_iff (Or.inl rfl) d.apart
  unfold FileDiff.Applies
  constructor
  · intro hsome
    obtain ⟨patch, hparse, happly⟩ := hsome
    obtain ⟨hno, haccepted, rfl⟩ := (d.parse_single hread).mp hparse
    rw [d.applyHunks_eq] at happly
    have hall := hearly.mp (Except.ok.inj happly)
    exact ⟨haccepted, fun h hh => ⟨fun hlooks => hno ⟨h, hh, hlooks⟩, hall h hh⟩⟩
  · intro hsome
    obtain ⟨haccepted, hall⟩ := hsome
    refine ⟨_, (d.parse_single hread).mpr ⟨fun ⟨h, hh, hlooks⟩ => (hall h hh).1 hlooks,
      haccepted, rfl⟩, ?_⟩
    rw [d.applyHunks_eq]
    exact congrArg Except.ok (hearly.mpr fun h hh => (hall h hh).2)

/-- A line is added after the first of two, with that much context. -/
def oneAdded (context : List Edit) (gap rest : List Text) : FileDiff where
  oldName := "a/f".toList
  newName := "b/f".toList
  hunks := [⟨gap, context ++ [⟨.added, "x".toList, false⟩], []⟩]
  rest := rest
  apart := fun _ h => absurd h List.not_mem_nil

theorem diff_applies_context :
    (oneAdded [⟨.context, "a".toList, false⟩] [] ["b".toList]).Applies ["ws".toList] := by
  refine (diff_applies_iff ["ws".toList] _ ?_).mpr ⟨⟨by decide, ?_, ?_⟩, ?_⟩
  · exact unbroken_of_all (by decide)
  · unfold Countable
    decide
  · exact List.cons_ne_nil _ _
  · intro h hh
    cases List.mem_singleton.mp hh
    exact ⟨fun ⟨e, he, hside, _⟩ => by revert e; decide, fun h => absurd h.1 (by decide)⟩

/-- With no context the line comes before the first one. -/
theorem diff_misplaced : ¬ ∀ (root : Path) (d : FileDiff), d.Readable → d.IsAccepted root →
    d.Applies root := by
  intro hall
  obtain ⟨patch, hparse, happly⟩ := hall ["ws".toList] (oneAdded [] ["a".toList] ["b".toList])
    (unbroken_of_all (by decide))
    ⟨by decide, by unfold Countable; decide, List.cons_ne_nil _ _⟩
  have hread : parseFilePatches ["ws".toList]
      (oneAdded [] ["a".toList] ["b".toList]).text =
      .ok [⟨"f".toList, "f".toList, [⟨1, 0, 2, 1, ["+x".toList]⟩]⟩] := by decide
  rw [hread] at hparse
  cases hparse
  exact absurd happly (by decide)

end Shamsu.Patch
