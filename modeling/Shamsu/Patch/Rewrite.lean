import Shamsu.Patch.FullDiff

/-!
# Whether a rewrite goes through

`rewrite_files_fully` of `shamsu/agents/rewrite_fallback.py` has `PatchEngine` apply the diff of
`_full_file_diff`. `fullFileDiff_rewrites_iff` says when this leaves the file with the new text:
among other things a last line of the old text without a terminator must have no added line
behind it in the diff, the new text must break its lines with newlines only, and where the diff
ends in an added line this must not end in white space.
-/

namespace Shamsu.Patch

open Shamsu.Lib Shamsu.Py Shamsu.Safety

/-! ## Applying the hunks that are read -/

namespace Edit

theorem oldLines_append (a b : List Edit) : oldLines (a ++ b) = oldLines a ++ oldLines b := by
  unfold oldLines
  rw [List.filter_append, List.map_append]

theorem newLines_append (a b : List Edit) : newLines (a ++ b) = newLines a ++ newLines b := by
  unfold newLines
  rw [List.filter_append, List.map_append]

/-- Context is on both sides. -/
theorem lines_context {edits : List Edit} (h : ∀ e ∈ edits, e.side = .context) :
    oldLines edits = edits.map Edit.line ∧ newLines edits = edits.map Edit.line := by
  unfold oldLines newLines
  constructor
  · rw [List.filter_eq_self.mpr fun e he => by rw [h e he]; rfl]
  · rw [List.filter_eq_self.mpr fun e he => by rw [h e he]; rfl]

theorem context_of_blank {e : Edit} (h : e.isBlankContext = true) : e.side = .context := by
  unfold isBlankContext at h
  rw [Bool.and_eq_true, beq_iff_eq] at h
  exact h.1

end Edit

section Step

variable {original : List Text}

/-- The first lines of a hunk, on their own old side. -/
theorem newSide_front (front back : List Edit) (block : List Text) :
    newSide ((front ++ back).map Edit.marked) (Edit.oldLines front ++ block) =
      Edit.newLines front ++ newSide (back.map Edit.marked) block := by
  induction front with
  | nil => rfl
  | cons e front ih =>
    obtain ⟨side, line, bare⟩ := e
    rw [List.cons_append, List.map_cons, newSide, Edit.marker_marked]
    cases side with
    | context => exact congrArg (line :: ·) ih
    | removed => exact ih
    | added => exact congrArg (line :: ·) ih

/-- **Step lemma**: a hunk that is read as it is. -/
theorem applyHunk_whole {h : DiffHunk} {more output : List Text} {cursor newStart : Nat}
    {oldCount newCount : Nat} (hcursor : cursor ≤ original.length)
    (hlead : Edit.oldLines h.edits = [] → h.gap = [])
    (hthere : original.drop cursor = h.gap ++ (Edit.oldLines h.edits ++ more)) :
    ∃ cursor', applyHunk original (output, cursor)
        ⟨DiffHunk.startLine (cursor + h.gap.length) (Edit.oldLines h.edits).length, oldCount,
          newStart, newCount, h.edits.map Edit.marked⟩ =
        .ok (output ++ (h.gap ++ Edit.newLines h.edits), cursor') ∧
      cursor' ≤ original.length ∧ original.drop cursor' = more ∧
      cursor' = cursor + h.gap.length + (Edit.oldLines h.edits).length := by
  obtain ⟨cursor', hrun, hcursor', hmore, hbefore⟩ := @applyHunk_step original h [] more output
    cursor cursor newStart oldCount newCount hcursor rfl hthere
  rw [List.nil_append] at hrun hmore hbefore
  refine ⟨cursor', hrun.trans ?_, hcursor', ?_, ?_⟩
  · split
    next hold =>
      rw [hlead hold]
      simp
    · rw [List.append_assoc]
  · rw [hmore]
    split
    next hold =>
      rw [hlead hold]
      rfl
    · rfl
  · rw [hbefore]
    split
    next hold =>
      rw [hlead hold]
      rfl
    · rfl

/-- The new side of a line, where trailing white space of what is read is gone. -/
def Edit.settled (e : Edit) : List Text :=
  match e.side with
  | .context => [e.line]
  | .removed => []
  | .added => [rstrip e.line]

theorem Edit.settled_eq_iff {e : Edit} :
    e.settled = Edit.newLines [e] ↔ (e.side = .added → rstrip e.line = e.line) := by
  obtain ⟨side, line, bare⟩ := e
  cases side with
  | context => exact iff_of_true rfl nofun
  | removed => exact iff_of_true rfl nofun
  | added =>
    show [rstrip line] = [line] ↔ (Side.added = .added → rstrip line = line)
    rw [List.cons.injEq, and_iff_left rfl]
    exact ⟨fun h _ => h, fun h => h rfl⟩

/-- **Step lemma**: the last hunk, without its last empty lines of context. -/
theorem applyHunk_trimmed {h : DiffHunk} {front dropped : List Edit} {e : Edit}
    {more output : List Text} {cursor newStart oldCount newCount : Nat}
    (hcursor : cursor ≤ original.length) (hedits : h.edits = front ++ e :: dropped)
    (hlead : Edit.oldLines h.edits = [] → h.gap = [])
    (hthere : original.drop cursor = h.gap ++ (Edit.oldLines h.edits ++ more)) :
    ∃ cursor', applyHunk original (output, cursor)
        ⟨DiffHunk.startLine (cursor + h.gap.length) (Edit.oldLines h.edits).length, oldCount,
          newStart, newCount, (front ++ [{ e with line := rstrip e.line }]).map Edit.marked⟩ =
        .ok (output ++ (h.gap ++ (Edit.newLines front ++ e.settled)), cursor') ∧
      original.drop cursor' = Edit.oldLines dropped ++ more := by
  generalize hlast : ({ e with line := rstrip e.line } : Edit) = last
  have hside : last.side = e.side := by rw [← hlast]
  have hline : last.line = rstrip e.line := by rw [← hlast]
  have hold : Edit.oldLines h.edits =
      Edit.oldLines front ++ (Edit.oldLines [e] ++ Edit.oldLines dropped) := by
    rw [hedits, Edit.oldLines_append, ← Edit.oldLines_append [e] dropped]
    rfl
  have hlen := congrArg List.length hthere
  rw [List.length_drop, List.length_append, List.length_append] at hlen
  have hplace : original.drop (cursor + h.gap.length) =
      Edit.oldLines front ++ (Edit.oldLines [e] ++ (Edit.oldLines dropped ++ more)) := by
    rw [← List.drop_drop, hthere, List.drop_left, hold]
    simp only [List.append_assoc]
  have hone : (Edit.oldLines [last]).map rstrip = (Edit.oldLines [e]).map rstrip := by
    unfold Edit.oldLines
    rw [List.filter_singleton, List.filter_singleton, hside]
    cases decide (e.side ≠ .added) with
    | false => rfl
    | true =>
      show [rstrip last.line] = [rstrip e.line]
      rw [hline]
      unfold rstrip
      rw [List.rdropWhile_idempotent]
  have hblock : (Edit.oldLines (front ++ [last])).map rstrip =
      (Edit.oldLines (front ++ [e])).map rstrip := by
    rw [Edit.oldLines_append, Edit.oldLines_append, List.map_append, List.map_append, hone]
  have hcount : (Edit.oldLines (front ++ [last])).length = (Edit.oldLines (front ++ [e])).length := by
    have := congrArg List.length hblock
    rwa [List.length_map, List.length_map] at this
  have hle : (Edit.oldLines (front ++ [e])).length + (Edit.oldLines dropped).length =
      (Edit.oldLines h.edits).length := by
    rw [hold, Edit.oldLines_append]
    simp only [List.length_append]
    omega
  have hlocate : locateHunk original (Edit.oldLines (front ++ [last]))
      (DiffHunk.startLine (cursor + h.gap.length) (Edit.oldLines h.edits).length - 1) cursor =
      some (cursor + h.gap.length) := by
    by_cases hnil : Edit.oldLines (front ++ [last]) = []
    · -- nothing is looked for, and the header has the place, or the hunk is where the cursor is
      unfold locateHunk DiffHunk.startLine
      dsimp only
      rw [if_pos (List.length_eq_zero_iff.mpr hnil)]
      congr 1
      by_cases hzero : (Edit.oldLines h.edits).length = 0
      · have hgap := hlead (List.length_eq_zero_iff.mp hzero)
        rw [if_pos hzero, hgap, List.length_nil]
        omega
      · rw [if_neg hzero]
        omega
    · have hpos : (Edit.oldLines h.edits).length ≠ 0 := by
        have := List.length_pos_iff.mpr hnil
        omega
      unfold DiffHunk.startLine
      rw [if_neg hpos, Nat.add_sub_cancel]
      refine locateHunk_hint hnil (Nat.le_add_right _ _) (by omega) ?_
      rw [hplace, hcount, ← List.append_assoc, ← Edit.oldLines_append, List.take_left, hblock]
  unfold applyHunk
  dsimp only
  rw [oldBlock_marked, hlocate]
  dsimp only
  rw [Nat.add_sub_cancel_left, hthere, List.take_left]
  obtain ⟨⟨output', cursor'⟩, hrun⟩ := @applyLines_marked original (front ++ [last])
    (output ++ h.gap) (cursor + h.gap.length)
  obtain ⟨rfl, rfl, _⟩ := applyLines_spec (by rw [oldBlock_marked]; omega) hrun
  refine ⟨cursor + h.gap.length + (oldBlock ((front ++ [last]).map Edit.marked)).length, ?_, ?_⟩
  · rw [hrun, hplace, newSide_front]
    have hnew : newSide ([last].map Edit.marked)
        (Edit.oldLines [e] ++ (Edit.oldLines dropped ++ more)) = e.settled := by
      rw [List.map_singleton, newSide, Edit.marker_marked, hside]
      show _ = match e.side with
        | .context => [e.line]
        | .removed => []
        | .added => [rstrip e.line]
      obtain ⟨side, line, bare⟩ := e
      cases side with
      | context => rfl
      | removed => rfl
      | added => exact congrArg (fun l => [l]) hline
    rw [hnew, List.append_assoc]
  · rw [oldBlock_marked, hcount, ← List.drop_drop, hplace, ← List.append_assoc,
      ← Edit.oldLines_append, List.drop_left]

end Step

/-- No line without a terminator has another one behind it in its hunk. -/
def LineDiff.Unglued (hunks : List RawHunk) : Prop :=
  ∀ h ∈ hunks, ∀ e ∈ h.edits.dropLast, e.raw.ending ≠ []

/-- An added line that the diff ends in, up to empty lines of context, has no white space at its
end. -/
def LineDiff.EndsClean (hunks : List RawHunk) : Prop :=
  ∀ h ∈ hunks.getLast?, ∀ e ∈ (Edit.kept (h.edits.map RawEdit.edit)).getLast?,
    e.side = .added → rstrip e.line = e.line

section Run

variable {original : List Text} {rest : List Text}

/-- Each hunk has a change, and context before it where there are lines. -/
def Leads (hunks : List RawHunk) : Prop := ∀ h ∈ hunks, (∃ e ∈ h.edits, e.side ≠ .context) ∧
  (h.gap ≠ [] → ∀ e ∈ h.edits.head?, e.side = .context)

/-- A hunk without an old side is where the last one ended. -/
theorem gap_of_added {h : RawHunk} (hchange : ∃ e ∈ h.edits, e.side ≠ .context)
    (hlead : h.gap ≠ [] → ∀ e ∈ h.edits.head?, e.side = .context)
    (hold : Edit.oldLines h.hunk.edits = []) : h.hunk.gap = [] := by
  by_contra hne
  have hgap : h.gap ≠ [] := fun hnil => hne (congrArg (List.map RawLine.line) hnil)
  obtain ⟨e, he, _⟩ := hchange
  obtain ⟨first, more, hedits⟩ := List.exists_cons_of_ne_nil (List.ne_nil_of_mem he)
  have hside := hlead hgap first (by rw [hedits]; rfl)
  have hmem : first.edit.line ∈ Edit.oldLines h.hunk.edits := by
    unfold Edit.oldLines
    refine List.mem_map_of_mem (List.mem_filter.mpr ⟨?_, ?_⟩)
    · show first.edit ∈ h.edits.map RawEdit.edit
      rw [hedits]
      exact List.mem_cons_self
    · show decide (first.side ≠ .added) = true
      rw [hside]
      rfl
  rw [hold] at hmem
  cases hmem

theorem length_olds (edits : List RawEdit) :
    (RawEdit.olds edits).length = (Edit.oldLines (edits.map RawEdit.edit)).length := by
  unfold RawEdit.olds Edit.oldLines
  rw [List.length_map, List.length_map, List.filter_map, List.length_map]
  rfl

/-- **Run lemma**: hunks that are read line by line give the new text, if the last line that is
added, where it ends the diff, has no white space at its end. -/
theorem applyHunks_read {hunks : List RawHunk} :
    ∀ {oldBefore newBefore : Nat} {output : List Text}, hunks ≠ [] → LineDiff.Unglued hunks →
      Leads hunks → oldBefore ≤ original.length →
      original.drop oldBefore = Piece.source (hunks.map fun h => h.hunk.piece) rest →
    ∃ output' cursor', ((RawHunk.readFrom oldBefore newBefore hunks).map ReadHunk.patch).foldlM
        (applyHunk original) (output, oldBefore) = .ok (output', cursor') ∧
      (output' ++ original.drop cursor' =
        output ++ Piece.target (hunks.map fun h => h.hunk.piece) rest ↔
          LineDiff.EndsClean hunks) := by
  induction hunks with
  | nil => exact fun hne => absurd rfl hne
  | cons h hunks ih =>
    intro oldBefore newBefore output _ hunglued hleads hcursor hthere
    rw [List.map_cons, Piece.source_cons] at hthere
    have hjoined : RawEdit.joined h.edits = h.edits :=
      RawEdit.joined_eq (hunglued h List.mem_cons_self)
    obtain ⟨hchange, hlead⟩ := hleads h List.mem_cons_self
    have hgap : Edit.oldLines h.hunk.edits = [] → h.hunk.gap = [] := gap_of_added hchange hlead
    have hgaplen : h.hunk.gap.length = h.gap.length := List.length_map _
    cases hunks with
    | nil =>
      obtain ⟨front, e, dropped, hedits, hkept, htrimmed, hkeep, hdropped⟩ :=
        @trimmed_spec (h.edits.map RawEdit.edit) (by
          obtain ⟨e, he, hside⟩ := hchange
          exact ⟨e.edit, List.mem_map_of_mem he, hside⟩)
      obtain ⟨cursor', hrun, hmore⟩ := @applyHunk_trimmed original h.hunk front dropped e rest
        output oldBefore (DiffHunk.startLine (newBefore + h.gap.length)
          (Edit.newLines h.hunk.edits).length)
        (Edit.oldLines (front ++ [{ e with line := rstrip e.line }])).length
        (Edit.newLines (front ++ [{ e with line := rstrip e.line }])).length
        hcursor hedits hgap hthere
      have hread : (RawHunk.readFrom oldBefore newBefore [h]).map ReadHunk.patch =
          [⟨DiffHunk.startLine (oldBefore + h.hunk.gap.length) (Edit.oldLines h.hunk.edits).length,
            (Edit.oldLines (front ++ [{ e with line := rstrip e.line }])).length,
            DiffHunk.startLine (newBefore + h.gap.length) (Edit.newLines h.hunk.edits).length,
            (Edit.newLines (front ++ [{ e with line := rstrip e.line }])).length,
            (front ++ [{ e with line := rstrip e.line }]).map Edit.marked⟩] := by
        rw [RawHunk.readFrom, RawHunk.readFrom, if_pos rfl, hjoined, htrimmed, hgaplen]
        rfl
      refine ⟨_, cursor', by rw [hread]; exact result_bind_ok.mpr ⟨_, hrun, rfl⟩, ?_⟩
      have hcontext : ∀ b ∈ dropped, b.side = .context := fun b hb =>
        Edit.context_of_blank (hdropped b hb)
      have hnew : Edit.newLines h.hunk.edits =
          Edit.newLines front ++ (Edit.newLines [e] ++ Edit.oldLines dropped) := by
        show Edit.newLines (h.edits.map RawEdit.edit) = _
        rw [hedits, Edit.newLines_append, (Edit.lines_context hcontext).1,
          ← (Edit.lines_context hcontext).2, ← Edit.newLines_append [e] dropped]
        rfl
      have hclean : LineDiff.EndsClean [h] ↔ (e.side = .added → rstrip e.line = e.line) := by
        unfold LineDiff.EndsClean
        rw [List.getLast?_singleton]
        simp only [Option.mem_some_iff, forall_eq', hkept, List.getLast?_concat]
      rw [hclean, ← Edit.settled_eq_iff, hmore, List.map_cons, Piece.target_cons]
      show output ++ (h.hunk.gap ++ (Edit.newLines front ++ e.settled)) ++
        (Edit.oldLines dropped ++ rest) =
        output ++ (h.hunk.gap ++ (Edit.newLines h.hunk.edits ++ rest)) ↔ _
      rw [hnew]
      simp only [List.append_assoc, List.append_cancel_left_eq, List.append_cancel_right_eq]
    | cons next hunks =>
      obtain ⟨cursor₁, hstep, hcursor₁, hmore, hplace⟩ := @applyHunk_whole original h.hunk _ output
        oldBefore (DiffHunk.startLine (newBefore + h.gap.length)
          (Edit.newLines h.hunk.edits).length)
        (Edit.oldLines h.hunk.edits).length (Edit.newLines h.hunk.edits).length
        hcursor hgap hthere
      have hbefore : oldBefore + h.gap.length + (RawEdit.olds h.edits).length = cursor₁ := by
        rw [hplace, hgaplen, length_olds]
        rfl
      obtain ⟨output', cursor', hrun, hresult⟩ := @ih
        (oldBefore + h.gap.length + (RawEdit.olds h.edits).length)
        (newBefore + h.gap.length + (RawEdit.news h.edits).length)
        (output ++ (h.hunk.gap ++ Edit.newLines h.hunk.edits)) (List.cons_ne_nil _ _)
        (fun g hg => hunglued g (List.mem_cons_of_mem h hg))
        (fun g hg => hleads g (List.mem_cons_of_mem h hg))
        (by rw [hbefore]; exact hcursor₁) (by rw [hbefore]; exact hmore)
      have hread : RawHunk.readFrom oldBefore newBefore (h :: next :: hunks) =
          ⟨h.hunk, oldBefore + h.gap.length, newBefore + h.gap.length, h.hunk.edits⟩ ::
          RawHunk.readFrom (oldBefore + h.gap.length + (RawEdit.olds h.edits).length)
            (newBefore + h.gap.length + (RawEdit.news h.edits).length) (next :: hunks) := by
        rw [RawHunk.readFrom, if_neg (List.cons_ne_nil next hunks), hjoined]
        rfl
      refine ⟨output', cursor', ?_, ?_⟩
      · rw [hread, List.map_cons]
        refine result_bind_ok.mpr ⟨_, ?_, hrun⟩
        rw [hgaplen, ← hbefore] at hstep
        exact hstep
      · have hclean : LineDiff.EndsClean (h :: next :: hunks) ↔
            LineDiff.EndsClean (next :: hunks) := by
          unfold LineDiff.EndsClean
          rw [List.getLast?_cons_cons]
        rw [hclean, ← hresult, List.map_cons, Piece.target_cons]
        simp only [List.append_assoc]
        rfl

end Run

/-! ## The number of lines -/

section Count

/-- How many lines more there are after the edits. -/
def Edit.balance (edits : List Edit) : Int :=
  (Edit.newLines edits).length - (Edit.oldLines edits).length

theorem Edit.balance_append (a b : List Edit) : balance (a ++ b) = balance a + balance b := by
  unfold balance
  rw [newLines_append, oldLines_append, List.length_append, List.length_append]
  omega

theorem Edit.balance_context {edits : List Edit} (h : ∀ e ∈ edits, e.side = .context) :
    balance edits = 0 := by
  unfold balance
  rw [(lines_context h).1, (lines_context h).2]
  omega

/-- The texts do not count. -/
theorem Edit.balance_singleton {e f : Edit} (h : e.side = f.side) : balance [e] = balance [f] := by
  obtain ⟨side, line, bare⟩ := e
  obtain ⟨side', line', bare'⟩ := f
  cases h
  cases side with
  | context => rfl
  | removed => rfl
  | added => rfl

theorem Edit.balance_trimmed {edits : List Edit} (h : ∃ e ∈ edits, e.side ≠ .context) :
    balance (trimmed edits) = balance edits := by
  obtain ⟨front, e, dropped, hedits, _, htrimmed, _, hdropped⟩ := trimmed_spec h
  have hcontext : balance dropped = 0 :=
    balance_context fun b hb => context_of_blank (hdropped b hb)
  rw [htrimmed, hedits, balance_append, balance_append, ← List.singleton_append (l := dropped),
    balance_append, hcontext, Int.add_zero]
  exact congrArg (balance front + ·) (balance_singleton rfl)

theorem length_newSide (edits : List Edit) : ∀ {block : List Text},
    block.length = (Edit.oldLines edits).length →
    (newSide (edits.map Edit.marked) block).length = (Edit.newLines edits).length := by
  induction edits with
  | nil => exact fun _ => rfl
  | cons e edits ih =>
    intro block hlen
    obtain ⟨side, line, bare⟩ := e
    rw [List.map_cons, newSide, Edit.marker_marked]
    cases side with
    | context =>
      obtain ⟨first, block, rfl⟩ := List.exists_cons_of_length_eq_add_one hlen
      exact congrArg (· + 1) (ih (Nat.succ.inj hlen))
    | removed =>
      obtain ⟨first, block, rfl⟩ := List.exists_cons_of_length_eq_add_one hlen
      exact ih (Nat.succ.inj hlen)
    | added => exact congrArg (· + 1) (ih hlen)

theorem balance_fits {reads : List ReadHunk} : ∀ {pieces : List (Piece Text)},
    List.Forall₂ Fits (reads.map ReadHunk.patch) pieces →
    (pieces.map fun p => (p.new.length : Int) - p.old.length).sum =
      (reads.map fun r => Edit.balance r.edits).sum := by
  induction reads with
  | nil =>
    intro pieces hfits
    cases hfits
    rfl
  | cons r reads ih =>
    intro pieces hfits
    cases hfits with
    | cons hfit hfits =>
      obtain ⟨hold, hnew⟩ := hfit
      have hlen := congrArg List.length hold
      have hblock : oldBlock r.patch.lines = Edit.oldLines r.edits := oldBlock_marked r.edits
      rw [List.length_map, List.length_map, hblock] at hlen
      rw [List.map_cons, List.map_cons, List.sum_cons, List.sum_cons, ih hfits, hnew, hlen]
      congr 1
      show ((newSide (r.edits.map Edit.marked) _).length : Int) - _ = _
      rw [length_newSide r.edits hlen]
      rfl

/-- **Applying changes the number of lines** by the balance of the hunks, wherever they fit. -/
theorem length_applied {original lines : List Text} {reads : List ReadHunk}
    (h : applyHunks original (reads.map ReadHunk.patch) = .ok lines) :
    (lines.length : Int) = original.length + (reads.map fun r => Edit.balance r.edits).sum := by
  obtain ⟨⟨pieces, rest, hfits, rfl, rfl⟩, _⟩ := hunks_spliced original _ lines h
  rw [Piece.length_target, balance_fits hfits]

/-- What is read of the hunks counts as the joined lines do. -/
theorem balance_read {hunks : List RawHunk} : ∀ {oldBefore newBefore : Nat}, Flows hunks →
    ((RawHunk.readFrom oldBefore newBefore hunks).map fun r => Edit.balance r.edits) =
      hunks.map fun h => Edit.balance ((RawEdit.joined h.edits).map RawEdit.edit) := by
  induction hunks with
  | nil => exact fun _ => rfl
  | cons h hunks ih =>
    intro oldBefore newBefore hflows
    have hchange : ∃ e ∈ (RawEdit.joined h.edits).map RawEdit.edit, e.side ≠ .context := by
      obtain ⟨e, he, hside⟩ := hflows.changes h List.mem_cons_self
      exact ⟨e.edit, List.mem_map_of_mem he, hside⟩
    rw [RawHunk.readFrom, List.map_cons, List.map_cons]
    congr 1
    · dsimp only
      split
      · exact Edit.balance_trimmed hchange
      · rfl
    · cases hunks with
      | nil => rfl
      | cons next hunks => exact ih hflows.tail

end Count

/-! ## Lines without a terminator -/

section Described

variable {d : LineDiff} {old new : Text}

/-- A text that ends in a newline has no line without a terminator. -/
theorem ended_of_newline {t : Text} (h : t.getLast? = some '\n') :
    ∀ r ∈ rawLines t, r.ending ≠ [] := by
  intro r hr hnil
  obtain ⟨front, back, hsplit⟩ := List.append_of_mem hr
  obtain ⟨rfl, hne⟩ := (rawLines_unended t).last hsplit hnil
  have hplain := (rawLines_unended t front r [] hsplit).1
  have htext : t = rawText front ++ r.line := by
    rw [← rawText_rawLines t, hsplit, rawText_append]
    show _ ++ ((r.line ++ r.ending) ++ []) = _
    rw [hnil, List.append_nil, List.append_nil]
  rw [htext, List.getLast?_append_of_ne_nil _ hne] at h
  exact absurd (hplain '\n' (List.mem_of_getLast? h)) (by decide)

theorem isLine_of_mem {e : RawEdit} {t : Text} (h : e.raw ∈ rawLines t) : e.IsLine := by
  obtain ⟨front, back, hsplit⟩ := List.append_of_mem h
  obtain ⟨hplain, hbreak | ⟨hnil, _⟩⟩ := rawLines_unended t front e.raw back hsplit
  · exact ⟨hplain, Or.inl hbreak⟩
  · exact ⟨hplain, Or.inr hnil⟩

theorem mem_olds {e : RawEdit} {edits : List RawEdit} (he : e ∈ edits) (hside : e.side ≠ .added) :
    e.raw ∈ RawEdit.olds edits :=
  List.mem_map_of_mem (List.mem_filter.mpr ⟨he, decide_eq_true hside⟩)

theorem mem_news {e : RawEdit} {edits : List RawEdit} (he : e ∈ edits) (hside : e.side ≠ .removed) :
    e.raw ∈ RawEdit.news edits :=
  List.mem_map_of_mem (List.mem_filter.mpr ⟨he, decide_eq_true hside⟩)

/-- The edits are lines, and only a removed one may have no terminator. -/
theorem LineDiff.Describes.lines (hd : d.Describes (rawLines old) (rawLines new))
    (hend : new.getLast? = some '\n') {h : RawHunk} (hh : h ∈ d.hunks) {e : RawEdit}
    (he : e ∈ h.edits) : e.IsLine ∧ (e.side ≠ .removed → e.raw.ending ≠ []) := by
  have hpiece := List.mem_map_of_mem (f := RawHunk.piece) hh
  have hnew : e.side ≠ .removed → e.raw ∈ rawLines new := fun hside =>
    hd.2 ▸ Piece.mem_target_of_new hpiece (mem_news he hside)
  refine ⟨?_, fun hside => ended_of_newline hend e.raw (hnew hside)⟩
  by_cases hside : e.side = .removed
  · exact isLine_of_mem (t := old)
      (hd.1 ▸ Piece.mem_source_of_old hpiece (mem_olds he (by rw [hside]; decide)))
  · exact isLine_of_mem (hnew hside)

/-- After a line without a terminator there is nothing more of the old text. -/
theorem LineDiff.Describes.last (hd : d.Describes (rawLines old) (rawLines new))
    {before after : List RawHunk} {h : RawHunk} (hh : d.hunks = before ++ h :: after)
    {front back : List RawEdit} {e : RawEdit} (he : h.edits = front ++ e :: back)
    (hside : e.side ≠ .added) (hnil : e.raw.ending = []) :
    after = [] ∧ ∀ f ∈ back, f.side = .added := by
  have holds : RawEdit.olds h.edits = RawEdit.olds front ++ e.raw :: RawEdit.olds back := by
    unfold RawEdit.olds
    have hkeep : (e :: back).filter (fun f => decide (f.side ≠ .added)) =
        e :: back.filter fun f => decide (f.side ≠ .added) :=
      List.filter_cons_of_pos (decide_eq_true hside)
    rw [he, List.filter_append, hkeep, List.map_append, List.map_cons]
  obtain ⟨start, hstart⟩ := Piece.exists_source (before.map RawHunk.piece)
  have hsource : rawLines old = (start ++ (h.gap ++ RawEdit.olds front)) ++ e.raw ::
      (RawEdit.olds back ++ Piece.source (after.map RawHunk.piece) d.rest) := by
    rw [← hd.1, LineDiff.source, hh, List.map_append, Piece.source_append, hstart, List.map_cons,
      Piece.source_cons]
    show start ++ (h.gap ++ (RawEdit.olds h.edits ++ _)) = _
    rw [holds]
    simp
  obtain ⟨hrest, _⟩ := (rawLines_unended old).last hsource hnil
  obtain ⟨hback, hafter⟩ := List.append_eq_nil_iff.mp hrest
  constructor
  · cases after with
    | nil => rfl
    | cons next after =>
      rw [List.map_cons, Piece.source_cons, List.append_eq_nil_iff] at hafter
      refine absurd hafter.1 (d.apart next ?_)
      rw [hh]
      cases before with
      | nil => exact List.mem_cons_self
      | cons first before =>
        exact List.mem_append_right _ (List.mem_cons_of_mem _ List.mem_cons_self)
  · intro f hf
    by_contra hadded
    have hmem := mem_olds hf hadded
    rw [hback] at hmem
    cases hmem

/-- A line that runs into the one behind it. -/
def RawEdit.Glued (edits : List RawEdit) : Prop :=
  ∃ front e added more, edits = front ++ e :: added :: more ∧ e.side = .removed ∧
    added.side = .added ∧ RawEdit.joined edits =
      front ++ ⟨e.side, ⟨e.raw.line ++ added.written.line, added.raw.ending⟩⟩ :: more ∧
    (∀ f ∈ front, f.raw.ending ≠ []) ∧ ∀ f ∈ added :: more, f.raw.ending ≠ []

theorem joined_front {front back : List RawEdit} (h : ∀ f ∈ front, f.raw.ending ≠ []) :
    RawEdit.joined (front ++ back) = front ++ RawEdit.joined back := by
  induction front with
  | nil => rfl
  | cons f front ih =>
    have hrest := ih fun g hg => h g (List.mem_cons_of_mem f hg)
    cases hmore : front ++ back with
    | nil =>
      rw [hmore] at hrest
      rw [List.cons_append, hmore, List.cons_append, ← hrest]
      rfl
    | cons g more =>
      rw [List.cons_append, hmore, RawEdit.joined, if_neg (h f List.mem_cons_self), ← hmore, hrest]
      rfl

/-- The lines of a hunk are joined in one place, if at all. -/
theorem LineDiff.Describes.glued (hd : d.Describes (rawLines old) (rawLines new))
    (hend : new.getLast? = some '\n') {h : RawHunk} (hh : h ∈ d.hunks) :
    (∀ e ∈ h.edits.dropLast, e.raw.ending ≠ []) ∨ RawEdit.Glued h.edits := by
  by_cases hall : ∀ e ∈ h.edits.dropLast, e.raw.ending ≠ []
  · exact Or.inl hall
  right
  push Not at hall
  obtain ⟨e, he, hnil⟩ := hall
  obtain ⟨before, after, hhunks⟩ := List.append_of_mem hh
  obtain ⟨front, back, hsplit⟩ := List.append_of_mem he
  have hne : h.edits ≠ [] := by
    intro hempty
    rw [hempty] at he
    cases he
  obtain ⟨added, more, hmore⟩ := List.exists_cons_of_ne_nil
    (List.append_ne_nil_of_right_ne_nil back (List.cons_ne_nil (h.edits.getLast hne) []))
  have hedits : h.edits = front ++ e :: added :: more := by
    have hwhole := List.dropLast_append_getLast hne
    rw [hsplit, List.append_assoc, List.cons_append, hmore] at hwhole
    exact hwhole.symm
  have hmem : ∀ f ∈ front ++ e :: added :: more, f ∈ h.edits := fun f hf => by rwa [hedits]
  have hremoved : e.side = .removed := by
    by_contra hside
    exact (hd.lines hend hh (hmem e (by simp))).2 hside hnil
  obtain ⟨_, hback⟩ := hd.last hhunks hedits (by rw [hremoved]; decide) hnil
  have hended : ∀ f ∈ added :: more, f.raw.ending ≠ [] := fun f hf =>
    (hd.lines hend hh (hmem f (by
      refine List.mem_append_right _ (List.mem_cons_of_mem e hf)))).2 (by
        rw [hback f hf]
        decide)
  have hfront : ∀ f ∈ front, f.raw.ending ≠ [] := by
    intro f hf hfnil
    obtain ⟨front', back', rfl⟩ := List.append_of_mem hf
    have hfside : f.side ≠ .added := fun hadded =>
      (hd.lines hend hh (hmem f (by simp))).2 (by rw [hadded]; decide) hfnil
    have hedits' : h.edits = front' ++ f :: (back' ++ e :: added :: more) := by
      rw [hedits]
      simp
    have hside := (hd.last hhunks hedits' hfside hfnil).2 e (by simp)
    rw [hremoved] at hside
    cases hside
  refine ⟨front, e, added, more, hedits, hremoved, hback added List.mem_cons_self, ?_, hfront,
    hended⟩
  rw [hedits, joined_front hfront, RawEdit.joined, if_pos hnil, RawEdit.joined_eq fun f hf =>
    hended f (List.mem_cons_of_mem added (List.mem_of_mem_dropLast hf))]

/-- **What is written of a diff reads back**, with its lines joined. -/
theorem LineDiff.Describes.flows (hd : d.Describes (rawLines old) (rawLines new))
    (hend : new.getLast? = some '\n') : Flows d.hunks where
  lines h hh e he := by
    rcases hd.glued hend hh with hended | ⟨front, f, added, more, hedits, _, _, hjoined, _, _⟩
    · rw [RawEdit.joined_eq hended] at he
      exact (hd.lines hend hh he).1
    · have hin : ∀ g ∈ front ++ f :: added :: more, g.IsLine := fun g hg =>
        (hd.lines hend hh (hedits ▸ hg)).1
      rw [hjoined] at he
      rcases List.mem_append.mp he with he | he
      · exact hin e (List.mem_append_left _ he)
      · rcases List.mem_cons.mp he with rfl | he
        · have hadded := hin added (by simp)
          refine ⟨plain_append (hin f (by simp)).1 fun c hc => ?_, hadded.2⟩
          rcases List.mem_cons.mp hc with rfl | hc
          · exact RawEdit.mark_plain added.side
          · exact hadded.1 c hc
        · exact hin e (by simp [he])
  ended h hh e he hnil := by
    obtain ⟨before, after, hsplit⟩ := List.append_of_mem hh
    have hne : d.hunks ≠ [] := fun hempty => by
      rw [hempty] at hh
      cases hh
    have hhunks : d.hunks = before ++ h :: (after ++ [d.hunks.getLast hne]) := by
      have hwhole := List.dropLast_append_getLast hne
      rw [hsplit, List.append_assoc, List.cons_append] at hwhole
      exact hwhole.symm
    have hmem := List.mem_of_mem_dropLast hh
    have hall : ∀ f ∈ h.edits, f.raw.ending ≠ [] := by
      intro f hf hfnil
      obtain ⟨front, back, hedits⟩ := List.append_of_mem hf
      have hside : f.side ≠ .added := fun hadded =>
        (hd.lines hend hmem hf).2 (by rw [hadded]; decide) hfnil
      exact absurd (hd.last hhunks hedits hside hfnil).1 (by simp)
    rw [RawEdit.joined_eq fun f hf => hall f (List.mem_of_mem_dropLast hf)] at he
    exact hall e he hnil
  last h hh e he := by
    have hmem := List.mem_of_getLast? hh
    rcases hd.glued hend hmem with hended | ⟨front, f, added, more, _, _, _, hjoined, hfront, hmore⟩
    · rw [RawEdit.joined_eq hended] at he
      exact hended e he
    · have he := List.mem_of_mem_dropLast he
      rw [hjoined] at he
      rcases List.mem_append.mp he with he | he
      · exact hfront e he
      · rcases List.mem_cons.mp he with rfl | he
        · exact hmore added List.mem_cons_self
        · exact hmore e (List.mem_cons_of_mem added he)
  changes h hh := by
    rcases hd.glued hend hh with hended | ⟨front, f, added, more, _, hremoved, _, hjoined, _⟩
    · rw [RawEdit.joined_eq hended]
      exact d.changes h hh
    · rw [hjoined]
      refine ⟨_, List.mem_append_right _ List.mem_cons_self, ?_⟩
      rw [hremoved]
      decide

/-- Joining lines loses one that is added. -/
theorem balance_glued {edits : List RawEdit} (h : RawEdit.Glued edits) :
    Edit.balance ((RawEdit.joined edits).map RawEdit.edit) <
      Edit.balance (edits.map RawEdit.edit) := by
  obtain ⟨front, e, added, more, hedits, _, hadded, hjoined, _⟩ := h
  have hone : Edit.balance [added.edit] = 1 := Edit.balance_singleton (f := ⟨.added, [], false⟩) hadded
  rw [hjoined, hedits]
  have hsplit : (front ++ e :: added :: more).map RawEdit.edit = front.map RawEdit.edit ++
      ([e.edit] ++ ([added.edit] ++ more.map RawEdit.edit)) := by simp
  have hsplit' : (front ++ ⟨e.side, ⟨e.raw.line ++ added.written.line, added.raw.ending⟩⟩ ::
      more).map RawEdit.edit = front.map RawEdit.edit ++
      ([⟨e.side, e.raw.line ++ added.written.line, false⟩] ++ more.map RawEdit.edit) := by
    simp [RawEdit.edit]
  rw [hsplit, hsplit', Edit.balance_append, Edit.balance_append, Edit.balance_append,
    Edit.balance_append, Edit.balance_append, hone,
    Edit.balance_singleton (e := ⟨e.side, e.raw.line ++ added.written.line, false⟩) (f := e.edit) rfl]
  omega

end Described

/-! ## The two texts -/

section Texts

theorem line_olds (edits : List RawEdit) :
    (RawEdit.olds edits).map RawLine.line = Edit.oldLines (edits.map RawEdit.edit) := by
  unfold RawEdit.olds Edit.oldLines
  rw [List.filter_map, List.map_map, List.map_map]
  rfl

theorem line_news (edits : List RawEdit) :
    (RawEdit.news edits).map RawLine.line = Edit.newLines (edits.map RawEdit.edit) := by
  unfold RawEdit.news Edit.newLines
  rw [List.filter_map, List.map_map, List.map_map]
  rfl

theorem line_source (hunks : List RawHunk) (rest : List RawLine) :
    (Piece.source (hunks.map RawHunk.piece) rest).map RawLine.line =
      Piece.source (hunks.map fun h => h.hunk.piece) (rest.map RawLine.line) := by
  induction hunks with
  | nil => rfl
  | cons h hunks ih =>
    simp only [List.map_cons, Piece.source_cons, List.map_append, ih]
    exact congrArg (fun l => _ ++ (l ++ _)) (line_olds h.edits)

theorem line_target (hunks : List RawHunk) (rest : List RawLine) :
    (Piece.target (hunks.map RawHunk.piece) rest).map RawLine.line =
      Piece.target (hunks.map fun h => h.hunk.piece) (rest.map RawLine.line) := by
  induction hunks with
  | nil => rfl
  | cons h hunks ih =>
    simp only [List.map_cons, Piece.target_cons, List.map_append, ih]
    exact congrArg (fun l => _ ++ (l ++ _)) (line_news h.edits)

/-- A text whose only line breaks are newlines, and that ends in one, is what is written of its
lines. -/
theorem linesText_splitlines {t : Text} (hnewlines : NewlinesOnly t)
    (hend : t.getLast? = some '\n') : linesText (splitlines t) = t := by
  have hne : t ≠ [] := fun hnil => by
    rw [hnil] at hend
    cases hend
  have hjoin := join_splitlines hnewlines hne
  unfold lastNewline at hjoin
  rw [if_pos hend, join_newline (splitlines_ne_nil hne)] at hjoin
  rw [linesText_eq]
  exact hjoin

theorem mem_forall₂ {α β : Type} {R : α → β → Prop} {as : List α} {bs : List β} {b : β}
    (h : List.Forall₂ R as bs) (hb : b ∈ bs) : ∃ a ∈ as, R a b := by
  induction h with
  | nil => cases hb
  | cons hr _ ih =>
    rcases List.mem_cons.mp hb with rfl | hb
    · exact ⟨_, List.mem_cons_self, hr⟩
    · obtain ⟨a, ha, hab⟩ := ih hb
      exact ⟨a, List.mem_cons_of_mem _ ha, hab⟩

/-- What hunks make of lines are lines. -/
theorem plain_applied {original lines : List Text} {hunks : List HunkPatch}
    (h : applyHunks original hunks = .ok lines) (horiginal : ∀ line ∈ original, IsPlain line)
    (hhunks : ∀ hunk ∈ hunks, ∀ line ∈ hunk.lines, IsPlain line) :
    ∀ line ∈ lines, IsPlain line := by
  obtain ⟨⟨pieces, rest, hfits, rfl, rfl⟩, _⟩ := hunks_spliced original hunks lines h
  intro line hline
  rcases Piece.mem_target hline with ⟨p, hp, hnew⟩ | hold
  · obtain ⟨hunk, hhunk, hfit⟩ := mem_forall₂ hfits hp
    rw [hfit.2] at hnew
    rcases mem_newSide hnew with hblock | ⟨l, hl, rfl⟩
    · exact horiginal line (Piece.mem_source_of_old hp hblock)
    · exact fun c hc => hhunks hunk hhunk l hl c (List.mem_of_mem_tail hc)
  · exact horiginal line hold

/-- A path of a header has no line break. -/
theorem plain_cleanHeaderPath {raw : Text} (h : IsPlain raw) : IsPlain (cleanHeaderPath raw) := by
  have hpart : ∀ {a b : Text}, a ⊆ b → IsPlain b → IsPlain a := fun hab hb c hc => hb c (hab hc)
  have hname : IsPlain ((strip raw).takeWhile (· ≠ '\t')) :=
    hpart (List.takeWhile_subset _) (hpart (strip_inside raw).subset h)
  unfold cleanHeaderPath
  dsimp only
  generalize (strip raw).takeWhile (· ≠ '\t') = path at hname ⊢
  have hquoted : IsPlain (if path.head? = some '"' ∧ path.getLast? = some '"'
      then path.tail.dropLast else path) := by
    split
    · exact hpart (List.Subset.trans (List.dropLast_subset _) (List.tail_subset _)) hname
    · exact hname
  generalize (if path.head? = some '"' ∧ path.getLast? = some '"' then path.tail.dropLast
    else path) = path' at hquoted ⊢
  split
  · decide
  · intro c hc
    obtain ⟨b, hb, rfl⟩ := List.mem_map.mp hc
    have hb' : isLineBreak b = false := by
      split at hb
      · exact hquoted b ((List.drop_subset 2 _) hb)
      · exact hquoted b hb
    split
    · rfl
    · exact hb'

/-- So has the old path of a patch that is read. -/
theorem plain_oldPath {root : Path} {diffText : Text} {patches : List FilePatch}
    (h : parseFilePatches root diffText = .ok patches) {patch : FilePatch} (hp : patch ∈ patches) :
    IsPlain patch.oldPath := by
  obtain ⟨⟨header, body⟩, hsection, hread⟩ := of_mem_mapM_ok (parseFilePatches_lines.mp h).1 hp
  have hheader : IsPlain header := isPlain_splitlines (mem_sections hsection).1
  have hpath : patch.oldPath = cleanHeaderPath (header.drop 4) := by
    unfold parseFilePatch at hread
    cases body with
    | nil => cases hread
    | cons second body =>
      dsimp only at hread
      split at hread
      · cases hread
      · obtain ⟨_, _, hread⟩ := result_bind_ok.mp hread
        split at hread
        · cases hread
        · obtain ⟨_, _, hread⟩ := result_bind_ok.mp hread
          split at hread
          · cases hread
          · cases hread
            rfl
  rw [hpath]
  exact plain_cleanHeaderPath fun c hc => hheader c (List.mem_of_mem_drop hc)

end Texts

/-! ## When it goes through -/

/-- What it takes for the diff of a rewrite to do what it says: the name of the file comes
through a header, the numbers can be read, no removed line looks like a header, and of the lines
nothing is lost. -/
structure GoesThrough (root : Path) (rel new : Text) (d : LineDiff) : Prop where
  plain : IsPlain rel
  oldName : cleanHeaderPath ("a/".toList ++ rel) = rel
  newName : cleanHeaderPath ("b/".toList ++ rel) = rel
  path : validatePatchPaths root rel rel = .ok ()
  counted : ∀ r ∈ d.read, Countable r.oldStart ∧ Countable r.newStart
  noHeader : ∀ r ∈ d.read, ¬ r.LooksLikeHeader
  unglued : LineDiff.Unglued d.hunks
  newlines : NewlinesOnly new
  endsClean : LineDiff.EndsClean d.hunks

section Rewrite

variable {d : LineDiff} {rel old new : Text}

/-- The lines that the parser gets. -/
theorem splitlines_sanitized (hd : d.Describes (rawLines old) (rawLines new))
    (hend : new.getLast? = some '\n') (hrel : IsPlain rel) (hhunks : d.hunks ≠ [])
    (huntouched : Untouched (d.text ("a/".toList ++ rel) ("b/".toList ++ rel))) :
    splitlines (sanitizeModelDiff (d.text ("a/".toList ++ rel) ("b/".toList ++ rel))) =
      ("--- ".toList ++ ("a/".toList ++ rel)) :: ("+++ ".toList ++ ("b/".toList ++ rel)) ::
        d.read.flatMap ReadHunk.lines := by
  have hlines := @splitlines_text d ("a/".toList ++ rel) ("b/".toList ++ rel)
    (plain_append (by decide) hrel) (plain_append (by decide) hrel) hhunks (hd.flows hend)
  rw [sanitize_whole huntouched.noReasoning huntouched.noBlock hlines rfl fun line hline =>
    ⟨huntouched.noFence line hline, huntouched.noLabel line hline⟩,
    splitlines_endedText fun line hline => isPlain_splitlines hline, hlines]

theorem read_ne_nil (hhunks : d.hunks ≠ []) : d.read ≠ [] := by
  obtain ⟨h, hunks, hsplit⟩ := List.exists_cons_of_ne_nil hhunks
  unfold LineDiff.read
  rw [hsplit, RawHunk.readFrom]
  exact List.cons_ne_nil _ _

/-- Lines that are joined leave one line too few. -/
theorem unglued_of_applied (hd : d.Describes (rawLines old) (rawLines new))
    (hend : new.getLast? = some '\n')
    (happly : applyHunks (splitlines old) (d.read.map ReadHunk.patch) = .ok (splitlines new)) :
    LineDiff.Unglued d.hunks := by
  by_contra hglued
  have hlen := length_applied happly
  have hold : (splitlines old).length = d.source.length := by
    rw [hd.1, ← rawLines_line, List.length_map]
  have hnew : (splitlines new).length = d.target.length := by
    rw [hd.2, ← rawLines_line, List.length_map]
  have htarget := Piece.length_target (d.hunks.map RawHunk.piece) d.rest
  rw [List.map_map] at htarget
  have hbalance : (d.hunks.map ((fun p : Piece RawLine => (p.new.length : Int) - p.old.length) ∘
      RawHunk.piece)) = d.hunks.map fun h => Edit.balance (h.edits.map RawEdit.edit) := by
    refine List.map_congr_left fun h _ => ?_
    show ((RawEdit.news h.edits).length : Int) - (RawEdit.olds h.edits).length = _
    unfold Edit.balance
    rw [← line_news, ← line_olds, List.length_map, List.length_map]
  have hless : (d.hunks.map fun h =>
      Edit.balance ((RawEdit.joined h.edits).map RawEdit.edit)).sum <
      (d.hunks.map fun h => Edit.balance (h.edits.map RawEdit.edit)).sum := by
    refine List.sum_lt_sum _ _ (fun h hh => ?_) ?_
    · rcases hd.glued hend hh with hended | hglue
      · rw [RawEdit.joined_eq hended]
      · exact le_of_lt (balance_glued hglue)
    · unfold LineDiff.Unglued at hglued
      push Not at hglued
      obtain ⟨h, hh, e, he, hnil⟩ := hglued
      refine ⟨h, hh, balance_glued ((hd.glued hend hh).resolve_left fun hended => ?_)⟩
      exact hended e he hnil
  have hread : (d.read.map fun r => Edit.balance r.edits) = _ := balance_read (hd.flows hend)
  rw [hread, hold, hnew] at hlen
  rw [hbalance] at htarget
  have htarget' : (d.target.length : Int) = d.source.length + _ := htarget
  omega

/-- Hunks that are read line by line give the new lines, if the diff ends clean. -/
theorem applied_read (hd : d.Describes (rawLines old) (rawLines new)) (hhunks : d.hunks ≠ [])
    (hunglued : LineDiff.Unglued d.hunks) :
    applyHunks (splitlines old) (d.read.map ReadHunk.patch) = .ok (splitlines new) ↔
      LineDiff.EndsClean d.hunks := by
  have hold : splitlines old =
      Piece.source (d.hunks.map fun h => h.hunk.piece) (d.rest.map RawLine.line) := by
    rw [← rawLines_line, ← hd.1, LineDiff.source, line_source]
  have hnew : splitlines new =
      Piece.target (d.hunks.map fun h => h.hunk.piece) (d.rest.map RawLine.line) := by
    rw [← rawLines_line, ← hd.2, LineDiff.target, line_target]
  obtain ⟨output, cursor, hrun, hresult⟩ := @applyHunks_read (splitlines old)
    (d.rest.map RawLine.line) d.hunks 0 0 [] hhunks hunglued
    (fun h hh => ⟨d.changes h hh, d.leads h hh⟩) (Nat.zero_le _) hold
  rw [List.nil_append, ← hnew] at hresult
  rw [← hresult]
  unfold applyHunks LineDiff.read
  rw [hrun]
  exact ⟨fun h => Except.ok.inj h, fun h => congrArg Except.ok h⟩

end Rewrite

/-- **When a rewrite goes through**: of a diff that has nothing in it like the answer of a model
around one, exactly if `GoesThrough` holds. -/
theorem fullFileDiff_rewrites_iff (root : Path) (rel old new : Text)
    (differ : List RawLine → List RawLine → LineDiff)
    (hdiffer : (differ (rawLines old) (rawLines new)).Describes (rawLines old) (rawLines new))
    (hne : old ≠ new) (hend : new.getLast? = some '\n')
    (huntouched : Untouched (fullFileDiff differ rel old new true)) :
    Rewrites root rel old new (fullFileDiff differ rel old new true) ↔
      GoesThrough root rel new (differ (rawLines old) (rawLines new)) := by
  have htext : fullFileDiff differ rel old new true =
      (differ (rawLines old) (rawLines new)).text ("a/".toList ++ rel) ("b/".toList ++ rel) := rfl
  rw [htext] at huntouched ⊢
  generalize differ (rawLines old) (rawLines new) = d at hdiffer huntouched ⊢
  have hhunks : d.hunks ≠ [] := by
    intro hnil
    have hsame : d.source = d.target := by
      unfold LineDiff.source LineDiff.target
      rw [hnil]
      rfl
    rw [hdiffer.1, hdiffer.2] at hsame
    exact hne (by rw [← rawText_rawLines old, hsame, rawText_rawLines])
  constructor
  · intro hsome
    obtain ⟨hunks, lines, hparse, happly, hwritten⟩ := hsome
    have hrel : IsPlain rel := plain_oldPath hparse List.mem_cons_self
    have hread := splitlines_sanitized hdiffer hend hrel hhunks huntouched
    obtain ⟨hheader, ⟨hpaths, hcounted, _⟩, hpatch⟩ := (parse_read hread).mp hparse
    obtain ⟨hold, hnew, rfl⟩ := FilePatch.mk.inj hpatch
    have hplain := plain_applied happly (fun line hline => isPlain_splitlines hline)
      (plain_of_parse hparse _ List.mem_cons_self)
    rw [linesText_eq] at hwritten
    have hlines : lines = splitlines new := by rw [← hwritten, splitlines_endedText hplain]
    rw [hlines] at happly
    have hunglued := unglued_of_applied hdiffer hend happly
    refine ⟨hrel, hold.symm, hnew.symm, ?_, hcounted, hheader, hunglued, ?_,
      (applied_read hdiffer hhunks hunglued).mp happly⟩
    · exact (congrArg₂ (validatePatchPaths root) hold hnew).trans hpaths
    · rw [← hwritten]
      exact newline_of_endedText hplain
  · intro h
    have hread := splitlines_sanitized hdiffer hend h.plain hhunks huntouched
    refine ⟨d.read.map ReadHunk.patch, splitlines new, (parse_read hread).mpr ⟨h.noHeader,
      ⟨?_, h.counted, read_ne_nil hhunks⟩, ?_⟩,
      (applied_read hdiffer hhunks h.unglued).mpr h.endsClean,
      linesText_splitlines h.newlines hend⟩
    · exact (congrArg₂ (validatePatchPaths root) h.oldName h.newName).trans h.path
    · exact congrArg₂ (fun a b => FilePatch.mk a b _) h.oldName.symm h.newName.symm

/-- A differ that takes all the lines out and puts all the new ones in. -/
def wholesale (a b : List RawLine) : LineDiff :=
  if h : a = b then
    { hunks := [], rest := a, changes := nofun, leads := nofun, apart := nofun }
  else
    { hunks := [⟨[], a.map (RawEdit.mk .removed) ++ b.map (RawEdit.mk .added)⟩]
      rest := []
      changes := by
        intro g hg
        rw [List.mem_singleton.mp hg]
        cases a with
        | cons r a => exact ⟨_, List.mem_append_left _ List.mem_cons_self, Side.noConfusion⟩
        | nil =>
          obtain ⟨r, b, rfl⟩ := List.exists_cons_of_ne_nil (Ne.symm h)
          exact ⟨_, List.mem_append_right _ List.mem_cons_self, Side.noConfusion⟩
      leads := by
        intro g hg hne
        rw [List.mem_singleton.mp hg] at hne
        exact absurd rfl hne
      apart := nofun }

theorem wholesale_describes (a b : List RawLine) : (wholesale a b).Describes a b := by
  have hfilter : ∀ (l : List RawLine) (side : Side) (keep : Side → Bool),
      ((l.map (RawEdit.mk side)).filter fun e => keep e.side).map RawEdit.raw =
        if keep side then l else [] := by
    intro l side keep
    rw [List.filter_map, List.map_map]
    show List.map (fun r => r) (l.filter fun _ => keep side) = _
    rw [List.map_id']
    split
    next hkeep => exact List.filter_eq_self.mpr fun _ _ => hkeep
    next hno => exact List.filter_eq_nil_iff.mpr fun _ _ => hno
  unfold wholesale
  split
  next h => exact ⟨rfl, h⟩
  next h =>
    have holds : RawEdit.olds (a.map (RawEdit.mk .removed) ++ b.map (RawEdit.mk .added)) = a := by
      unfold RawEdit.olds
      rw [List.filter_append, List.map_append, hfilter a .removed fun side => decide (side ≠ .added),
        hfilter b .added fun side => decide (side ≠ .added)]
      exact List.append_nil a
    have hnews : RawEdit.news (a.map (RawEdit.mk .removed) ++ b.map (RawEdit.mk .added)) = b := by
      unfold RawEdit.news
      rw [List.filter_append, List.map_append,
        hfilter a .removed fun side => decide (side ≠ .removed),
        hfilter b .added fun side => decide (side ≠ .removed)]
      rfl
    exact ⟨(List.append_nil _).trans holds, (List.append_nil _).trans hnews⟩

/-- One line is changed for another. -/
theorem fullFileDiff_rewrites_line :
    Rewrites ["ws".toList] "f".toList "x\n".toList "y\n".toList
      (fullFileDiff wholesale "f".toList "x\n".toList "y\n".toList true) := by
  refine (fullFileDiff_rewrites_iff ["ws".toList] "f".toList "x\n".toList "y\n".toList wholesale
    (wholesale_describes _ _) (by decide) (by decide) ⟨by decide, by decide, by decide,
      by decide⟩).mpr ⟨by decide, by decide, by decide, by decide, ?_, ?_, ?_, by decide, ?_⟩
  · unfold Countable
    decide
  · intro r hr
    cases List.mem_singleton.mp hr
    exact fun ⟨e, he, hside, hlooks⟩ => by revert e; decide
  · unfold LineDiff.Unglued
    decide
  · unfold LineDiff.EndsClean
    decide

/-- Without a newline at its end the old line runs into the new one. -/
theorem fullFileDiff_glued : ¬ ∀ (root : Path) (rel old new : Text)
    (differ : List RawLine → List RawLine → LineDiff), (∀ a b, (differ a b).Describes a b) →
    old ≠ new → isBlank new = false → new.getLast? = some '\n' →
    Rewrites root rel old new (fullFileDiff differ rel old new true) := by
  intro hall
  obtain ⟨hunks, lines, hparse, happly, _⟩ := hall ["ws".toList] "f".toList "x".toList
    "y\n".toList wholesale wholesale_describes (by decide) (by decide) (by decide)
  have hread : parseFilePatches ["ws".toList] (sanitizeModelDiff
      (fullFileDiff wholesale "f".toList "x".toList "y\n".toList true)) =
      .ok [⟨"f".toList, "f".toList, [⟨1, 1, 1, 0, ["-x+y".toList]⟩]⟩] := by decide
  have hfails : applyHunks ["x".toList] [⟨1, 1, 1, 0, ["-x+y".toList]⟩] =
      .error (diffError "Patch context does not match target file.") := by decide
  rw [hread] at hparse
  cases hparse
  exact nomatch hfails.symm.trans happly

end Shamsu.Patch
