import Shamsu.Lib.Splice
import Shamsu.Patch.Diff

/-!
# What the hunks of a patch do

`_apply_hunks` of `shamsu/patch/engine.py` on any lines and any hunks. Where it succeeds it
has found a block of the file for each hunk (`locateHunk_spec`), one after the other, and
its result is the file with these blocks replaced (`hunks_spliced`).

A context line comes out as the file has it: the hunk's own copy of it may differ at the
end, in white space.
-/

namespace Shamsu.Patch

open Shamsu.Lib Shamsu.Py

/-- The new side of a hunk where its old side is `block`: context lines are those of the
block. -/
def newSide : List Text → List Text → List Text
  | [], _ => []
  | line :: lines, block =>
    if marker line = '\\' then newSide lines block
    else if marker line = ' ' then block.take 1 ++ newSide lines (block.drop 1)
    else if marker line = '-' then newSide lines (block.drop 1)
    else line.tail :: newSide lines block

/-- A block that the hunk matches, line by line modulo trailing white space, and what the
hunk makes of it. -/
def Fits (hunk : HunkPatch) (p : Piece Text) : Prop :=
  p.old.map rstrip = (oldBlock hunk.lines).map rstrip ∧ p.new = newSide hunk.lines p.old

/-- An index past the end. -/
def indexError : Exn := ⟨.value, "list index out of range"⟩

/-- `applyLine` without the guard on `original_lines[cursor]`. -/
def applyLineUnguarded (originalLines : List Text) (line : Text) (output : List Text)
    (cursor : Nat) : Except Exn (List Text × Nat) :=
  if marker line = ' ' then
    match originalLines[cursor]? with
    | some own => .ok (output ++ [own], cursor + 1)
    | none => .error indexError
  else applyLine originalLines line output cursor

/-- `applyHunk` without the guard. -/
def applyHunkUnguarded (originalLines : List Text) (state : List Text × Nat) (hunk : HunkPatch) :
    Except Exn (List Text × Nat) :=
  match locateHunk originalLines (oldBlock hunk.lines) (hunk.oldStart - 1) state.2 with
  | none => .error (diffError "Patch context does not match target file.")
  | some start =>
    hunk.lines.foldlM (fun state line => applyLineUnguarded originalLines line state.1 state.2)
      (state.1 ++ (originalLines.drop state.2).take (start - state.2), start)

/-- `applyHunks` without the guard. -/
def applyHunksUnguarded (originalLines : List Text) (hunks : List HunkPatch) :
    Except Exn (List Text) := do
  let (output, cursor) ← hunks.foldlM (applyHunkUnguarded originalLines) ([], 0)
  .ok (output ++ originalLines.drop cursor)

/-! ## Where a hunk is found -/

section Locate

variable {original block : List Text} {hint low start : Nat}

theorem closest_mem {anchor : Nat} : ∀ {l : List Nat} {k : Nat}, closest anchor l = some k → k ∈ l
  | start :: rest, k, h => by
    unfold closest at h
    split at h
    next => exact Option.some.inj h ▸ List.mem_cons_self
    next other hother =>
      split at h
      · exact Option.some.inj h ▸ List.mem_cons_self
      · exact List.mem_cons_of_mem _ (closest_mem (Option.some.inj h ▸ hother))

/-- **Spec of the search**: the place is at or after `low`, in the file, and the block is
there modulo trailing white space. -/
theorem locateHunk_spec (hlow : low ≤ original.length)
    (h : locateHunk original block hint low = some start) :
    low ≤ start ∧ start + block.length ≤ original.length ∧
      ((original.drop start).take block.length).map rstrip = block.map rstrip := by
  unfold locateHunk at h
  dsimp only at h
  split at h
  next hspan =>
    cases h
    rw [List.length_eq_zero_iff.mp hspan]
    simp only [List.length_nil, List.take_zero, List.map_nil, Nat.add_zero, and_true]
    omega
  next hspan =>
    have hmem := List.mem_filter.mp (closest_mem h)
    have hrange := List.mem_range.mp hmem.1
    have htest := hmem.2
    simp only [Bool.and_eq_true, decide_eq_true_eq, beq_iff_eq] at htest
    exact ⟨htest.1, by omega, htest.2⟩

/-- With the block where it is said to be, that is where it is found. -/
theorem closest_anchor {anchor : Nat} : ∀ {l : List Nat}, anchor ∈ l →
    closest anchor l = some anchor
  | start :: rest, h => by
    unfold closest
    by_cases hstart : start = anchor
    · subst hstart
      cases closest start rest with
      | none => rfl
      | some other => exact if_pos (by omega)
    · have hrest := (List.mem_cons.mp h).resolve_left (Ne.symm hstart)
      rw [closest_anchor hrest]
      dsimp only
      rw [if_neg (by omega)]

theorem locateHunk_hint (hne : block ≠ []) (hlow : low ≤ hint)
    (hin : hint + block.length ≤ original.length)
    (hmatch : ((original.drop hint).take block.length).map rstrip = block.map rstrip) :
    locateHunk original block hint low = some hint := by
  unfold locateHunk
  dsimp only
  rw [if_neg (mt List.length_eq_zero_iff.mp hne), Nat.max_eq_left hlow]
  refine closest_anchor (List.mem_filter.mpr ⟨List.mem_range.mpr (by omega), ?_⟩)
  simp only [Bool.and_eq_true, decide_eq_true_eq, beq_iff_eq]
  exact ⟨hlow, hmatch⟩

end Locate

/-! ## One hunk -/

section Lines

variable {original : List Text}

theorem oldBlock_note {line : Text} {lines : List Text} (h : marker line = '\\') :
    oldBlock (line :: lines) = oldBlock lines := by
  simp [oldBlock, h]

theorem oldBlock_added {line : Text} {lines : List Text} (h : marker line = '+') :
    oldBlock (line :: lines) = oldBlock lines := by
  simp [oldBlock, h]

theorem oldBlock_old {line : Text} {lines : List Text} (h : marker line = ' ' ∨ marker line = '-') :
    oldBlock (line :: lines) = line.tail :: oldBlock lines := by
  simp [oldBlock, h]

/-- The new side needs no more lines than the old side has. -/
theorem newSide_append (lines : List Text) : ∀ {block : List Text} (more : List Text),
    (oldBlock lines).length ≤ block.length → newSide lines (block ++ more) = newSide lines block := by
  induction lines with
  | nil => exact fun _ _ => rfl
  | cons line lines ih =>
    intro block more hlen
    unfold newSide
    by_cases hnote : marker line = '\\'
    · rw [if_pos hnote, if_pos hnote, ih more (by rwa [oldBlock_note hnote] at hlen)]
    · rw [if_neg hnote, if_neg hnote]
      by_cases hold : marker line = ' ' ∨ marker line = '-'
      · rw [oldBlock_old hold] at hlen
        obtain ⟨first, block, rfl⟩ := List.exists_cons_of_length_pos
          (Nat.lt_of_lt_of_le (Nat.succ_pos _) hlen)
        have hrest := ih more (Nat.le_of_succ_le_succ hlen)
        simp only [List.cons_append, List.take_succ_cons, List.take_zero, List.drop_succ_cons,
          List.drop_zero, hrest, List.nil_append]
        rcases hold with hspace | hminus
        · rw [if_pos hspace, if_pos hspace]
        · rw [if_pos hminus, if_pos hminus]
      · rw [not_or] at hold
        rw [if_neg hold.1, if_neg hold.2, if_neg hold.1, if_neg hold.2]
        congr 1
        refine ih more (Nat.le_trans (Nat.le_of_eq ?_) hlen)
        simp [oldBlock, hold.1, hold.2]

/-- **The lines of a hunk**: its new side is put out and its old side is passed over, and no
line past the end is read. -/
theorem applyLines_spec {lines output output' : List Text} {cursor cursor' : Nat}
    (hin : cursor + (oldBlock lines).length ≤ original.length)
    (h : lines.foldlM (fun state line => applyLine original line state.1 state.2)
      (output, cursor) = .ok (output', cursor')) :
    output' = output ++ newSide lines (original.drop cursor) ∧
      cursor' = cursor + (oldBlock lines).length ∧
      lines.foldlM (fun state line => applyLineUnguarded original line state.1 state.2)
        (output, cursor) = .ok (output', cursor') := by
  induction lines generalizing output cursor with
  | nil =>
    cases h
    exact ⟨(List.append_nil _).symm, rfl, rfl⟩
  | cons line lines ih =>
    obtain ⟨⟨output₁, cursor₁⟩, hline, h⟩ := result_bind_ok.mp h
    rw [List.foldlM_cons]
    unfold applyLineUnguarded newSide
    unfold applyLine at hline ⊢
    dsimp only at hline ⊢
    split_ifs at hline with hnote hcontext hremoved hadded
    · cases hline
      rw [oldBlock_note hnote] at hin ⊢
      have hspace : marker line ≠ ' ' := fun h => by rw [hnote] at h; cases h
      obtain ⟨hout, hcursor, hrest⟩ := ih hin h
      rw [if_pos hnote, if_neg hspace, if_pos hnote]
      exact ⟨hout, hcursor, hrest⟩
    · cases hline
      rw [oldBlock_old (Or.inl hcontext), List.length_cons] at hin ⊢
      obtain ⟨hout, hcursor, hrest⟩ := ih (by omega) h
      have hlt : cursor < original.length := by omega
      rw [if_neg hnote, if_pos hcontext, if_pos hcontext, List.getElem?_eq_getElem hlt]
      rw [List.getD_eq_getElem?_getD, List.getElem?_eq_getElem hlt] at hout hrest
      refine ⟨?_, by omega, hrest⟩
      rw [hout, List.append_assoc, List.drop_eq_getElem_cons hlt]
      rfl
    · cases hline
      rw [oldBlock_old (Or.inr hremoved), List.length_cons] at hin ⊢
      obtain ⟨hout, hcursor, hrest⟩ := ih (by omega) h
      rw [if_neg hnote, if_neg hcontext, if_pos hremoved, if_neg hnote, if_neg hcontext,
        if_pos hremoved, if_neg hcontext]
      refine ⟨?_, by omega, hrest⟩
      rw [hout, List.drop_drop]
    · cases hline
      rw [oldBlock_added hadded] at hin ⊢
      obtain ⟨hout, hcursor, hrest⟩ := ih hin h
      rw [if_neg hnote, if_neg hcontext, if_neg hremoved, if_neg hnote, if_neg hcontext,
        if_neg hremoved, if_pos hadded, if_neg hcontext]
      refine ⟨?_, hcursor, hrest⟩
      rw [hout, List.append_assoc]
      rfl

/-- **One hunk**: a piece of the file from the cursor on. -/
theorem applyHunk_spec {hunk : HunkPatch} {output output' : List Text} {cursor cursor' : Nat}
    (hcursor : cursor ≤ original.length)
    (h : applyHunk original (output, cursor) hunk = .ok (output', cursor')) :
    ∃ p, Fits hunk p ∧ cursor' ≤ original.length ∧
      original.drop cursor = p.before ++ (p.old ++ original.drop cursor') ∧
      output' = output ++ (p.before ++ p.new) ∧
      applyHunkUnguarded original (output, cursor) hunk = .ok (output', cursor') := by
  unfold applyHunk at h
  unfold applyHunkUnguarded
  dsimp only at h ⊢
  cases hstart : locateHunk original (oldBlock hunk.lines) (hunk.oldStart - 1) cursor with
  | none =>
    rw [hstart] at h
    cases h
  | some start =>
    rw [hstart] at h
    dsimp only at h ⊢
    obtain ⟨hlow, hin, hmatch⟩ := locateHunk_spec hcursor hstart
    obtain ⟨rfl, rfl, hrun⟩ := applyLines_spec hin h
    have hblock : original.drop start = (original.drop start).take (oldBlock hunk.lines).length ++
        original.drop (start + (oldBlock hunk.lines).length) := by
      rw [← List.drop_drop, List.take_append_drop]
    refine ⟨⟨(original.drop cursor).take (start - cursor),
      (original.drop start).take (oldBlock hunk.lines).length,
      newSide hunk.lines (original.drop start)⟩, ⟨hmatch, ?_⟩, hin, ?_, ?_, hrun⟩
    · rw [hblock, newSide_append _ _ ?_, List.take_left' ?_]
      · rw [List.length_take, List.length_drop]
        omega
      · rw [List.length_take, List.length_drop]
        omega
    · dsimp only
      rw [← hblock]
      conv_lhs => rw [← List.take_append_drop (start - cursor) (original.drop cursor)]
      rw [List.drop_drop, Nat.add_sub_cancel' hlow]
    · rw [List.append_assoc]

end Lines

/-! ## All of them -/

/-- **Loop invariant**: what is put out is what is behind the cursor, with the blocks that
were found replaced. -/
theorem hunks_pieces {original : List Text} {hunks : List HunkPatch} {output output' : List Text}
    {cursor cursor' : Nat} (hcursor : cursor ≤ original.length)
    (h : hunks.foldlM (applyHunk original) (output, cursor) = .ok (output', cursor')) :
    ∃ pieces, List.Forall₂ Fits hunks pieces ∧
      original.drop cursor = Piece.source pieces (original.drop cursor') ∧
      output' = output ++ Piece.target pieces [] ∧
      hunks.foldlM (applyHunkUnguarded original) (output, cursor) = .ok (output', cursor') := by
  induction hunks generalizing output cursor with
  | nil =>
    cases h
    exact ⟨[], .nil, rfl, (List.append_nil _).symm, rfl⟩
  | cons hunk hunks ih =>
    obtain ⟨⟨output₁, cursor₁⟩, hfirst, h⟩ := result_bind_ok.mp h
    obtain ⟨p, hfits, hle, hsource, rfl, hrun₁⟩ := applyHunk_spec hcursor hfirst
    obtain ⟨pieces, hall, hrest, rfl, hrun⟩ := ih hle h
    refine ⟨p :: pieces, .cons hfits hall, ?_, ?_, ?_⟩
    · rw [hsource, hrest]
      rfl
    · simp only [Piece.target_cons, List.append_assoc]
    · exact result_bind_ok.mpr ⟨_, hrun₁, hrun⟩

/-- **What the hunks of a patch do**: there is a block of the file for each of them, in order
and apart, which it matches modulo trailing white space; the result is the file with each
block replaced by the new side of its hunk, with the file's own context lines; and the guard
on the index is never needed. -/
theorem hunks_spliced (original : List Text) (hunks : List HunkPatch) (result : List Text)
    (h : applyHunks original hunks = .ok result) :
    (∃ pieces rest, List.Forall₂ Fits hunks pieces ∧ original = Piece.source pieces rest ∧
      result = Piece.target pieces rest) ∧
    applyHunksUnguarded original hunks = .ok result := by
  unfold applyHunks at h
  obtain ⟨⟨output, cursor⟩, hrun, hresult⟩ := result_bind_ok.mp h
  obtain ⟨pieces, hall, hsource, hout, hrun⟩ := hunks_pieces (Nat.zero_le _) hrun
  have hresult := (Except.ok.inj hresult).symm
  refine ⟨⟨pieces, original.drop cursor, hall, hsource, ?_⟩, ?_⟩
  · rw [hresult, hout, List.nil_append, ← Piece.target_rest, List.nil_append]
  · exact result_bind_ok.mpr ⟨_, hrun, by rw [hresult]⟩

/-- A hunk that adds a line after a context line. -/
def afterContext : HunkPatch := ⟨1, 1, 1, 2, [" a".toList, "+b".toList]⟩

theorem hunks_spliced_drift : (∃ pieces rest, List.Forall₂ Fits [afterContext] pieces ∧
      ["a ".toList] = Piece.source pieces rest ∧
      ["a ".toList, "b".toList] = Piece.target pieces rest) ∧
    applyHunksUnguarded ["a ".toList] [afterContext] = .ok ["a ".toList, "b".toList] :=
  hunks_spliced ["a ".toList] [afterContext] ["a ".toList, "b".toList] (by decide)

/-- A context line is not put out as the hunk has it. -/
theorem context_kept : ¬ ∀ (original : List Text) (hunks : List HunkPatch) (result : List Text),
    applyHunks original hunks = .ok result →
    ∃ pieces rest, List.Forall₂ (fun (hunk : HunkPatch) (p : Piece Text) =>
        p.old.map rstrip = (oldBlock hunk.lines).map rstrip ∧
        p.new = (hunk.lines.filter fun line => marker line = ' ' ∨ marker line = '+').map List.tail)
      hunks pieces ∧ original = Piece.source pieces rest ∧ result = Piece.target pieces rest := by
  intro hall
  obtain ⟨pieces, rest, hfits, hsource, htarget⟩ := hall ["a ".toList] [afterContext]
    ["a ".toList, "b".toList] (by decide)
  cases hfits with
  | cons hfit hnil =>
    cases hnil
    next p =>
    obtain ⟨hmatch, hnew⟩ := hfit
    simp only [Piece.source_cons, Piece.source_nil] at hsource
    simp only [Piece.target_cons, Piece.target_nil] at htarget
    -- the block has a line, so nothing is before it
    have hlen := congrArg List.length hmatch
    have hsum := congrArg List.length hsource
    simp only [List.length_map, List.length_append, List.length_singleton] at hlen hsum
    have hone : (oldBlock afterContext.lines).length = 1 := by decide
    have hbefore : p.before = [] := List.length_eq_zero_iff.mp (by omega)
    rw [hbefore, List.nil_append, hnew] at htarget
    have hfirst : some "a ".toList = some "a".toList := congrArg List.head? htarget
    exact absurd hfirst (by decide)

end Shamsu.Patch
