import Shamsu.Patch.Sanitize
import Shamsu.Patch.Terminators

/-!
# A rewrite of a whole file, as a diff

`_full_file_diff` of `shamsu/agents/rewrite_fallback.py` joins the lines of `difflib.unified_diff`,
each with the terminator it has in its text. A line without one runs into the line of the diff
that comes next (`joined`), and what sanitizing takes off the end of the diff is taken off its
last hunk (`trimEdits`). `read` is what is left of the hunks; `parse_text` says that this is what
the parser reads, and when.
-/

namespace Shamsu.Patch

open Shamsu.Lib Shamsu.Py Shamsu.Llm

/-! ## The diff -/

/-- A line of a hunk with its terminator. -/
structure RawEdit where
  side : Side
  raw : RawLine
  deriving DecidableEq, Repr

namespace RawEdit

def edit (e : RawEdit) : Edit := ⟨e.side, e.raw.line, false⟩

/-- The line as it is written. -/
def written (e : RawEdit) : RawLine := ⟨e.side.mark :: e.raw.line, e.raw.ending⟩

def olds (edits : List RawEdit) : List RawLine :=
  (edits.filter fun e => e.side ≠ .added).map RawEdit.raw

def news (edits : List RawEdit) : List RawLine :=
  (edits.filter fun e => e.side ≠ .removed).map RawEdit.raw

end RawEdit

/-- A hunk, after the lines between it and the one before it. -/
structure RawHunk where
  gap : List RawLine
  edits : List RawEdit
  deriving DecidableEq, Repr

namespace RawHunk

def piece (h : RawHunk) : Piece RawLine := ⟨h.gap, RawEdit.olds h.edits, RawEdit.news h.edits⟩

/-- The hunk without the terminators. -/
def hunk (h : RawHunk) : DiffHunk := ⟨h.gap.map RawLine.line, h.edits.map RawEdit.edit, []⟩

/-- The hunks as they are written. -/
def textFrom : Nat → Nat → List RawHunk → Text
  | _, _, [] => []
  | oldBefore, newBefore, h :: hunks =>
    let oldBefore := oldBefore + h.gap.length
    let newBefore := newBefore + h.gap.length
    (h.hunk.header oldBefore newBefore ++ ['\n']) ++ (rawText (h.edits.map RawEdit.written) ++
      textFrom (oldBefore + (RawEdit.olds h.edits).length)
        (newBefore + (RawEdit.news h.edits).length) hunks)

end RawHunk

/-- What `difflib.unified_diff` finds: each hunk has a change, and context before it where there
are lines. -/
structure LineDiff where
  hunks : List RawHunk
  rest : List RawLine
  changes : ∀ h ∈ hunks, ∃ e ∈ h.edits, e.side ≠ .context
  leads : ∀ h ∈ hunks, h.gap ≠ [] → ∀ e ∈ h.edits.head?, e.side = .context
  apart : ∀ h ∈ hunks.tail, h.gap ≠ []

namespace LineDiff

variable (d : LineDiff)

def source : List RawLine := Piece.source (d.hunks.map RawHunk.piece) d.rest

def target : List RawLine := Piece.target (d.hunks.map RawHunk.piece) d.rest

/-- `"".join(difflib.unified_diff(..., lineterm="\n"))`; nothing if there is no hunk. -/
def text (fromFile toFile : Text) : Text :=
  if d.hunks = [] then []
  else ("--- ".toList ++ fromFile ++ ['\n']) ++ (("+++ ".toList ++ toFile ++ ['\n']) ++
    RawHunk.textFrom 0 0 d.hunks)

/-- It is a diff of the two texts. -/
def Describes (old new : List RawLine) : Prop := d.source = old ∧ d.target = new

end LineDiff

/-- `_full_file_diff`, with the differ. -/
def fullFileDiff (differ : List RawLine → List RawLine → LineDiff) (rel oldContent newContent : Text)
    (exists_ : Bool) : Text :=
  let oldLines := if exists_ then rawLines oldContent else []
  let oldName := if exists_ then "a/".toList ++ rel else devNull
  (differ oldLines (rawLines newContent)).text oldName ("b/".toList ++ rel)

/-- The diff is a patch of the file `rel`, and takes its old text to the new one. -/
def Rewrites (root : Path) (rel old new diff : Text) : Prop :=
  ∃ hunks lines, parseFilePatches root (sanitizeModelDiff diff) = .ok [⟨rel, rel, hunks⟩] ∧
    applyHunks (splitlines old) hunks = .ok lines ∧ linesText lines = new

/-! ## What is read of it -/

namespace RawEdit

/-- A line without a terminator goes on with the next one. -/
def joined : List RawEdit → List RawEdit
  | e :: f :: edits =>
    if e.raw.ending = [] then
      ⟨e.side, ⟨e.raw.line ++ f.written.line, f.raw.ending⟩⟩ :: joined edits
    else e :: joined (f :: edits)
  | edits => edits

end RawEdit

/-- An empty line of context. -/
def Edit.isBlankContext (e : Edit) : Bool := e.side == .context && isBlank e.line

/-- The lines up to the last that is no empty context. -/
def Edit.kept (edits : List Edit) : List Edit := edits.rdropWhile Edit.isBlankContext

/-- What sanitizing leaves of the last hunk. -/
def Edit.trimmed (edits : List Edit) : List Edit :=
  match (kept edits).getLast? with
  | none => []
  | some e => (kept edits).dropLast ++ [{ e with line := rstrip e.line }]

/-- A hunk as it is read: its header, for the hunk as it was, and its lines. -/
structure ReadHunk where
  hunk : DiffHunk
  oldBefore : Nat
  newBefore : Nat
  edits : List Edit
  deriving DecidableEq, Repr

namespace ReadHunk

def header (r : ReadHunk) : Text := r.hunk.header r.oldBefore r.newBefore

def oldStart (r : ReadHunk) : Nat :=
  DiffHunk.startLine r.oldBefore (Edit.oldLines r.hunk.edits).length

def newStart (r : ReadHunk) : Nat :=
  DiffHunk.startLine r.newBefore (Edit.newLines r.hunk.edits).length

def lines (r : ReadHunk) : List Text := r.header :: r.edits.map Edit.marked

/-- The hunk as the parser has it. -/
def patch (r : ReadHunk) : HunkPatch where
  oldStart := r.oldStart
  oldCount := (Edit.oldLines r.edits).length
  newStart := r.newStart
  newCount := (Edit.newLines r.edits).length
  lines := r.edits.map Edit.marked

end ReadHunk

/-- The hunks as they are read, the last one without what sanitizing takes off. -/
def RawHunk.readFrom : Nat → Nat → List RawHunk → List ReadHunk
  | _, _, [] => []
  | oldBefore, newBefore, h :: hunks =>
    let oldBefore := oldBefore + h.gap.length
    let newBefore := newBefore + h.gap.length
    let edits := (RawEdit.joined h.edits).map RawEdit.edit
    ⟨h.hunk, oldBefore, newBefore, if hunks = [] then Edit.trimmed edits else edits⟩ ::
      readFrom (oldBefore + (RawEdit.olds h.edits).length)
        (newBefore + (RawEdit.news h.edits).length) hunks

def LineDiff.read (d : LineDiff) : List ReadHunk := RawHunk.readFrom 0 0 d.hunks

/-- Nothing of the diff looks like a part of an answer of a model around a diff. -/
structure Untouched (diff : Text) : Prop where
  noReasoning : hasThink diff = false
  noBlock : fencedBody (strip diff) = none
  noFence : ∀ line ∈ splitlines (strip diff), isFenceLine line = false
  noLabel : ∀ line ∈ splitlines (strip diff), isSyntheticContext line = false

/-! ## Lines with their terminators -/

section Lines

theorem splitlinesFrom_ended {u e : Text} (hu : IsPlain u) (he : IsBreak e) : ∀ acc : Text,
    splitlinesFrom acc (u ++ e) = [acc.reverse ++ u] := by
  induction u with
  | nil =>
    intro acc
    rw [List.nil_append, List.append_nil]
    rcases he with rfl | ⟨c, rfl, hc⟩
    · rw [splitlinesFrom]
      rfl
    · rw [splitlinesFrom, if_pos hc]
      · rfl
      · intro s' _ h
        cases h
  | cons c u ih =>
    intro acc
    have hc : isLineBreak c = false := hu c List.mem_cons_self
    have hcr : c ≠ '\r' := fun h => by rw [h] at hc; exact absurd hc (by decide)
    rw [List.cons_append, splitlinesFrom_cons hcr, if_neg (by rw [hc]; exact Bool.false_ne_true),
      ih (fun b hb => hu b (List.mem_cons_of_mem c hb)), List.reverse_cons, List.append_assoc]
    rfl

theorem endsAt_break {u e x : Text} (he : IsBreak e) (hx : x.head? ≠ some '\n') :
    EndsAt (u ++ e) x := by
  rcases he with rfl | ⟨c, rfl, hc⟩
  · exact ⟨u ++ ['\r'], '\n', by simp, by decide, fun h => absurd h (by decide)⟩
  · exact ⟨u, c, rfl, hc, fun _ => hx⟩

theorem space_break {e : Text} (he : IsBreak e) : ∀ c ∈ e, isSpace c = true := by
  rcases he with rfl | ⟨c, rfl, hc⟩
  · decide
  · intro d hd
    rw [List.mem_singleton.mp hd]
    exact isSpace_of_isLineBreak hc

/-- A line that is ended, with something in it. -/
def IsEnded (r : RawLine) : Prop := r.line ≠ [] ∧ IsPlain r.line ∧ IsBreak r.ending

theorem head_rawText {l : List RawLine} (hl : ∀ r ∈ l, IsEnded r) {x : Text}
    (hx : x.head? ≠ some '\n') : (rawText l ++ x).head? ≠ some '\n' := by
  cases l with
  | nil => exact hx
  | cons r l =>
    obtain ⟨hne, hplain, _⟩ := hl r List.mem_cons_self
    obtain ⟨c, t, hline⟩ := List.exists_cons_of_ne_nil hne
    have hhead : (rawText (r :: l) ++ x).head? = some c := by
      rw [rawText, List.flatMap_cons, RawLine.text, hline]
      rfl
    rw [hhead]
    intro hc
    have hbreak := hplain c (hline ▸ List.mem_cons_self)
    rw [Option.some.inj hc] at hbreak
    exact absurd hbreak (by decide)

/-- Ended lines are read back, whatever comes after them. -/
theorem splitlines_rawText {l : List RawLine} (hl : ∀ r ∈ l, IsEnded r) {x : Text}
    (hx : x.head? ≠ some '\n') :
    splitlines (rawText l ++ x) = l.map RawLine.line ++ splitlines x := by
  induction l with
  | nil => rfl
  | cons r l ih =>
    have hrest : ∀ r ∈ l, IsEnded r := fun q hq => hl q (List.mem_cons_of_mem r hq)
    obtain ⟨_, hplain, hbreak⟩ := hl r List.mem_cons_self
    have hone : splitlinesFrom [] (r.line ++ r.ending) = [r.line] :=
      splitlinesFrom_ended hplain hbreak []
    have hcut : rawText (r :: l) ++ x = (r.line ++ r.ending) ++ (rawText l ++ x) := by
      rw [rawText, List.flatMap_cons, List.append_assoc]
      rfl
    rw [hcut, splitlines, splitlinesFrom_endsAt _ [] (endsAt_break hbreak (head_rawText hrest hx)),
      hone, ih hrest]
    rfl

theorem rawText_line (line : Text) : rawText [written line] = line ++ ['\n'] := List.append_nil _

theorem rawText_append (a b : List RawLine) : rawText (a ++ b) = rawText a ++ rawText b :=
  List.flatMap_append

end Lines

namespace RawEdit

/-- A line of a text, with what ends it. -/
def IsLine (e : RawEdit) : Prop :=
  IsPlain e.raw.line ∧ (IsBreak e.raw.ending ∨ e.raw.ending = [])

theorem mark_plain (side : Side) : isLineBreak side.mark = false := by
  cases side with
  | context => rfl
  | removed => rfl
  | added => rfl

theorem IsLine.ended {e : RawEdit} (h : e.IsLine) (hne : e.raw.ending ≠ []) : IsEnded e.written := by
  refine ⟨List.cons_ne_nil _ _, fun c hc => ?_, h.2.resolve_right hne⟩
  rcases List.mem_cons.mp hc with rfl | hc
  · exact mark_plain e.side
  · exact h.1 c hc

/-- Joining lines leaves the text. -/
theorem rawText_joined (edits : List RawEdit) :
    rawText ((joined edits).map written) = rawText (edits.map written) := by
  induction edits using joined.induct with
  | case1 e f edits hnil ih =>
    rw [joined, if_pos hnil]
    simp only [rawText, List.map_cons, List.flatMap_cons] at ih ⊢
    rw [ih]
    simp [RawLine.text, written, hnil]
  | case2 e f edits hne ih =>
    rw [joined, if_neg hne]
    simp only [rawText, List.map_cons, List.flatMap_cons] at ih ⊢
    rw [ih]
  | case3 edits hno =>
    rw [joined]
    exact hno

/-- Where only the last line may have no terminator, nothing is joined. -/
theorem joined_eq {edits : List RawEdit} (h : ∀ e ∈ edits.dropLast, e.raw.ending ≠ []) :
    joined edits = edits := by
  induction edits with
  | nil => rfl
  | cons e edits ih =>
    cases edits with
    | nil => rfl
    | cons f edits =>
      rw [joined, if_neg (h e List.mem_cons_self),
        ih fun g hg => h g (List.mem_cons_of_mem e hg)]

end RawEdit

/-! ## The end of the diff -/

section Trimmed

theorem rstrip_marked (e : Edit) :
    rstrip e.marked = if e.isBlankContext then [] else e.side.mark :: rstrip e.line := by
  have happend := rstrip_append [e.side.mark] e.line
  rw [List.singleton_append] at happend
  unfold Edit.marked
  rw [happend]
  have hblank : rstrip e.line = [] ↔ isBlank e.line = true := by
    unfold isBlank
    rw [List.all_eq_true]
    exact List.rdropWhile_eq_nil_iff
  unfold Edit.isBlankContext
  by_cases hnil : rstrip e.line = []
  · rw [if_pos hnil, hnil, hblank.mp hnil, Bool.and_true]
    cases e.side with
    | context => rfl
    | removed => rfl
    | added => rfl
  · rw [if_neg hnil, Bool.eq_false_iff.mpr (mt hblank.mpr hnil), Bool.and_false,
      if_neg Bool.false_ne_true]
    rfl

/-- A hunk with a change ends in a line that is no empty context. -/
theorem trimmed_spec {edits : List Edit} (h : ∃ e ∈ edits, e.side ≠ .context) :
    ∃ front e dropped, edits = front ++ e :: dropped ∧ Edit.kept edits = front ++ [e] ∧
      Edit.trimmed edits = front ++ [{ e with line := rstrip e.line }] ∧
      e.isBlankContext = false ∧ ∀ b ∈ dropped, b.isBlankContext = true := by
  have hsplit : Edit.kept edits ++ edits.rtakeWhile Edit.isBlankContext = edits :=
    List.rdropWhile_append_rtakeWhile
  have hdropped : ∀ b ∈ edits.rtakeWhile Edit.isBlankContext, b.isBlankContext = true :=
    fun b hb => List.mem_rtakeWhile_imp hb
  have hne : Edit.kept edits ≠ [] := by
    intro hnil
    obtain ⟨e, he, hside⟩ := h
    have hb := hdropped e (by
      rw [hnil, List.nil_append] at hsplit
      rw [hsplit]
      exact he)
    unfold Edit.isBlankContext at hb
    rw [Bool.and_eq_true, beq_iff_eq] at hb
    exact hside hb.1
  have hlast := List.rdropWhile_last_not Edit.isBlankContext edits hne
  have hkept := List.dropLast_append_getLast hne
  refine ⟨(Edit.kept edits).dropLast, (Edit.kept edits).getLast hne, _, ?_, hkept.symm, ?_,
    Bool.eq_false_iff.mpr hlast, hdropped⟩
  · conv_lhs => rw [← hsplit, ← hkept]
    rw [List.append_assoc]
    rfl
  · unfold Edit.trimmed
    rw [List.getLast?_eq_some_getLast hne]

theorem mark_ne_newline (side : Side) : side.mark ≠ '\n' := by
  cases side with
  | context => decide
  | removed => decide
  | added => decide

theorem rstrip_written {e : RawEdit} (he : e.IsLine) (hkeep : e.edit.isBlankContext = false) :
    rstrip e.written.text = e.side.mark :: rstrip e.raw.line := by
  have hending : rstrip e.raw.ending = [] := by
    refine rstrip_spaces fun c hc => ?_
    rcases he.2 with hbreak | hnil
    · exact space_break hbreak c hc
    · rw [hnil] at hc
      cases hc
  have hmarked := rstrip_marked e.edit
  rw [hkeep, if_neg Bool.false_ne_true] at hmarked
  show rstrip (e.edit.marked ++ e.raw.ending) = _
  rw [rstrip_append, if_pos hending, hmarked]
  rfl

theorem space_dropped {e : RawEdit} (he : e.IsLine) (hblank : e.edit.isBlankContext = true) :
    ∀ c ∈ e.written.text, isSpace c = true := by
  unfold Edit.isBlankContext at hblank
  rw [Bool.and_eq_true, beq_iff_eq] at hblank
  obtain ⟨hside, hblank⟩ := hblank
  have hcontext : e.side = .context := hside
  intro c hc
  have hc : c ∈ (e.side.mark :: e.raw.line) ++ e.raw.ending := hc
  rcases List.mem_append.mp hc with hc | hc
  · rcases List.mem_cons.mp hc with rfl | hc
    · rw [hcontext]
      rfl
    · exact List.all_eq_true.mp hblank c hc
  · rcases he.2 with hbreak | hnil
    · exact space_break hbreak c hc
    · rw [hnil] at hc
      cases hc

/-- The last hunk, without what is stripped off the end of the diff. -/
theorem splitlines_trimmed {edits : List RawEdit} (hline : ∀ e ∈ edits, e.IsLine)
    (hended : ∀ e ∈ edits.dropLast, e.raw.ending ≠ []) (hchange : ∃ e ∈ edits, e.side ≠ .context) :
    rstrip (rawText (edits.map RawEdit.written)) ≠ [] ∧
      (rstrip (rawText (edits.map RawEdit.written))).head? ≠ some '\n' ∧
      splitlines (rstrip (rawText (edits.map RawEdit.written))) =
        (Edit.trimmed (edits.map RawEdit.edit)).map Edit.marked := by
  have hchange' : ∃ e ∈ edits.map RawEdit.edit, e.side ≠ .context := by
    obtain ⟨e, he, hside⟩ := hchange
    exact ⟨e.edit, List.mem_map_of_mem he, hside⟩
  obtain ⟨front', e', dropped', hsplit, _, htrimmed, hkeep, hdropped⟩ := trimmed_spec hchange'
  obtain ⟨front, back, rfl, rfl, hback⟩ := List.map_eq_append_iff.mp hsplit
  obtain ⟨e, dropped, rfl, rfl, rfl⟩ := List.map_eq_cons_iff.mp hback
  have hfront : ∀ r ∈ front.map RawEdit.written, IsEnded r := by
    intro r hr
    obtain ⟨f, hf, rfl⟩ := List.mem_map.mp hr
    refine (hline f (List.mem_append_left _ hf)).ended (hended f ?_)
    rw [List.dropLast_append_of_ne_nil (List.cons_ne_nil e dropped)]
    exact List.mem_append_left _ hf
  have hspaces : rstrip (rawText (dropped.map RawEdit.written)) = [] := by
    refine rstrip_spaces fun c hc => ?_
    obtain ⟨r, hr, hc⟩ := List.mem_flatMap.mp hc
    obtain ⟨b, hb, rfl⟩ := List.mem_map.mp hr
    exact space_dropped (hline b (by simp [hb])) (hdropped _ (List.mem_map_of_mem hb)) c hc
  have hone := rstrip_written (hline e (by simp)) hkeep
  have hends : rstrip (rawText ((front ++ e :: dropped).map RawEdit.written)) =
      rawText (front.map RawEdit.written) ++ (e.side.mark :: rstrip e.raw.line) := by
    rw [List.map_append, rawText_append, List.map_cons]
    show rstrip (_ ++ (e.written.text ++ rawText (dropped.map RawEdit.written))) = _
    rw [rstrip_append, rstrip_append, if_pos hspaces, hone, if_neg (List.cons_ne_nil _ _)]
  have hhead : (e.side.mark :: rstrip e.raw.line : Text).head? ≠ some '\n' := fun h =>
    mark_ne_newline e.side (Option.some.inj h)
  have hplain : IsPlain (e.side.mark :: rstrip e.raw.line) := by
    intro c hc
    rcases List.mem_cons.mp hc with rfl | hc
    · exact RawEdit.mark_plain e.side
    · exact (hline e (by simp)).1 c ((List.rdropWhile_prefix _ _).subset hc)
  rw [hends, htrimmed]
  refine ⟨List.append_ne_nil_of_right_ne_nil _ (List.cons_ne_nil _ _), head_rawText hfront hhead, ?_⟩
  have hlast : splitlines (e.side.mark :: rstrip e.raw.line) = [e.side.mark :: rstrip e.raw.line] :=
    splitlinesFrom_plain hplain [] (List.cons_ne_nil _ _)
  rw [splitlines_rawText hfront hhead, hlast, List.map_append, List.map_map, List.map_map]
  rfl

end Trimmed

/-! ## The whole diff -/

/-- Hunks whose lines read back when they are joined: only the very last one may have no
terminator. -/
structure Flows (hunks : List RawHunk) : Prop where
  lines : ∀ h ∈ hunks, ∀ e ∈ RawEdit.joined h.edits, e.IsLine
  ended : ∀ h ∈ hunks.dropLast, ∀ e ∈ RawEdit.joined h.edits, e.raw.ending ≠ []
  last : ∀ h ∈ hunks.getLast?, ∀ e ∈ (RawEdit.joined h.edits).dropLast, e.raw.ending ≠ []
  changes : ∀ h ∈ hunks, ∃ e ∈ RawEdit.joined h.edits, e.side ≠ .context

section Whole

theorem Flows.tail {h next : RawHunk} {hunks : List RawHunk} (hflows : Flows (h :: next :: hunks)) :
    Flows (next :: hunks) where
  lines g hg := hflows.lines g (List.mem_cons_of_mem h hg)
  ended g hg := hflows.ended g (List.mem_cons_of_mem h hg)
  last g hg := hflows.last g (by rw [List.getLast?_cons_cons]; exact hg)
  changes g hg := hflows.changes g (List.mem_cons_of_mem h hg)

theorem plain_append {a b : Text} (ha : IsPlain a) (hb : IsPlain b) : IsPlain (a ++ b) := by
  intro c hc
  rcases List.mem_append.mp hc with hc | hc
  · exact ha c hc
  · exact hb c hc

theorem plain_toDigits (n : Nat) : IsPlain (Nat.toDigits 10 n) := by
  intro c hc
  have hdigit := isDigit_of_mem hc
  simp only [Char.isDigit, Bool.and_eq_true, decide_eq_true_eq] at hdigit
  obtain ⟨hlow, hhigh⟩ : 48 ≤ c.toNat ∧ c.toNat ≤ 57 := hdigit
  rw [Bool.eq_false_iff]
  intro hbreak
  simp only [isLineBreak, Bool.or_eq_true, Bool.and_eq_true, decide_eq_true_eq, beq_iff_eq] at hbreak
  omega

theorem plain_range (before count : Nat) : IsPlain (DiffHunk.range before count) := by
  unfold DiffHunk.range
  refine plain_append (plain_toDigits _) ?_
  split
  · exact nofun
  · exact plain_append (a := [',']) (by decide) (plain_toDigits _)

theorem plain_header (h : RawHunk) (oldBefore newBefore : Nat) :
    IsPlain (h.hunk.header oldBefore newBefore) := by
  have hend : IsPlain (" @@".toList ++ ([] : Text)) := by decide
  exact plain_append (by decide) (plain_append (plain_range _ _) (plain_append (by decide)
    (plain_append (plain_range _ _) hend)))

/-- The header line of a hunk. -/
theorem ended_header (h : RawHunk) (oldBefore newBefore : Nat) :
    IsEnded (Patch.written (h.hunk.header oldBefore newBefore)) :=
  ⟨List.cons_ne_nil _ _, plain_header h oldBefore newBefore, Or.inr ⟨'\n', rfl, by decide⟩⟩

/-- **The hunks at the end of a diff** are read as `readFrom` has them. -/
theorem splitlines_hunks {hunks : List RawHunk} : ∀ {oldBefore newBefore : Nat}, hunks ≠ [] →
    Flows hunks → rstrip (RawHunk.textFrom oldBefore newBefore hunks) ≠ [] ∧
      (rstrip (RawHunk.textFrom oldBefore newBefore hunks)).head? ≠ some '\n' ∧
      splitlines (rstrip (RawHunk.textFrom oldBefore newBefore hunks)) =
        (RawHunk.readFrom oldBefore newBefore hunks).flatMap ReadHunk.lines := by
  induction hunks with
  | nil => exact fun hne => absurd rfl hne
  | cons h hunks ih =>
    intro oldBefore newBefore _ hflows
    have hheader := ended_header h (oldBefore + h.gap.length) (newBefore + h.gap.length)
    cases hunks with
    | nil =>
      obtain ⟨hne, hhead, hlines⟩ := splitlines_trimmed (hflows.lines h List.mem_cons_self)
        (hflows.last h rfl) (hflows.changes h List.mem_cons_self)
      rw [RawEdit.rawText_joined] at hne hhead hlines
      have htext : rstrip (RawHunk.textFrom oldBefore newBefore [h]) =
          rawText [Patch.written (h.hunk.header (oldBefore + h.gap.length)
            (newBefore + h.gap.length))] ++ rstrip (rawText (h.edits.map RawEdit.written)) := by
        rw [RawHunk.textFrom, RawHunk.textFrom, List.append_nil, rstrip_append, if_neg hne,
          rawText_line]
      have hone : ∀ r ∈ [Patch.written (h.hunk.header (oldBefore + h.gap.length)
          (newBefore + h.gap.length))], IsEnded r := fun r hr => List.mem_singleton.mp hr ▸ hheader
      rw [htext]
      refine ⟨List.append_ne_nil_of_right_ne_nil _ hne, head_rawText hone hhead, ?_⟩
      rw [splitlines_rawText hone hhead, hlines, RawHunk.readFrom, RawHunk.readFrom, if_pos rfl,
        List.flatMap_singleton]
      rfl
    | cons next hunks =>
      obtain ⟨hne, hhead, hlines⟩ := @ih
        (oldBefore + h.gap.length + (RawEdit.olds h.edits).length)
        (newBefore + h.gap.length + (RawEdit.news h.edits).length)
        (List.cons_ne_nil _ _) hflows.tail
      have hall : ∀ r ∈ Patch.written (h.hunk.header (oldBefore + h.gap.length)
          (newBefore + h.gap.length)) :: (RawEdit.joined h.edits).map RawEdit.written,
          IsEnded r := by
        intro r hr
        rcases List.mem_cons.mp hr with rfl | hr
        · exact hheader
        · obtain ⟨e, he, rfl⟩ := List.mem_map.mp hr
          exact (hflows.lines h List.mem_cons_self e he).ended
            (hflows.ended h List.mem_cons_self e he)
      have htext : rstrip (RawHunk.textFrom oldBefore newBefore (h :: next :: hunks)) =
          rawText (Patch.written (h.hunk.header (oldBefore + h.gap.length)
            (newBefore + h.gap.length)) :: (RawEdit.joined h.edits).map RawEdit.written) ++
          rstrip (RawHunk.textFrom (oldBefore + h.gap.length + (RawEdit.olds h.edits).length)
            (newBefore + h.gap.length + (RawEdit.news h.edits).length) (next :: hunks)) := by
        rw [RawHunk.textFrom, ← List.append_assoc, rstrip_append, if_neg hne,
          ← RawEdit.rawText_joined, ← rawText_line, ← rawText_append]
        rfl
      have hread : RawHunk.readFrom oldBefore newBefore (h :: next :: hunks) =
          ⟨h.hunk, oldBefore + h.gap.length, newBefore + h.gap.length,
            (RawEdit.joined h.edits).map RawEdit.edit⟩ ::
          RawHunk.readFrom (oldBefore + h.gap.length + (RawEdit.olds h.edits).length)
            (newBefore + h.gap.length + (RawEdit.news h.edits).length) (next :: hunks) := by
        rw [RawHunk.readFrom, if_neg (List.cons_ne_nil next hunks)]
      rw [htext]
      refine ⟨List.append_ne_nil_of_right_ne_nil _ hne, head_rawText hall hhead, ?_⟩
      rw [splitlines_rawText hall hhead, hlines, hread, List.flatMap_cons, List.map_cons,
        List.map_map, ReadHunk.lines, List.map_map]
      rfl

/-- **The lines of the diff** that sanitizing looks at. -/
theorem splitlines_text {d : LineDiff} {fromFile toFile : Text} (hfrom : IsPlain fromFile)
    (hto : IsPlain toFile) (hne : d.hunks ≠ []) (hflows : Flows d.hunks) :
    splitlines (strip (d.text fromFile toFile)) =
      ("--- ".toList ++ fromFile) :: ("+++ ".toList ++ toFile) ::
        d.read.flatMap ReadHunk.lines := by
  obtain ⟨hrest, hhead, hlines⟩ := @splitlines_hunks d.hunks 0 0 hne hflows
  have hended : ∀ r ∈ [written ("--- ".toList ++ fromFile), written ("+++ ".toList ++ toFile)],
      IsEnded r := by
    intro r hr
    rcases List.mem_cons.mp hr with rfl | hr
    · exact ⟨List.cons_ne_nil _ _, plain_append (by decide) hfrom, Or.inr ⟨'\n', rfl, by decide⟩⟩
    · rw [List.mem_singleton.mp hr]
      exact ⟨List.cons_ne_nil _ _, plain_append (by decide) hto, Or.inr ⟨'\n', rfl, by decide⟩⟩
  have hright : rstrip (d.text fromFile toFile) =
      rawText [written ("--- ".toList ++ fromFile), written ("+++ ".toList ++ toFile)] ++
        rstrip (RawHunk.textFrom 0 0 d.hunks) := by
    unfold LineDiff.text
    rw [if_neg hne, ← List.append_assoc, rstrip_append, if_neg hrest, ← rawText_line,
      ← rawText_line, ← rawText_append]
    rfl
  have hstrip : strip (d.text fromFile toFile) = rstrip (d.text fromFile toFile) := by
    unfold strip
    rw [hright]
    rfl
  rw [hstrip, hright, splitlines_rawText hended hhead, hlines]
  rfl

end Whole

/-! ## What the parser makes of it -/

section Parse

theorem hunkLines_marked (edits : List Edit) :
    hunkLines (edits.map Edit.marked) = .ok (edits.map Edit.marked) := by
  induction edits with
  | nil => rfl
  | cons e edits ih =>
    rw [List.map_cons, hunkLines, Edit.marker_marked, ih]
    cases e.side with
    | removed => rfl
    | context => rfl
    | added => rfl

theorem parseHunks_read {reads : List ReadHunk} : ∀ {patches : List HunkPatch},
    (reads.map fun r => (r.header, r.edits.map Edit.marked)).mapM
        (fun s : Text × List Text => parseHunk s.1 s.2) = .ok patches ↔
      (∀ r ∈ reads, Countable r.oldStart ∧ Countable r.newStart) ∧
        patches = reads.map ReadHunk.patch := by
  induction reads with
  | nil => exact ⟨fun h => ⟨nofun, (Except.ok.inj h).symm⟩, fun h => congrArg Except.ok h.2.symm⟩
  | cons r reads ih =>
    intro patches
    rw [List.map_cons, List.mapM_cons, result_bind_ok, List.forall_mem_cons]
    constructor
    · intro hsome
      obtain ⟨p, hp, hsome⟩ := hsome
      obtain ⟨hr, rfl⟩ := (parseHunk_header (hunkLines_marked _)).mp hp
      obtain ⟨rest, hrest, hpatches⟩ := result_bind_ok.mp hsome
      obtain ⟨hall, rfl⟩ := ih.mp hrest
      exact ⟨⟨hr, hall⟩, (Except.ok.inj hpatches).symm⟩
    · intro hsome
      obtain ⟨⟨hr, hall⟩, rfl⟩ := hsome
      exact ⟨_, (parseHunk_header (hunkLines_marked _)).mpr ⟨hr, rfl⟩, result_bind_ok.mpr ⟨_, ih.mpr ⟨hall, rfl⟩, rfl⟩⟩

/-- A removed line that is read as a `--- ` header. -/
def ReadHunk.LooksLikeHeader (r : ReadHunk) : Prop :=
  ∃ e ∈ r.edits, e.side = .removed ∧ "-- ".toList <+: e.line

theorem fileMark_read {reads : List ReadHunk} :
    (∃ line ∈ reads.flatMap ReadHunk.lines, isFileMark line = true) ↔
      ∃ r ∈ reads, r.LooksLikeHeader := by
  constructor
  · intro hsome
    obtain ⟨line, hline, hmark⟩ := hsome
    obtain ⟨r, hr, hline⟩ := List.mem_flatMap.mp hline
    rcases List.mem_cons.mp hline with rfl | hline
    · exact absurd hmark Bool.false_ne_true
    · obtain ⟨e, he, rfl⟩ := List.mem_map.mp hline
      exact ⟨r, hr, e, he, Edit.isFileMark_marked.mp hmark⟩
  · intro hsome
    obtain ⟨r, hr, e, he, hlooks⟩ := hsome
    exact ⟨e.marked, List.mem_flatMap.mpr ⟨r, hr, List.mem_cons_of_mem _ (List.mem_map_of_mem he)⟩,
      Edit.isFileMark_marked.mpr hlooks⟩

theorem sections_read (reads : List ReadHunk) :
    sections isHunkMark (reads.flatMap ReadHunk.lines) =
      ([], reads.map fun r => (r.header, r.edits.map Edit.marked)) := by
  have hmarks := @sections_marked _ isHunkMark []
    (reads.map fun r => (r.header, r.edits.map Edit.marked))
    (fun _ ha => absurd ha List.not_mem_nil) fun s hs => by
      obtain ⟨r, _, rfl⟩ := List.mem_map.mp hs
      refine ⟨rfl, fun line hline => ?_⟩
      obtain ⟨e, _, rfl⟩ := List.mem_map.mp hline
      exact Edit.isHunkMark_marked e
  rw [List.nil_append, List.flatMap_map] at hmarks
  exact hmarks

/-- **One patch is read** when no line looks like a header of another. -/
theorem parse_read {root : Path} {fromFile toFile diffText : Text} {reads : List ReadHunk}
    {patch : FilePatch} (hlines : splitlines diffText = ("--- ".toList ++ fromFile) ::
      ("+++ ".toList ++ toFile) :: reads.flatMap ReadHunk.lines) :
    parseFilePatches root diffText = .ok [patch] ↔
      (∀ r ∈ reads, ¬ r.LooksLikeHeader) ∧
      (validatePatchPaths root (cleanHeaderPath fromFile) (cleanHeaderPath toFile) = .ok () ∧
        (∀ r ∈ reads, Countable r.oldStart ∧ Countable r.newStart) ∧ reads ≠ []) ∧
      patch = ⟨cleanHeaderPath fromFile, cleanHeaderPath toFile, reads.map ReadHunk.patch⟩ := by
  rw [parseFilePatches_one hlines fileMark_read,
    parseFilePatch_sections (sections_read reads) parseHunks_read, Ne, List.map_eq_nil_iff]
  simp only [not_exists, not_and]

end Parse

end Shamsu.Patch
