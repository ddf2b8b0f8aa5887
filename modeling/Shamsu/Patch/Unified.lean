import Shamsu.Patch.Hunks
import Shamsu.Py.Endings

/-!
# Unified diffs from one text to another

`FileDiff` is a unified diff of one file as diff programs write it: hunks with any lines of
context, each after the lines it leaves alone, under a `---` and a `+++` line. Its two
texts are `old` and `new`. `diff_applies_iff` says when the parser and the applier of
`shamsu/patch/engine.py` take `old` to `new` by it.

Two things go wrong. A removed line that begins with `-- ` is written as one that begins
with `--- `, which is taken for a file header. And a hunk that only adds lines has the line
that it comes after in its header, while the applier counts from one: it adds them one line
early.
-/

namespace Shamsu.Patch

open Shamsu.Lib Shamsu.Py

/-! ## Writing a diff -/

inductive Side where
  | context
  | removed
  | added
  deriving DecidableEq, Repr

def Side.mark : Side → Char
  | .context => ' '
  | .removed => '-'
  | .added => '+'

/-- A line of a hunk; `bare` if its text has no newline after it. -/
structure Edit where
  side : Side
  line : Text
  bare : Bool
  deriving DecidableEq, Repr

namespace Edit

/-- The line with its mark. -/
def marked (e : Edit) : Text := e.side.mark :: e.line

def noNewline : Text := "\\ No newline at end of file".toList

def lines (e : Edit) : List Text := if e.bare then [e.marked, noNewline] else [e.marked]

def oldLines (edits : List Edit) : List Text :=
  (edits.filter fun e => e.side ≠ .added).map Edit.line

def newLines (edits : List Edit) : List Text :=
  (edits.filter fun e => e.side ≠ .removed).map Edit.line

end Edit

/-- A hunk, after the lines between it and the one before it. -/
structure DiffHunk where
  gap : List Text
  edits : List Edit
  heading : Text
  deriving DecidableEq, Repr

namespace DiffHunk

/-- What it does to the text. -/
def piece (h : DiffHunk) : Piece Text := ⟨h.gap, Edit.oldLines h.edits, Edit.newLines h.edits⟩

/-- The line a range starts at: the one before it where it has none. -/
def startLine (before count : Nat) : Nat := if count = 0 then before else before + 1

/-- A range of a hunk header; the count is left out where it is one. -/
def range (before count : Nat) : Text :=
  Nat.toDigits 10 (startLine before count) ++
    if count = 1 then [] else ',' :: Nat.toDigits 10 count

/-- The hunk header, where that many lines are before the hunk in the two texts. -/
def header (h : DiffHunk) (oldBefore newBefore : Nat) : Text :=
  "@@ -".toList ++ (range oldBefore (Edit.oldLines h.edits).length ++
    (" +".toList ++ (range newBefore (Edit.newLines h.edits).length ++
      (" @@".toList ++ if h.heading = [] then [] else ' ' :: h.heading))))

/-- The hunks, each with its header. -/
def sectionsFrom : Nat → Nat → List DiffHunk → List (Text × List Text)
  | _, _, [] => []
  | oldBefore, newBefore, h :: hunks =>
    let oldBefore := oldBefore + h.gap.length
    let newBefore := newBefore + h.gap.length
    (h.header oldBefore newBefore, h.edits.flatMap Edit.lines) ::
      sectionsFrom (oldBefore + (Edit.oldLines h.edits).length)
        (newBefore + (Edit.newLines h.edits).length) hunks

/-- The hunks as the parser has them. -/
def patchesFrom : Nat → Nat → List DiffHunk → List HunkPatch
  | _, _, [] => []
  | oldBefore, newBefore, h :: hunks =>
    let oldBefore := oldBefore + h.gap.length
    let newBefore := newBefore + h.gap.length
    let oldCount := (Edit.oldLines h.edits).length
    let newCount := (Edit.newLines h.edits).length
    { oldStart := startLine oldBefore oldCount, oldCount
      newStart := startLine newBefore newCount, newCount
      lines := h.edits.map Edit.marked } ::
      patchesFrom (oldBefore + oldCount) (newBefore + newCount) hunks

/-- The numbers the hunk headers start with. -/
def startsFrom (oldBefore newBefore : Nat) (hunks : List DiffHunk) : List Nat :=
  (patchesFrom oldBefore newBefore hunks).flatMap fun p => [p.oldStart, p.newStart]

/-- The lines of the hunks. -/
def lines (hunks : List DiffHunk) : List Text :=
  (sectionsFrom 0 0 hunks).flatMap fun s => s.1 :: s.2

/-- A removed line that is written as a `--- ` header. -/
def LooksLikeHeader (h : DiffHunk) : Prop :=
  ∃ e ∈ h.edits, e.side = .removed ∧ "-- ".toList <+: e.line

/-- Lines that are added where there is a line before them, which they are not copies of. -/
def AddsEarly (h : DiffHunk) : Prop :=
  Edit.oldLines h.edits = [] ∧ ∃ last ∈ h.gap.getLast?, ∃ line ∈ Edit.newLines h.edits, line ≠ last

end DiffHunk

/-- A text of that many lines, each ended. -/
def endedText (lines : List Text) : Text := lines.flatMap fun line => line ++ ['\n']

/-- A unified diff of one file; hunks do not touch. -/
structure FileDiff where
  oldName : Text
  newName : Text
  hunks : List DiffHunk
  rest : List Text
  apart : ∀ h ∈ hunks.tail, h.gap ≠ []

namespace FileDiff

variable (d : FileDiff)

/-- The text the diff is from. -/
def old : List Text := Piece.source (d.hunks.map DiffHunk.piece) d.rest

/-- The text it is to. -/
def new : List Text := Piece.target (d.hunks.map DiffHunk.piece) d.rest

def lines : List Text :=
  ("--- ".toList ++ d.oldName) :: ("+++ ".toList ++ d.newName) :: DiffHunk.lines d.hunks

/-- The diff as it is written. -/
def text : Text := endedText d.lines

/-- No line of the diff is one that `splitlines` breaks. -/
def Readable : Prop := ∀ line ∈ d.lines, ∀ c ∈ line, isLineBreak c = false

/-- The diff is read as a patch of one file, and takes the old text to the new one. -/
def Applies (root : Path) : Prop :=
  ∃ patch, parseFilePatches root d.text = .ok [patch] ∧
    applyHunks d.old patch.hunks = .ok d.new

end FileDiff

/-- Lines without a line break, as a test that computes. -/
theorem unbroken_of_all {lines : List Text}
    (h : lines.all (fun line => line.all fun c => !isLineBreak c) = true) :
    ∀ line ∈ lines, ∀ c ∈ line, isLineBreak c = false := by
  intro line hline c hc
  have hall := List.all_eq_true.mp (List.all_eq_true.mp h line hline) c hc
  simpa using hall

/-! ## Reading it back -/

section Lines

/-- Lines that are ended are read back. -/
theorem splitlines_append {line : Text} (h : ∀ c ∈ line, isLineBreak c = false) (s : Text) :
    ∀ acc : Text, splitlinesFrom acc (line ++ '\n' :: s) =
      (acc.reverse ++ line) :: splitlinesFrom [] s := by
  induction line with
  | nil =>
    intro acc
    rw [List.nil_append, splitlinesFrom_cons (by decide), if_pos (by decide), List.append_nil]
  | cons c line ih =>
    intro acc
    have hc := h c List.mem_cons_self
    have hcr : c ≠ '\r' := fun e => by rw [e] at hc; exact absurd hc (by decide)
    rw [List.cons_append, splitlinesFrom_cons hcr, if_neg (by rw [hc]; exact Bool.false_ne_true),
      ih (fun c hc => h c (List.mem_cons_of_mem _ hc))]
    simp

theorem splitlines_endedText : ∀ {lines : List Text},
    (∀ line ∈ lines, ∀ c ∈ line, isLineBreak c = false) → splitlines (endedText lines) = lines
  | [], _ => rfl
  | line :: lines, h => by
    have hrest := splitlines_endedText fun l hl => h l (List.mem_cons_of_mem _ hl)
    unfold splitlines endedText at hrest ⊢
    rw [List.flatMap_cons, List.append_assoc, List.singleton_append,
      splitlines_append (h line List.mem_cons_self), hrest]
    rfl

variable {α : Type} {starts : α → Bool}

/-- A list that is cut already. -/
theorem sections_marked {pre : List α} {secs : List (α × List α)}
    (hpre : ∀ a ∈ pre, starts a = false)
    (hsecs : ∀ s ∈ secs, starts s.1 = true ∧ ∀ a ∈ s.2, starts a = false) :
    sections starts (pre ++ secs.flatMap fun s => s.1 :: s.2) = (pre, secs) := by
  induction pre with
  | cons a pre ih =>
    rw [List.cons_append, sections, ih fun b hb => hpre b (List.mem_cons_of_mem _ hb)]
    dsimp only
    rw [hpre a List.mem_cons_self, if_neg Bool.false_ne_true]
  | nil =>
    induction secs with
    | nil => rfl
    | cons s secs ih =>
      obtain ⟨hmark, hbody⟩ := hsecs s List.mem_cons_self
      have hrest := ih fun t ht => hsecs t (List.mem_cons_of_mem _ ht)
      have hbodies : ∀ body : List α, (∀ a ∈ body, starts a = false) →
          sections starts (body ++ secs.flatMap fun s => s.1 :: s.2) = (body, secs) := by
        intro body hbody
        induction body with
        | nil => exact hrest
        | cons a body ihb =>
          rw [List.cons_append, sections, ihb fun b hb => hbody b (List.mem_cons_of_mem _ hb)]
          dsimp only
          rw [hbody a List.mem_cons_self, if_neg Bool.false_ne_true]
      rw [List.nil_append, List.flatMap_cons, List.cons_append, sections, hbodies s.2 hbody]
      dsimp only
      rw [if_pos hmark]

/-- There are as many sections as marks. -/
theorem sections_length (l : List α) : (sections starts l).2.length = l.countP starts := by
  induction l with
  | nil => rfl
  | cons a l ih =>
    rw [sections]
    dsimp only
    by_cases h : starts a = true
    · rw [if_pos h, List.countP_cons_of_pos h, List.length_cons, ih]
    · rw [if_neg h, List.countP_cons_of_neg h, ih]

/-- A diff is parsed as the sections of its lines are. -/
theorem parseFilePatches_lines {root : Path} {diffText : Text} {patches : List FilePatch} :
    parseFilePatches root diffText = .ok patches ↔
      (sections isFileMark (splitlines diffText)).2.mapM (parseFilePatch root) = .ok patches ∧
        patches ≠ [] := by
  unfold parseFilePatches
  by_cases hblank : isBlank diffText = true
  · -- then no line is a file header
    have hno : (sections isFileMark (splitlines diffText)).2 = [] := by
      rw [← List.length_eq_zero_iff, sections_length, List.countP_eq_zero]
      intro line hline hmark
      obtain ⟨rest, rfl⟩ := List.isPrefixOf_iff_prefix.mp hmark
      have hdash := List.all_eq_true.mp hblank '-' ((infix_of_mem_splitlines hline).subset
        (List.mem_append_left _ (by decide)))
      exact absurd hdash (by decide)
    rw [if_pos hblank, hno]
    exact iff_of_false nofun fun h => h.2 (Except.ok.inj h.1).symm
  · rw [if_neg hblank, result_bind_ok]
    constructor
    · intro hsome
      obtain ⟨r, hr, h⟩ := hsome
      split at h
      · cases h
      next hne =>
        cases h
        exact ⟨hr, hne⟩
    · intro hsome
      obtain ⟨hr, hne⟩ := hsome
      exact ⟨patches, hr, if_neg hne⟩

theorem mapM_ok_length {α β ε : Type} {f : α → Except ε β} {l : List α} {r : List β}
    (h : l.mapM f = .ok r) : r.length = l.length := by
  induction l generalizing r with
  | nil =>
    cases h
    rfl
  | cons a l ih =>
    obtain ⟨b, r', _, hrest, rfl⟩ := mapM_cons_ok h
    rw [List.length_cons, List.length_cons, ih hrest]

end Lines

section Digits

theorem digitValue_of_isDigit {c : Char} (h : c.isDigit = true) :
    digitValue c = some (c.toNat - '0'.toNat) := by
  have hle : 48 ≤ c.toNat ∧ c.toNat ≤ 57 := by
    simp only [Char.isDigit, Bool.and_eq_true, decide_eq_true_eq] at h
    exact ⟨h.1, h.2⟩
  unfold digitValue digitZeros
  rw [List.findSome?_cons]
  have hin : (decide (0x30 ≤ c.toNat) && decide (c.toNat < 0x30 + 10)) = true := by
    rw [Bool.and_eq_true, decide_eq_true_eq, decide_eq_true_eq]
    omega
  rw [if_pos hin]
  rfl

theorem isDigit_of_mem {n : Nat} {c : Char} (h : c ∈ Nat.toDigits 10 n) : c.isDigit = true :=
  Nat.isDigit_of_mem_toDigits (by omega) (by omega) h

theorem isDigit_toDigits {n : Nat} : ∀ c ∈ Nat.toDigits 10 n, isDigit c = true := by
  intro c hc
  unfold isDigit
  rw [digitValue_of_isDigit (isDigit_of_mem hc)]
  rfl

/-- A number that is written is read back. -/
theorem digitsValue_toDigits (n : Nat) : digitsValue (Nat.toDigits 10 n) = n := by
  have hfold : ∀ (s : Text) (k : Nat), (∀ c ∈ s, c.isDigit = true) →
      s.foldl (fun n c => n * 10 + (digitValue c).getD 0) k = Nat.ofDigitChars 10 s k := by
    intro s
    induction s with
    | nil => exact fun _ _ => rfl
    | cons c s ih =>
      intro k hs
      rw [List.foldl_cons, ih _ fun c hc => hs c (List.mem_cons_of_mem _ hc),
        digitValue_of_isDigit (hs c List.mem_cons_self), Nat.mul_comm]
      rfl
  unfold digitsValue
  rw [hfold _ _ fun c hc => isDigit_of_mem hc, Nat.ofDigitChars_ten_toDigits]

/-- A number that can be read: as many digits as `int` takes. -/
def Countable (n : Nat) : Prop := (Nat.toDigits 10 n).length ≤ maxIntDigits

theorem intOf_toDigits {n : Nat} : intOf (Nat.toDigits 10 n) = .ok n ↔ Countable n := by
  unfold intOf Countable
  split
  next h =>
    rw [digitsValue_toDigits]
    exact iff_of_true rfl h
  next h => exact iff_of_false nofun h

theorem intOf_toDigits_error {n : Nat} (h : ¬ Countable n) :
    ∃ e, intOf (Nat.toDigits 10 n) = .error e := by
  unfold intOf
  rw [if_neg (show ¬ (Nat.toDigits 10 n).length ≤ maxIntDigits from h)]
  exact ⟨_, rfl⟩

theorem takeWhile_toDigits {n : Nat} {s : Text} (hs : ∀ c ∈ s.head?, isDigit c = false) :
    (Nat.toDigits 10 n ++ s).takeWhile isDigit = Nat.toDigits 10 n ∧
      (Nat.toDigits 10 n ++ s).dropWhile isDigit = s := by
  have htake : s.takeWhile isDigit = [] := by
    cases s with
    | nil => rfl
    | cons c s => exact List.takeWhile_cons_of_neg (by rw [hs c rfl]; exact Bool.false_ne_true)
  have hdrop : s.dropWhile isDigit = s := by
    cases s with
    | nil => rfl
    | cons c s => exact List.dropWhile_cons_of_neg (by rw [hs c rfl]; exact Bool.false_ne_true)
  rw [List.takeWhile_append_of_pos isDigit_toDigits, List.dropWhile_append_of_pos isDigit_toDigits,
    htake, hdrop, List.append_nil]
  exact ⟨rfl, rfl⟩

/-- A range of a header is read back, whatever comes after the blank. -/
theorem headerRange_range (before count : Nat) (s : Text) :
    headerRange (DiffHunk.range before count ++ ' ' :: s) =
      some (Nat.toDigits 10 (DiffHunk.startLine before count), ' ' :: s) := by
  have hblank : ∀ c ∈ (' ' :: s).head?, isDigit c = false := by
    intro c hc
    cases hc
    decide
  unfold DiffHunk.range headerRange
  dsimp only
  split
  next hone =>
    rw [List.append_nil, (takeWhile_toDigits hblank).1, (takeWhile_toDigits hblank).2,
      if_neg Nat.toDigits_ne_nil]
    rfl
  next hother =>
    have hcomma : ∀ c ∈ (',' :: (Nat.toDigits 10 count ++ ' ' :: s)).head?, isDigit c = false := by
      intro c hc
      cases hc
      decide
    rw [List.append_assoc, List.cons_append, (takeWhile_toDigits hcomma).1,
      (takeWhile_toDigits hcomma).2, if_neg Nat.toDigits_ne_nil]
    show (if _ = [] then none else some _) = _
    rw [(takeWhile_toDigits hblank).1, (takeWhile_toDigits hblank).2, if_neg Nat.toDigits_ne_nil]

theorem stripPrefix_append (pre s : Text) : stripPrefix? pre (pre ++ s) = some s := by
  unfold stripPrefix?
  rw [if_pos (List.isPrefixOf_iff_prefix.mpr (List.prefix_append _ _)), List.drop_left]

/-- A hunk header is read back. -/
theorem hunkHeader_header (h : DiffHunk) (oldBefore newBefore : Nat) :
    hunkHeader (h.header oldBefore newBefore) =
      some (Nat.toDigits 10 (DiffHunk.startLine oldBefore (Edit.oldLines h.edits).length),
        Nat.toDigits 10 (DiffHunk.startLine newBefore (Edit.newLines h.edits).length)) := by
  have hend : (if h.heading = [] then [] else ' ' :: h.heading) = [] ∨
      (if h.heading = [] then [] else ' ' :: h.heading : Text).head? = some ' ' := by
    split
    · exact Or.inl rfl
    · exact Or.inr rfl
  unfold hunkHeader DiffHunk.header
  rw [stripPrefix_append, Option.bind_eq_bind, Option.bind_some]
  have hplus : " +".toList = [' ', '+'] := rfl
  have hclose : " @@".toList = [' ', '@', '@'] := rfl
  rw [hplus, List.cons_append, headerRange_range, Option.bind_eq_bind, Option.bind_some]
  dsimp only
  rw [← List.cons_append, ← hplus, stripPrefix_append, Option.bind_some, hclose, List.cons_append,
    headerRange_range]
  dsimp only [Option.bind_some]
  rw [← List.cons_append, ← hclose, stripPrefix_append]
  dsimp only [Option.bind_some]
  rw [if_pos hend]

end Digits

section Hunks

namespace Edit

theorem lines_cases {e : Edit} {line : Text} (h : line ∈ e.lines) :
    line = e.marked ∨ line = noNewline := by
  unfold lines at h
  split at h
  · simpa using h
  · exact Or.inl (List.mem_singleton.mp h)

theorem marked_mem_lines (e : Edit) : e.marked ∈ e.lines := by
  unfold lines
  split
  · exact List.mem_cons_self
  · exact List.mem_cons_self

theorem marker_marked (e : Edit) : marker e.marked = e.side.mark := rfl

/-- Of the lines of a hunk only a removed one can be taken for a file header. -/
theorem isFileMark_marked {e : Edit} :
    isFileMark e.marked = true ↔ e.side = .removed ∧ "-- ".toList <+: e.line := by
  unfold isFileMark
  rw [List.isPrefixOf_iff_prefix]
  show '-' :: "-- ".toList <+: e.side.mark :: e.line ↔ _
  rw [List.cons_prefix_cons]
  cases e.side with
  | removed => exact and_congr_left fun _ => iff_of_true rfl rfl
  | context => exact and_congr_left fun _ => iff_of_false (by decide) nofun
  | added => exact and_congr_left fun _ => iff_of_false (by decide) nofun

theorem isHunkMark_marked (e : Edit) : isHunkMark e.marked = false := by
  unfold isHunkMark marked
  cases e.side with
  | removed => rfl
  | context => rfl
  | added => rfl

theorem length_oldLines (edits : List Edit) :
    (edits.map marked).countP (fun l => marker l = ' ' ∨ marker l = '-') =
      (oldLines edits).length := by
  unfold oldLines
  rw [List.countP_map, List.length_map, List.countP_eq_length_filter]
  refine congrArg List.length (List.filter_congr fun e _ => ?_)
  rw [Function.comp_apply, marker_marked]
  cases e.side with
  | removed => rfl
  | context => rfl
  | added => rfl

theorem length_newLines (edits : List Edit) :
    (edits.map marked).countP (fun l => marker l = ' ' ∨ marker l = '+') =
      (newLines edits).length := by
  unfold newLines
  rw [List.countP_map, List.length_map, List.countP_eq_length_filter]
  refine congrArg List.length (List.filter_congr fun e _ => ?_)
  rw [Function.comp_apply, marker_marked]
  cases e.side with
  | removed => rfl
  | context => rfl
  | added => rfl

end Edit

/-- The lines of a hunk are read back, without the notes. -/
theorem hunkLines_lines (edits : List Edit) :
    hunkLines (edits.flatMap Edit.lines) = .ok (edits.map Edit.marked) := by
  induction edits with
  | nil => rfl
  | cons e edits ih =>
    have hmarked : ∀ rest, hunkLines (e.marked :: rest) = (hunkLines rest).map (e.marked :: ·) := by
      intro rest
      rw [hunkLines, Edit.marker_marked]
      cases e.side with
      | removed => rfl
      | context => rfl
      | added => rfl
    have hnote : ∀ rest, hunkLines (Edit.noNewline :: rest) = hunkLines rest := fun rest => by
      rw [hunkLines]
      exact if_pos rfl
    rw [List.flatMap_cons, Edit.lines]
    split
    · rw [List.cons_append, List.singleton_append, hmarked, hnote, ih]
      rfl
    · rw [List.singleton_append, hmarked, ih]
      rfl

/-- **A hunk is read** when its two numbers are. -/
theorem parseHunk_header {h : DiffHunk} {oldBefore newBefore : Nat} {body : List Text}
    {edits : List Edit} (hbody : hunkLines body = .ok (edits.map Edit.marked)) {p : HunkPatch} :
    parseHunk (h.header oldBefore newBefore) body = .ok p ↔
      (Countable (DiffHunk.startLine oldBefore (Edit.oldLines h.edits).length) ∧
        Countable (DiffHunk.startLine newBefore (Edit.newLines h.edits).length)) ∧
      p = { oldStart := DiffHunk.startLine oldBefore (Edit.oldLines h.edits).length
            oldCount := (Edit.oldLines edits).length
            newStart := DiffHunk.startLine newBefore (Edit.newLines h.edits).length
            newCount := (Edit.newLines edits).length
            lines := edits.map Edit.marked } := by
  unfold parseHunk
  rw [hunkHeader_header, hbody]
  dsimp only [bind, Except.bind]
  rw [Edit.length_oldLines, Edit.length_newLines]
  by_cases hold : Countable (DiffHunk.startLine oldBefore (Edit.oldLines h.edits).length)
  · rw [intOf_toDigits.mpr hold]
    by_cases hnew : Countable (DiffHunk.startLine newBefore (Edit.newLines h.edits).length)
    · rw [intOf_toDigits.mpr hnew, and_iff_right ⟨hold, hnew⟩]
      exact ⟨fun he => (Except.ok.inj he).symm, fun he => congrArg Except.ok he.symm⟩
    · obtain ⟨e, he⟩ := intOf_toDigits_error hnew
      rw [he]
      exact iff_of_false nofun fun h => hnew h.1.2
  · obtain ⟨e, he⟩ := intOf_toDigits_error hold
    rw [he]
    exact iff_of_false nofun fun h => hold h.1.1

theorem parseHunks_ok {hunks : List DiffHunk} : ∀ {oldBefore newBefore : Nat}
    {patches : List HunkPatch},
    (DiffHunk.sectionsFrom oldBefore newBefore hunks).mapM
        (fun s : Text × List Text => parseHunk s.1 s.2) = .ok patches ↔
      (∀ n ∈ DiffHunk.startsFrom oldBefore newBefore hunks, Countable n) ∧
      patches = DiffHunk.patchesFrom oldBefore newBefore hunks := by
  induction hunks with
  | nil =>
    intro oldBefore newBefore patches
    exact ⟨fun h => ⟨nofun, (Except.ok.inj h).symm⟩, fun h => congrArg Except.ok h.2.symm⟩
  | cons h hunks ih =>
    intro oldBefore newBefore patches
    rw [DiffHunk.sectionsFrom, List.mapM_cons]
    dsimp only
    rw [result_bind_ok]
    unfold DiffHunk.startsFrom DiffHunk.patchesFrom
    simp only [List.flatMap_cons, List.mem_append, List.mem_cons, List.not_mem_nil, or_false]
    constructor
    · intro hsome
      obtain ⟨p, hp, hrest⟩ := hsome
      obtain ⟨⟨hold, hnew⟩, rfl⟩ := (parseHunk_header (hunkLines_lines _)).mp hp
      obtain ⟨rest, hrest, hpatches⟩ := result_bind_ok.mp hrest
      obtain ⟨hstarts, rfl⟩ := ih.mp hrest
      refine ⟨?_, (Except.ok.inj hpatches).symm⟩
      intro n hcase
      rcases hcase with (rfl | rfl) | hn
      · exact hold
      · exact hnew
      · exact hstarts n hn
    · intro hsome
      obtain ⟨hstarts, rfl⟩ := hsome
      refine ⟨_, (parseHunk_header (hunkLines_lines _)).mpr ⟨⟨hstarts _ (Or.inl (Or.inl rfl)),
        hstarts _ (Or.inl (Or.inr rfl))⟩, rfl⟩, ?_⟩
      exact result_bind_ok.mpr ⟨_, ih.mpr ⟨fun n hn => hstarts n (Or.inr hn), rfl⟩, rfl⟩

end Hunks

section File

variable {hunks : List DiffHunk}

theorem mem_sectionsFrom : ∀ {hunks : List DiffHunk} {oldBefore newBefore : Nat}
    {s : Text × List Text}, s ∈ DiffHunk.sectionsFrom oldBefore newBefore hunks →
    ∃ h ∈ hunks, (∃ a b, s.1 = h.header a b) ∧ s.2 = h.edits.flatMap Edit.lines
  | h :: hunks, oldBefore, newBefore, s, hs => by
    rw [DiffHunk.sectionsFrom] at hs
    rcases List.mem_cons.mp hs with rfl | hs
    · exact ⟨h, List.mem_cons_self, ⟨_, _, rfl⟩, rfl⟩
    · obtain ⟨h', hh', hheader, hbody⟩ := mem_sectionsFrom hs
      exact ⟨h', List.mem_cons_of_mem _ hh', hheader, hbody⟩

/-- Each section of hunks starts with a hunk mark and has no other. -/
theorem sectionsFrom_marks {oldBefore newBefore : Nat} : ∀ s ∈
    DiffHunk.sectionsFrom oldBefore newBefore hunks,
      isHunkMark s.1 = true ∧ ∀ line ∈ s.2, isHunkMark line = false := by
  intro s hs
  obtain ⟨h, _, ⟨a, b, hheader⟩, hbody⟩ := mem_sectionsFrom hs
  constructor
  · rw [hheader]
    rfl
  · intro line hline
    rw [hbody] at hline
    obtain ⟨e, _, hline⟩ := List.mem_flatMap.mp hline
    rcases Edit.lines_cases hline with rfl | rfl
    · exact Edit.isHunkMark_marked e
    · rfl

/-- The lines of hunks are file headers only where a removed line looks like one. -/
theorem lines_fileMark : (∃ line ∈ DiffHunk.lines hunks, isFileMark line = true) ↔
    ∃ h ∈ hunks, h.LooksLikeHeader := by
  constructor
  · intro hsome
    obtain ⟨line, hline, hmark⟩ := hsome
    obtain ⟨s, hs, hline⟩ := List.mem_flatMap.mp hline
    obtain ⟨h, hh, ⟨a, b, hheader⟩, hbody⟩ := mem_sectionsFrom hs
    rcases List.mem_cons.mp hline with rfl | hline
    · rw [hheader] at hmark
      exact absurd hmark Bool.false_ne_true
    · rw [hbody] at hline
      obtain ⟨e, he, hline⟩ := List.mem_flatMap.mp hline
      rcases Edit.lines_cases hline with rfl | rfl
      · exact ⟨h, hh, e, he, Edit.isFileMark_marked.mp hmark⟩
      · exact absurd hmark (by decide)
  · intro hsome
    obtain ⟨h, hh, e, he, hlooks⟩ := hsome
    suffices hsec : ∀ (hunks : List DiffHunk) (a b : Nat), h ∈ hunks →
        ∃ s ∈ DiffHunk.sectionsFrom a b hunks, s.2 = h.edits.flatMap Edit.lines by
      obtain ⟨s, hs, hbody⟩ := hsec hunks 0 0 hh
      refine ⟨e.marked, List.mem_flatMap.mpr ⟨s, hs, List.mem_cons_of_mem _ ?_⟩,
        Edit.isFileMark_marked.mpr hlooks⟩
      rw [hbody]
      exact List.mem_flatMap.mpr ⟨e, he, e.marked_mem_lines⟩
    intro hunks
    induction hunks with
    | nil => exact fun _ _ hin => absurd hin List.not_mem_nil
    | cons h' hunks ih =>
      intro a b hin
      rw [DiffHunk.sectionsFrom]
      rcases List.mem_cons.mp hin with rfl | hin
      · exact ⟨_, List.mem_cons_self, rfl⟩
      · obtain ⟨s, hs, hbody⟩ := ih _ _ hin
        exact ⟨s, List.mem_cons_of_mem _ hs, hbody⟩

theorem patchesFrom_eq_nil {oldBefore newBefore : Nat} :
    DiffHunk.patchesFrom oldBefore newBefore hunks = [] ↔ hunks = [] := by
  cases hunks with
  | nil => exact iff_of_true rfl rfl
  | cons h hunks => exact iff_of_false (List.cons_ne_nil _ _) (List.cons_ne_nil _ _)

/-- A file is read, if it has hunks, its paths pass and its hunks are read. -/
theorem parseFilePatch_sections {root : Path} {oldName newName : Text} {body : List Text}
    {secs : List (Text × List Text)} {hunks : List HunkPatch} {Read : Prop}
    (hcut : sections isHunkMark body = ([], secs))
    (hread : ∀ {patches : List HunkPatch},
      secs.mapM (fun s : Text × List Text => parseHunk s.1 s.2) = .ok patches ↔
        Read ∧ patches = hunks) {patch : FilePatch} :
    parseFilePatch root ("--- ".toList ++ oldName, ("+++ ".toList ++ newName) :: body)
        = .ok patch ↔
      (validatePatchPaths root (cleanHeaderPath oldName) (cleanHeaderPath newName) = .ok () ∧
        Read ∧ hunks ≠ []) ∧
      patch = ⟨cleanHeaderPath oldName, cleanHeaderPath newName, hunks⟩ := by
  have hplus : ¬ "+++ ".toList.isPrefixOf ("+++ ".toList ++ newName) = false := by
    rw [List.isPrefixOf_iff_prefix.mpr (List.prefix_append _ _)]
    exact Bool.noConfusion
  unfold parseFilePatch
  dsimp only
  rw [if_neg hplus, show ("--- ".toList ++ oldName).drop 4 = oldName from rfl,
    show ("+++ ".toList ++ newName).drop 4 = newName from rfl, result_bind_ok, hcut]
  dsimp only [List.find?_nil]
  constructor
  · intro hsome
    obtain ⟨_, hpaths, h⟩ := hsome
    obtain ⟨patches, hhunks, h⟩ := result_bind_ok.mp h
    obtain ⟨hstarts, rfl⟩ := hread.mp hhunks
    split at h
    · cases h
    next hne => exact ⟨⟨hpaths, hstarts, hne⟩, (Except.ok.inj h).symm⟩
  · intro hsome
    obtain ⟨⟨hpaths, hstarts, hne⟩, rfl⟩ := hsome
    exact ⟨(), hpaths, result_bind_ok.mpr ⟨_, hread.mpr ⟨hstarts, rfl⟩, if_neg hne⟩⟩

/-- **One file is read back**, if it has hunks, its paths pass and its numbers are read. -/
theorem parseFilePatch_lines {root : Path} {oldName newName : Text} {patch : FilePatch} :
    parseFilePatch root ("--- ".toList ++ oldName,
        ("+++ ".toList ++ newName) :: DiffHunk.lines hunks) = .ok patch ↔
      (validatePatchPaths root (cleanHeaderPath oldName) (cleanHeaderPath newName) = .ok () ∧
        (∀ n ∈ DiffHunk.startsFrom 0 0 hunks, Countable n) ∧ hunks ≠ []) ∧
      patch = ⟨cleanHeaderPath oldName, cleanHeaderPath newName,
        DiffHunk.patchesFrom 0 0 hunks⟩ := by
  have hcut : sections isHunkMark (DiffHunk.lines hunks) = ([], DiffHunk.sectionsFrom 0 0 hunks) :=
    @sections_marked _ isHunkMark [] _ (fun _ ha => absurd ha List.not_mem_nil) sectionsFrom_marks
  rw [parseFilePatch_sections hcut parseHunks_ok, Ne, patchesFrom_eq_nil]

/-- **A text is read as one patch** when no line in it looks like the header of another. -/
theorem parseFilePatches_one {root : Path} {diffText oldName newName : Text} {body : List Text}
    {Looks : Prop} (hlines : splitlines diffText = ("--- ".toList ++ oldName) ::
      ("+++ ".toList ++ newName) :: body)
    (hlooks : (∃ line ∈ body, isFileMark line = true) ↔ Looks) {patch : FilePatch} :
    parseFilePatches root diffText = .ok [patch] ↔ ¬ Looks ∧
      parseFilePatch root ("--- ".toList ++ oldName, ("+++ ".toList ++ newName) :: body)
        = .ok patch := by
  have hfirst : isFileMark ("--- ".toList ++ oldName) = true :=
    List.isPrefixOf_iff_prefix.mpr (List.prefix_append _ _)
  rw [parseFilePatches_lines, hlines]
  by_cases hno : Looks
  · refine iff_of_false ?_ fun h => h.1 hno
    intro hsome
    obtain ⟨hrun, _⟩ := hsome
    have hlen := mapM_ok_length hrun
    obtain ⟨line, hline, hmark⟩ := hlooks.mpr hno
    have hmore : 0 < body.countP isFileMark := List.countP_pos_iff.mpr ⟨line, hline, hmark⟩
    have hsecond : ¬ isFileMark ("+++ ".toList ++ newName) = true := Bool.false_ne_true
    rw [sections_length, List.countP_cons_of_pos hfirst, List.countP_cons_of_neg hsecond,
      List.length_singleton] at hlen
    omega
  · have hbody : ∀ line ∈ ("+++ ".toList ++ newName) :: body, isFileMark line = false := by
      intro line hline
      rcases List.mem_cons.mp hline with rfl | hline
      · rfl
      · rw [← Bool.not_eq_true]
        exact fun hmark => hno (hlooks.mp ⟨line, hline, hmark⟩)
    have hcut := @sections_marked _ isFileMark [] [("--- ".toList ++ oldName,
      ("+++ ".toList ++ newName) :: body)] (fun _ ha => absurd ha List.not_mem_nil) fun s hs => by
        rw [List.mem_singleton.mp hs]
        exact ⟨hfirst, hbody⟩
    rw [List.nil_append, List.flatMap_cons, List.flatMap_nil, List.append_nil] at hcut
    rw [hcut, and_iff_right hno]
    constructor
    · intro hsome
      obtain ⟨hrun, _⟩ := hsome
      obtain ⟨p, rest, hp, _, heq⟩ := mapM_cons_ok hrun
      cases heq
      exact hp
    · intro h
      refine ⟨?_, List.cons_ne_nil _ _⟩
      rw [List.mapM_cons, h]
      rfl

end File

end Shamsu.Patch
