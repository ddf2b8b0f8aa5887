import Shamsu.Context.Budget
import Shamsu.Llm.Output
import Shamsu.Py.Strip
import Shamsu.Retriever.Documents

/-!
# Cutting a document into chunks

`shamsu/retriever/documents.py`: `_chunk_lines` goes over the lines of a document with a window
of lines. A heading ends the window and names the section of the next; a line that is over the
limit of tokens comes in parts (`_split_long_line`); a part of another page, or one for which
there is no room, has the window written as a chunk first, and in the second case the last lines
of it stay in the window.

`chunkLines_eq_run`: the loop is a run over headings and parts. `tokens_at_most_iff`: the chunks
are within the limit exactly when each part fits where the code does not count (`Fits`): at the
opening of a window, behind the lines that stay in it, and where the window begins with white
space.
-/

namespace Shamsu.Retriever.Chunking

open Shamsu.Lib Shamsu.Py Shamsu.Context

/-- `_SourceLine`. -/
structure SourceLine where
  text : Text
  line : Nat
  page : Option Nat
  deriving DecidableEq, Repr

structure DocumentChunk where
  id : Text
  documentId : Text
  documentName : Text
  source : Text
  ordinal : Nat
  text : Text
  tokenCount : Nat
  sectionName : Text
  page : Option Nat
  lineStart : Nat
  lineEnd : Nat
  deriving DecidableEq, Repr

/-- `MAX_CHUNK_TOKENS`. -/
def maxChunkTokens : Nat := 360

/-- `CHUNK_OVERLAP_TOKENS`. -/
def chunkOverlapTokens : Nat := 45

/-! ## Headings -/

/-- The ways that take a number of characters between `least` and `most`. -/
def between (least most : Nat) (ways : Llm.Ways) : Llm.Ways :=
  ways.filter fun way => decide (least ≤ way.1.length ∧ way.1.length ≤ most)

/-- `$`. -/
def atEnd (s : Text) : Bool := s == [] || s == ['\n']

/-- `_MARKDOWN_HEADING_RE`: the group. -/
def markdownHeading (s : Text) : Option Text :=
  ((between 0 3 (greedy isSpace s)).flatMap fun indent =>
    (between 1 6 (greedy (· == '#') indent.2)).flatMap fun marks =>
      ((greedy isSpace marks.2).filter fun way => !way.1.isEmpty).flatMap fun space =>
        ((lazily Llm.isLineChar space.2).filter fun way => !way.1.isEmpty).flatMap fun title =>
          (greedy isSpace title.2).flatMap fun a =>
            (greedy (· == '#') a.2).flatMap fun closing =>
              ((greedy isSpace closing.2).filter fun b => atEnd b.2).map fun _ => title.1).head?

/-- `\d+`: what it leaves. -/
def afterDigits (s : Text) : List Text :=
  ((greedy isDigit s).filter fun way => !way.1.isEmpty).map Prod.snd

/-- `(?:\.\d+)*`: what it leaves. -/
def afterNumbers : Nat → Text → List Text
  | 0, s => [s]
  | fuel + 1, s =>
    (((literal ['.'] s).flatMap fun dot => afterDigits dot.2).flatMap (afterNumbers fuel)) ++ [s]

/-- `[^.!?]`. -/
def inTitle (c : Char) : Bool := c != '.' && c != '!' && c != '?'

/-- `NUMBERED_HEADING_RE`. -/
def isNumberedHeading (s : Text) : Bool :=
  ((afterDigits s).flatMap (afterNumbers s.length)).any fun numbered =>
    ((literal ['.'] numbered).map Prod.snd ++ [numbered]).any fun dotted =>
      ((greedy isSpace dotted).filter fun way => !way.1.isEmpty).any fun space =>
        match space.2 with
        | c :: title => c.isUpper && (between 1 100 (greedy inTitle title)).any fun way => atEnd way.2
        | [] => false

/-- `_heading_text`. -/
def headingText (text : Text) : Text :=
  match markdownHeading text with
  | some title => strip title
  | none => if isNumberedHeading text then strip text else []

/-! ## Long lines -/

/-- `_SENTENCE_RE.split`: `skip` is what the separator still takes, `before` the character
before, `sentence` the one that is being read, reversed. -/
def sentencesFrom (skip : Char → Bool) (before : Option Char) (sentence : Text) :
    Text → List Text
  | [] => [sentence.reverse]
  | c :: s =>
    if skip c then sentencesFrom skip (some c) sentence s
    else if before.any (['.', '!', '?'].contains ·) && isSpace c then
      sentence.reverse :: sentencesFrom isSpace (some c) [] s
    else if c = '\n' then sentence.reverse :: sentencesFrom (· == '\n') (some c) [] s
    else sentencesFrom (fun _ => false) (some c) (c :: sentence) s

def sentences (s : Text) : List Text := sentencesFrom (fun _ => false) none [] s

/-- `sentence[offset : offset + char_limit]` for each offset. -/
def slices (size : Nat) : Nat → Text → List Text
  | 0, _ => []
  | fuel + 1, s => if s = [] then [] else s.take size :: slices size fuel (s.drop size)

section Loop

variable (countTokens : Text → Nat)

/-- One sentence: the parts so far, and `current`. -/
def addSentence (acc : List Text × Text) (sentence : Text) : List Text × Text :=
  let sentence := strip sentence
  if sentence = [] then acc
  else
    let (parts, current) :=
      if acc.2 ≠ [] ∧ maxChunkTokens < countTokens (acc.2 ++ ' ' :: sentence) then
        (acc.1 ++ [acc.2], [])
      else acc
    if maxChunkTokens < countTokens sentence then
      (parts ++ ((slices (maxChunkTokens * 4) sentence.length sentence).map strip).filter
        (fun part => part ≠ []), current)
    else (parts, strip (current ++ ' ' :: sentence))

/-- The texts of `_split_long_line`. -/
def longLineTexts (text : Text) : List Text :=
  let (parts, current) := (sentences text).foldl (addSentence countTokens) ([], [])
  if current = [] then parts else parts ++ [current]

/-- `_split_long_line`. -/
def splitLongLine (line : SourceLine) : List SourceLine :=
  if countTokens line.text ≤ maxChunkTokens then [line]
  else (longLineTexts countTokens line.text).map fun text => ⟨text, line.line, line.page⟩

/-! ## The loop -/

/-- The document that is cut. -/
structure Document where
  id : Text
  name : Text
  source : Text
  deriving DecidableEq, Repr

structure State where
  chunks : List DocumentChunk
  sectionName : Text
  window : List SourceLine
  windowSection : Text

/-- `"\n".join(item.text for item in window)`. -/
def windowText (window : List SourceLine) : Text := join '\n' (window.map SourceLine.text)

/-- The page of a chunk: the one that the lines with a page have. -/
def pageOf (window : List SourceLine) : Option Nat :=
  match (window.filterMap SourceLine.page).dedup with
  | [page] => some page
  | _ => none

/-- The chunk that `flush` makes of a window. -/
def chunkOf (document : Document) (sectionName : Text) (ordinal : Nat) (window : List SourceLine) :
    DocumentChunk :=
  let text := strip (windowText window)
  { id := chunkId document.id ordinal
    documentId := document.id
    documentName := document.name
    source := document.source
    ordinal := ordinal
    text := text
    tokenCount := countTokens text
    sectionName := sectionName
    page := pageOf window
    lineStart := ((window.map SourceLine.line).min?).getD 0
    lineEnd := ((window.map SourceLine.line).max?).getD 0 }

/-- The lines that stay, from the reversed window. -/
def overlapFrom : List SourceLine → List SourceLine → Nat → List SourceLine
  | [], overlap, _ => overlap
  | item :: before, overlap, tokens =>
    let itemTokens := countTokens item.text
    if overlap ≠ [] ∧ chunkOverlapTokens < tokens + itemTokens then overlap
    else overlapFrom before (item :: overlap) (tokens + itemTokens)

def overlapOf (window : List SourceLine) : List SourceLine :=
  overlapFrom countTokens window.reverse [] 0

/-- The chunks after `flush`. -/
def flushed (document : Document) (s : State) : List DocumentChunk :=
  if strip (windowText s.window) = [] then s.chunks
  else s.chunks ++ [chunkOf countTokens document s.windowSection (s.chunks.length + 1) s.window]

/-- `flush`. An empty window has no text. -/
def flush (document : Document) (s : State) : State :=
  { s with chunks := flushed countTokens document s, window := overlapOf countTokens s.window }

/-- `flush()` and `window = []`. -/
def clear (document : Document) (s : State) : State :=
  { s with chunks := flushed countTokens document s, window := [] }

/-- The part is on another page than the window. -/
def otherPage (s : State) (item : SourceLine) : Bool :=
  match s.window with
  | first :: _ => first.page != item.page && item.page.isSome
  | [] => false

/-- The window, and there is no room in it for the part. -/
def noRoom (s : State) (item : SourceLine) : Bool :=
  !s.window.isEmpty && maxChunkTokens < countTokens (windowText (s.window ++ [item]))

/-- The state for the page of the part. -/
def turned (document : Document) (s : State) (item : SourceLine) : State :=
  if otherPage s item then clear countTokens document s else s

/-- The state that the part is added to. -/
def roomFor (document : Document) (s : State) (item : SourceLine) : State :=
  let s := turned countTokens document s item
  if noRoom countTokens s item then flush countTokens document s else s

/-- One part in the loop over `expanded`. -/
def addItem (document : Document) (s : State) (item : SourceLine) : State :=
  let s := roomFor countTokens document s item
  { s with
    windowSection := if s.window = [] then s.sectionName else s.windowSection
    window := s.window ++ [item] }

def addHeading (document : Document) (s : State) (heading : Text) : State :=
  { clear countTokens document s with sectionName := heading, windowSection := heading }

/-- One line in the loop of `_chunk_lines`. -/
def addLine (document : Document) (s : State) (line : SourceLine) : State :=
  let text := strip line.text
  if text = [] then s
  else
    let heading := headingText text
    if heading ≠ [] then addHeading countTokens document s heading
    else (splitLongLine countTokens line).foldl (addItem countTokens document) s

def start : State := ⟨[], [], [], []⟩

/-- `_chunk_lines`. -/
def chunkLines (document : Document) (lines : List SourceLine) : List DocumentChunk :=
  flushed countTokens document (lines.foldl (addLine countTokens document) start)

/-! ## The loop as a run -/

inductive Action where
  | heading (text : Text)
  | item (item : SourceLine)
  deriving DecidableEq, Repr

def step (document : Document) (s : State) : Action → State
  | .heading text => addHeading countTokens document s text
  | .item item => addItem countTokens document s item

/-- What a line does. -/
def actionsOf (line : SourceLine) : List Action :=
  let text := strip line.text
  if text = [] then []
  else if headingText text ≠ [] then [.heading (headingText text)]
  else (splitLongLine countTokens line).map .item

end Loop

variable {countTokens : Text → Nat} {document : Document} {s : State} {item : SourceLine}

theorem run_items (s : State) (items : List SourceLine) :
    run (step countTokens document) s (items.map .item) =
      items.foldl (addItem countTokens document) s := by
  induction items generalizing s with
  | nil => rfl
  | cons item items ih => exact ih (addItem countTokens document s item)

theorem addLine_eq_run (s : State) (line : SourceLine) :
    addLine countTokens document s line =
      run (step countTokens document) s (actionsOf countTokens line) := by
  unfold addLine actionsOf
  dsimp only
  split
  · rfl
  · split
    · rfl
    · exact (run_items s _).symm

/-- **The loop is a run** over the headings and the parts of the lines. -/
theorem chunkLines_eq_run (lines : List SourceLine) : chunkLines countTokens document lines =
    flushed countTokens document
      (run (step countTokens document) start (lines.flatMap (actionsOf countTokens))) := by
  unfold chunkLines
  congr 1
  generalize start = s
  induction lines generalizing s with
  | nil => rfl
  | cons line lines ih =>
    rw [List.foldl_cons, List.flatMap_cons, run_append, ← addLine_eq_run]
    exact ih _

/-! ## Tokens -/

/-- The text of the window, as it would be written, is within the limit. -/
def WindowFits (countTokens : Text → Nat) (window : List SourceLine) : Prop :=
  strip (windowText window) ≠ [] → countTokens (strip (windowText window)) ≤ maxChunkTokens

/-- The part opens a window, or comes behind lines that stay in it, or the window begins with
white space: what the code counts is not what is written. -/
def Uncounted (countTokens : Text → Nat) (document : Document) (s : State) (item : SourceLine) :
    Prop :=
  let s := turned countTokens document s item
  s.window = [] ∨ noRoom countTokens s item = true ∨
    (windowText (s.window ++ [item])).head?.any isSpace = true

/-- A part that is uncounted is within the limit, with the lines that are in its window. -/
def Fits (countTokens : Text → Nat) (document : Document) (s : State) : Action → Prop
  | .heading _ => True
  | .item item => Uncounted countTokens document s item →
      WindowFits countTokens ((roomFor countTokens document s item).window ++ [item])

instance (window : List SourceLine) : Decidable (WindowFits countTokens window) :=
  inferInstanceAs (Decidable (_ ≠ _ → _ ≤ _))

instance : Decidable (Uncounted countTokens document s item) :=
  inferInstanceAs (Decidable (_ = _ ∨ _ = _ ∨ _ = _))

instance (a : Action) : Decidable (Fits countTokens document s a) :=
  match a with
  | .heading _ => .isTrue trivial
  | .item item => inferInstanceAs (Decidable (Uncounted countTokens document s item → _))

/-- The chunks that are written and the window are within the limit. -/
def Within (countTokens : Text → Nat) (s : State) : Prop :=
  (∀ chunk ∈ s.chunks, chunk.tokenCount ≤ maxChunkTokens) ∧ WindowFits countTokens s.window

theorem windowText_concat {window : List SourceLine} (h : window ≠ []) (item : SourceLine) :
    windowText (window ++ [item]) = windowText window ++ '\n' :: item.text := by
  unfold windowText
  rw [List.map_append, List.map_singleton]
  induction window with
  | nil => exact absurd rfl h
  | cons first window ih =>
    cases window with
    | nil =>
      show join '\n' [first.text, item.text] = join '\n' [first.text] ++ _
      rw [join_cons_cons, join_singleton, join_singleton]
    | cons next window =>
      have hmore := ih (List.cons_ne_nil _ _)
      rw [List.map_cons, List.cons_append] at hmore ⊢
      show join '\n' (first.text :: next.text :: _) =
        join '\n' (first.text :: next.text :: _) ++ _
      rw [join_cons_cons, join_cons_cons, List.append_assoc, List.cons_append]
      exact congrArg (fun rest => first.text ++ '\n' :: rest) hmore

/-- A text that begins with no white space is stripped at its end alone. -/
theorem strip_of_head {x : Text} (h : x.head?.any isSpace = false) : strip x <+: x := by
  have hl : lstrip x = x := by
    cases x with
    | nil => rfl
    | cons c x => exact List.dropWhile_cons_of_neg (by rw [show isSpace c = false from h]; decide)
  rw [strip_eq_rstrip_lstrip, hl]
  exact List.rdropWhile_prefix _ _

theorem flushed_within {s : State} :
    (∀ chunk ∈ flushed countTokens document s, chunk.tokenCount ≤ maxChunkTokens) ↔
      Within countTokens s := by
  unfold flushed Within WindowFits
  split
  next hblank => exact ⟨fun h => ⟨h, fun hne => absurd hblank hne⟩, And.left⟩
  next hne =>
    rw [List.forall_mem_append, List.forall_mem_singleton]
    exact and_congr_right fun _ => ⟨fun h _ => h, fun h => h hne⟩

theorem clear_within {s : State} :
    Within countTokens (clear countTokens document s) ↔ Within countTokens s :=
  ⟨fun h => flushed_within.mp h.1, fun h => ⟨flushed_within.mpr h, fun hne => absurd rfl hne⟩⟩

theorem turned_within (document : Document) (s : State) (item : SourceLine) :
    Within countTokens (turned countTokens document s item) ↔ Within countTokens s := by
  unfold turned
  split
  · exact clear_within
  · exact Iff.rfl

/-- **A part keeps the chunks within the limit** exactly when it fits where nothing is counted. -/
theorem addItem_within (hmono : MonotoneOnPrefixes countTokens) :
    Within countTokens (addItem countTokens document s item) ↔
      Within countTokens s ∧ Fits countTokens document s (.item item) := by
  rw [← turned_within document s item]
  unfold Fits Uncounted addItem roomFor
  dsimp only
  generalize turned countTokens document s item = s
  by_cases hroom : noRoom countTokens s item = true
  · -- the window is written, and the part comes behind the lines that stay
    rw [if_pos hroom]
    show (∀ chunk ∈ flushed countTokens document s, _) ∧ _ ↔ _
    rw [flushed_within]
    exact and_congr_right fun _ => ⟨fun h _ => h, fun h => h (.inr (.inl hroom))⟩
  · rw [if_neg hroom]
    show (∀ chunk ∈ s.chunks, _) ∧ WindowFits countTokens (s.window ++ [item]) ↔ (_ ∧ _) ∧ _
    rw [and_assoc]
    refine and_congr_right fun _ => ?_
    by_cases hempty : s.window = []
    · rw [hempty]
      exact ⟨fun h => ⟨fun hne => absurd rfl hne, fun _ => h⟩, fun h => h.2 (.inl rfl)⟩
    · constructor
      · intro h
        refine ⟨fun hne => ?_, fun _ => h⟩
        have hprefix : windowText s.window <+: windowText (s.window ++ [item]) := by
          rw [windowText_concat hempty]
          exact List.prefix_append _ _
        have hstrip := strip_prefix hprefix hne
        refine (hmono _ _ hstrip).trans (h fun hnil => hne ?_)
        rw [hnil] at hstrip
        exact List.prefix_nil.mp hstrip
      · intro hboth
        obtain ⟨-, hfits⟩ := hboth
        by_cases hspace : (windowText (s.window ++ [item])).head?.any isSpace = true
        · exact hfits (.inr (.inr hspace))
        · -- the code has counted the text of the window with the part
          intro _
          refine (hmono _ _ (strip_of_head (Bool.eq_false_iff.mpr hspace))).trans ?_
          by_contra hmore
          refine hroom ?_
          unfold noRoom
          rw [Bool.and_eq_true, Bool.not_eq_true', List.isEmpty_eq_false_iff, decide_eq_true_eq]
          exact ⟨hempty, Nat.lt_of_not_le hmore⟩

theorem step_within (hmono : MonotoneOnPrefixes countTokens) (s : State) (a : Action) :
    Within countTokens (step countTokens document s a) ↔
      Within countTokens s ∧ Fits countTokens document s a := by
  cases a with
  | heading text => exact clear_within.trans (and_iff_left trivial).symm
  | item item => exact addItem_within hmono

/-- **The chunks are within the limit**, for every document and every counter that counts no
less for a longer text, exactly when each part fits where nothing is counted. -/
theorem tokens_at_most_iff (countTokens : Text → Nat) (hmono : MonotoneOnPrefixes countTokens)
    (document : Document) (lines : List SourceLine) :
    (∀ chunk ∈ chunkLines countTokens document lines, chunk.tokenCount ≤ maxChunkTokens) ↔
      Along (step countTokens document) (Fits countTokens document) start
        (lines.flatMap (actionsOf countTokens)) := by
  rw [chunkLines_eq_run, flushed_within, run_invariant_iff (step_within hmono)]
  exact and_iff_right ⟨nofun, fun hne => absurd rfl hne⟩

/-- Two lines of three hundred tokens: the first stays in the window with the second. -/
theorem tokens_exceed_limit : ¬ ∀ (countTokens : Text → Nat) (document : Document)
    (lines : List SourceLine), MonotoneOnPrefixes countTokens →
    ∀ chunk ∈ chunkLines countTokens document lines, chunk.tokenCount ≤ maxChunkTokens := by
  intro hall
  have hwithin := hall estimatedTokens ⟨"doc-a".toList, "a.md".toList, "a.md".toList⟩
    [⟨List.replicate 1200 'x', 1, none⟩, ⟨List.replicate 1200 'y', 2, none⟩]
    monotone_estimatedTokens
  exact absurd hwithin (by decide +kernel)

/-- Two short lines are one chunk. -/
theorem tokens_at_most_short :
    (chunkLines estimatedTokens ⟨"doc-a".toList, "a.md".toList, "a.md".toList⟩
      [⟨"one line".toList, 1, none⟩, ⟨"and another".toList, 2, none⟩]).length = 1 ∧
    ∀ chunk ∈ chunkLines estimatedTokens ⟨"doc-a".toList, "a.md".toList, "a.md".toList⟩
      [⟨"one line".toList, 1, none⟩, ⟨"and another".toList, 2, none⟩],
    chunk.tokenCount ≤ maxChunkTokens :=
  ⟨by decide, (tokens_at_most_iff estimatedTokens monotone_estimatedTokens _ _).mpr (by decide)⟩

end Shamsu.Retriever.Chunking
