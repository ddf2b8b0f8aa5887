import Shamsu.Llm.Salvagers
import Shamsu.Py.Strip

/-!
# The chunks of a source file

`shamsu/tools/hybrid_search.py`: `chunk_file` goes over the lines of a file with one chunk open.
A line that defines a symbol opens a new one, and so does the line after eighty. The chunk that
was open is kept when it has more than one line.

`chunkFile_faithful_iff`: the chunks have each line that is not blank, in one place and under
its own number, exactly when no such line that opens a chunk is directly followed by a
definition. Which lines open a chunk is said without the loop (`Opens`), and the loop agrees
with it (`Scanned`).
-/

namespace Shamsu.Tools

open Shamsu.Lib Shamsu.Py Shamsu.Llm.Salvagers

/-! ## Definition lines -/

/-- `[A-Za-z_][\w]*`. -/
def identifier (isWord : Char → Bool) : Text → Llm.Ways
  | [] => []
  | c :: s =>
    if isNameStart c then (greedy isWord s).map fun way => (c :: way.1, way.2) else []

/-- `\s+`. -/
def someSpace (s : Text) : Llm.Ways := (greedy isSpace s).filter fun way => !way.1.isEmpty

/-- One of several words. -/
def oneOf (keywords : List String) (s : Text) : Llm.Ways :=
  keywords.flatMap fun keyword => literal keyword.toList s

/-- `\b(?:…)\s+([A-Za-z_][\w]*)`. -/
def keywordName (isWord : Char → Bool) (keywords : List String) (before s : Text) : Matches Text :=
  if isBoundary isWord before s then
    (oneOf keywords s).flatMap fun keyword =>
      (someSpace keyword.2).flatMap fun space => identifier isWord space.2
  else []

/-- `(?:^|\s)`. -/
def startOrSpace (before : Text) : Text → Llm.Ways
  | [] => if before = [] then [([], [])] else []
  | c :: s =>
    (if before = [] then [([], c :: s)] else []) ++ if isSpace c then [([c], s)] else []

/-- `(?:async\s*)?`. -/
def maybeAsync (s : Text) : Llm.Ways :=
  ((literal "async".toList s).flatMap fun async => greedy isSpace async.2) ++ [([], s)]

/-- `(?:function|\([^)]*\)\s*=>)`. -/
def functionStart (s : Text) : Llm.Ways :=
  literal "function".toList s ++
    (literal ['('] s).flatMap fun opening =>
      (greedy (· != ')') opening.2).flatMap fun parameters =>
        (literal [')'] parameters.2).flatMap fun closing =>
          (greedy isSpace closing.2).flatMap fun a => literal "=>".toList a.2

/-- `(?:^|\s)(?:const|let|var)\s+([A-Za-z_][\w]*)\s*=\s*(?:async\s*)?`, then `functionStart`. -/
def assignedFunction (isWord : Char → Bool) (before s : Text) : Matches Text :=
  (startOrSpace before s).flatMap fun start =>
    (oneOf ["const", "let", "var"] start.2).flatMap fun keyword =>
      (someSpace keyword.2).flatMap fun space =>
        (identifier isWord space.2).flatMap fun name =>
          (greedy isSpace name.2).flatMap fun a =>
            (literal ['='] a.2).flatMap fun equals =>
              (greedy isSpace equals.2).flatMap fun b =>
                (maybeAsync b.2).flatMap fun async =>
                  (functionStart async.2).map fun function => (name.1, function.2)

/-- `(?:public|private|protected|static|async)\s+([A-Za-z_][\w]*)\s*\(`. -/
def modifiedName (isWord : Char → Bool) (_ s : Text) : Matches Text :=
  (oneOf ["public", "private", "protected", "static", "async"] s).flatMap fun keyword =>
    (someSpace keyword.2).flatMap fun space =>
      (identifier isWord space.2).flatMap fun name =>
        (greedy isSpace name.2).flatMap fun a =>
          (literal ['('] a.2).map fun opening => (name.1, opening.2)

/-- `_SYMBOL_PATTERNS`. -/
def symbolPatterns (isWord : Char → Bool) : List (Text → Text → Matches Text) :=
  [keywordName isWord ["function", "func", "fn", "def", "sub"],
    keywordName isWord ["class", "struct", "interface", "enum", "trait", "impl", "type"],
    assignedFunction isWord, modifiedName isWord]

/-- `pattern.search`, for a pattern that also sees what is before. -/
def searchWith (pattern : Text → Text → Matches Text) : Text → Text → Option Text
  | before, [] => (pattern before []).head?.map Prod.fst
  | before, c :: s =>
    match (pattern before (c :: s)).head? with
    | some (name, _) => some name
    | none => searchWith pattern (before ++ [c]) s

/-- `detect_symbol`. -/
def detectSymbol (isWord : Char → Bool) (line : Text) : Text :=
  ((symbolPatterns isWord).findSome? fun pattern => searchWith pattern [] line).getD []

/-! ## The loop -/

structure Chunk where
  path : Text
  startLine : Nat
  endLine : Nat
  symbol : Text
  code : Text
  deriving DecidableEq, Repr

/-- `MAX_CHUNK_LINES`. -/
def maxChunkLines : Nat := 80

/-- `current`: the chunk that is open. -/
structure Current where
  start : Nat
  symbol : Text
  lines : List Text
  deriving DecidableEq, Repr

/-- `flush`, of the chunk that is open. -/
def flush (path : Text) (current : Current) (chunks : List Chunk) : List Chunk :=
  let body := join '\n' current.lines
  if current.lines ≠ [] ∧ isBlank body = false then
    chunks ++ [⟨path, current.start, current.start + current.lines.length - 1, current.symbol, body⟩]
  else chunks

/-- The chunk that the next line goes to. -/
def openFor (path : Text) (symbol : Text) (index : Nat) :
    List Chunk × Option Current → List Chunk × Current
  | (chunks, none) => (chunks, ⟨index + 1, symbol, []⟩)
  | (chunks, some current) =>
    if symbol = [] then (chunks, current)
    else (if 1 < current.lines.length then flush path current chunks else chunks,
      ⟨index + 1, symbol, []⟩)

/-- One line of the loop. -/
def chunkLine (isWord : Char → Bool) (path : Text) (state : List Chunk × Option Current)
    (line : Text) (index : Nat) : List Chunk × Option Current :=
  let (chunks, current) := openFor path (detectSymbol isWord line) index state
  let current := { current with lines := current.lines ++ [line] }
  if maxChunkLines ≤ current.lines.length then
    (flush path current chunks, some ⟨index + 2, [], []⟩)
  else (chunks, some current)

def chunkLines (isWord : Char → Bool) (path : Text) :
    List Chunk × Option Current → Nat → List Text → List Chunk × Option Current
  | state, _, [] => state
  | state, index, line :: lines =>
    chunkLines isWord path (chunkLine isWord path state line index) (index + 1) lines

/-- `chunk_file`. -/
def chunkFile (isWord : Char → Bool) (path content : Text) : List Chunk :=
  match chunkLines isWord path ([], none) 0 (splitlines content) with
  | (chunks, some current) => flush path current chunks
  | (chunks, none) => chunks

/-! ## Which lines open a chunk -/

section Opens

variable (isWord : Char → Bool) (lines : List Text)

/-- Line `i` defines a symbol. -/
def Defines (i : Nat) : Prop := ∃ line ∈ lines[i]?, detectSymbol isWord line ≠ []

/-- Line `i` is a whole number of chunks behind line `d`, which is the first line or a
definition, and no other definition is between. -/
def Behind (d k i : Nat) : Prop :=
  i = d + maxChunkLines * k ∧ (d = 0 ∨ Defines isWord lines d)

/-- Line `i` opens a chunk. -/
def Opens (i : Nat) : Prop :=
  ∃ d k, Behind isWord lines d k i ∧ ∀ j, d < j → j ≤ i → ¬ Defines isWord lines j

/-- Line `i` opens a chunk, and the next line another one. -/
def Replaced (i : Nat) : Prop := Opens isWord lines i ∧ Defines isWord lines (i + 1)

variable {isWord lines}

/-- Between two lines that open a chunk there is a definition or a whole chunk. -/
theorem not_opens {d k b n i : Nat} (hb : Behind isWord lines d k b)
    (hnone : ∀ j, d < j → j < n → ¬ Defines isWord lines j) (hbi : b < i) (hin : i < n)
    (hlen : n ≤ b + maxChunkLines) : ¬ Opens isWord lines i := by
  intro hopens
  obtain ⟨d', k', ⟨hi, hd'⟩, hnone'⟩ := hopens
  obtain ⟨hbd, hd⟩ := hb
  have hdd : d = d' := by
    rcases Nat.lt_trichotomy d d' with hlt | heq | hgt
    · rcases hd' with h | h
      · omega
      · exact absurd h (hnone d' hlt (by omega))
    · exact heq
    · rcases hd with h | h
      · omega
      · exact absurd h (hnone' d hgt (by omega))
  unfold maxChunkLines at *
  omega

end Opens

/-! ## What the chunks hold -/

/-- Line `i` is in the range of the chunk. -/
def Chunk.Has (chunk : Chunk) (i : Nat) : Prop := chunk.startLine ≤ i + 1 ∧ i + 1 ≤ chunk.endLine

/-- The range is one of the first `n` lines, and the code is these lines. -/
structure Chunk.Exact (lines : List Text) (n : Nat) (chunk : Chunk) : Prop where
  first : 1 ≤ chunk.startLine
  range : chunk.startLine ≤ chunk.endLine
  last : chunk.endLine ≤ n
  code : chunk.code =
    join '\n' ((lines.drop (chunk.startLine - 1)).take (chunk.endLine + 1 - chunk.startLine))

/-- The chunks are in order and one behind the other, their code is the lines of their ranges,
each line that is not blank is in one of them, and its text is found there. -/
structure Faithful (lines : List Text) (chunks : List Chunk) : Prop where
  increasing : chunks.Pairwise fun a b => a.endLine < b.startLine
  exact : ∀ chunk ∈ chunks, chunk.Exact lines lines.length
  once : ∀ i, ∀ line ∈ lines[i]?, isBlank line = false → ∃! chunk, chunk ∈ chunks ∧ chunk.Has i
  found : ∀ line ∈ lines, isBlank line = false → ∃ chunk ∈ chunks, line <:+: chunk.code

/-- What the chunks of the first `b` lines hold: each line but those that were replaced. -/
structure Covered (isWord : Char → Bool) (lines : List Text) (b : Nat) (chunks : List Chunk) :
    Prop where
  increasing : chunks.Pairwise fun a b => a.endLine < b.startLine
  exact : ∀ chunk ∈ chunks, chunk.Exact lines b
  has : ∀ i < b, ∀ line ∈ lines[i]?, isBlank line = false →
    ((∃ chunk ∈ chunks, chunk.Has i) ↔ ¬ Replaced isWord lines i)

/-- The loop before line `n`, with a chunk open from line `b`. -/
structure Scanned (isWord : Char → Bool) (lines : List Text) (n b : Nat) (current : Current)
    (chunks : List Chunk) : Prop where
  start : current.start = b + 1
  begun : b ≤ n
  size : n ≤ b + maxChunkLines
  bound : n ≤ lines.length
  exact : current.lines = (lines.drop b).take (n - b)
  opened : ∃ d k, Behind isWord lines d k b ∧ ∀ j, d < j → j < n → ¬ Defines isWord lines j
  covered : Covered isWord lines b chunks

/-- A line is in no two chunks of a list that increases. -/
theorem unique_chunk {chunks : List Chunk}
    (hincreasing : chunks.Pairwise fun a b => a.endLine < b.startLine) {a b : Chunk} {i : Nat}
    (ha : a ∈ chunks) (hb : b ∈ chunks) (hai : a.Has i) (hbi : b.Has i) : a = b := by
  obtain ⟨hfirst, hlast⟩ := hai
  obtain ⟨hfirst', hlast'⟩ := hbi
  induction hincreasing with
  | nil => cases ha
  | cons hbehind _ ih =>
    rcases List.mem_cons.mp ha with rfl | ha' <;> rcases List.mem_cons.mp hb with rfl | hb'
    · rfl
    · have := hbehind b hb'
      omega
    · have := hbehind a ha'
      omega
    · exact ih ha' hb'

/-- The text of a line of the range stands in the code. -/
theorem Chunk.Exact.infix_code {lines : List Text} {n : Nat} {chunk : Chunk}
    (h : chunk.Exact lines n) {i : Nat} {line : Text} (hline : line ∈ lines[i]?)
    (hhas : chunk.Has i) : line <:+: chunk.code := by
  obtain ⟨hfirst, hlast⟩ := hhas
  rw [h.code]
  refine mem_join (List.mem_iff_getElem?.mpr ⟨i + 1 - chunk.startLine, ?_⟩)
  have hpos := h.first
  rw [List.getElem?_take_of_lt (by omega), List.getElem?_drop,
    show chunk.startLine - 1 + (i + 1 - chunk.startLine) = i by omega]
  exact hline

section Loop

variable {isWord : Char → Bool} {path : Text} {lines : List Text} {n b : Nat} {current : Current}
  {chunks : List Chunk}

theorem Scanned.length_lines (h : Scanned isWord lines n b current chunks) :
    current.lines.length = n - b := by
  have hbound := h.bound
  rw [h.exact, List.length_take, List.length_drop]
  omega

/-- A line that the open chunk has is one of its lines. -/
theorem Scanned.mem_lines (h : Scanned isWord lines n b current chunks) {i : Nat} (hbi : b ≤ i)
    (hin : i < n) {line : Text} (hline : line ∈ lines[i]?) : line ∈ current.lines := by
  refine List.mem_iff_getElem?.mpr ⟨i - b, ?_⟩
  rw [h.exact, List.getElem?_take_of_lt (by omega), List.getElem?_drop, Nat.add_sub_cancel' hbi]
  exact hline

/-- A line of the open chunk was replaced only if it is the one line of it. -/
theorem Scanned.replaced_iff (h : Scanned isWord lines n b current chunks) {i : Nat} (hbi : b ≤ i)
    (hin : i < n) : Replaced isWord lines i ↔ n = b + 1 ∧ Defines isWord lines n := by
  obtain ⟨d, k, hbehind, hnone⟩ := h.opened
  have hbd : d ≤ b := by
    have := hbehind.1
    omega
  constructor
  · intro hreplaced
    have heq : i = b := by
      by_contra hne
      exact not_opens hbehind hnone (by omega) hin h.size hreplaced.1
    subst heq
    have hn : n = i + 1 := by
      by_contra hne
      exact hnone (i + 1) (by omega) (by omega) hreplaced.2
    exact ⟨hn, hn ▸ hreplaced.2⟩
  · intro hdefines
    obtain ⟨hn, hdef⟩ := hdefines
    have heq : i = b := by omega
    subst heq
    exact ⟨⟨d, k, hbehind, fun j hdj hji => hnone j hdj (by omega)⟩, hn ▸ hdef⟩

/-- Lines that no chunk has, since they are behind all chunks. -/
theorem Covered.not_has (h : Covered isWord lines b chunks) {i : Nat} (hbi : b ≤ i) :
    ¬ ∃ chunk ∈ chunks, chunk.Has i := by
  intro hsome
  obtain ⟨chunk, hmem, -, hend⟩ := hsome
  have := (h.exact chunk hmem).last
  omega

/-- A chunk that another line replaces was that one line. -/
theorem Scanned.drop (h : Scanned isWord lines n b current chunks) (hshort : n ≤ b + 1)
    (hdef : Defines isWord lines n) : Covered isWord lines n chunks where
  increasing := h.covered.increasing
  exact chunk hmem :=
    have hexact := h.covered.exact chunk hmem
    { hexact with last := hexact.last.trans h.begun }
  has i hin line hline hblank := by
    rcases Nat.lt_or_ge i b with hib | hbi
    · exact h.covered.has i hib line hline hblank
    · refine iff_of_false (h.covered.not_has hbi) (not_not_intro ?_)
      exact (h.replaced_iff hbi hin).mpr ⟨by omega, hdef⟩

/-- A chunk that is kept has all its lines. -/
theorem Scanned.flush (path : Text) (h : Scanned isWord lines n b current chunks)
    (hkept : ¬ (n = b + 1 ∧ Defines isWord lines n)) :
    Covered isWord lines n (flush path current chunks) := by
  have hlen := h.length_lines
  have hbegun := h.begun
  have hstart := h.start
  unfold Tools.flush
  dsimp only
  split
  next hsome =>
    obtain ⟨hne, -⟩ := hsome
    have hpos : 0 < current.lines.length := List.length_pos_of_ne_nil hne
    refine ⟨?_, ?_, ?_⟩
    · refine List.pairwise_append.mpr ⟨h.covered.increasing, List.pairwise_singleton _ _, ?_⟩
      intro chunk hmem new hnew
      rw [List.mem_singleton.mp hnew]
      show chunk.endLine < current.start
      have := (h.covered.exact chunk hmem).last
      omega
    · intro chunk hmem
      rcases List.mem_append.mp hmem with hmem | hnew
      · have hexact := h.covered.exact chunk hmem
        exact { hexact with last := hexact.last.trans hbegun }
      · rw [List.mem_singleton.mp hnew]
        refine ⟨?_, ?_, ?_, ?_⟩
        · show 1 ≤ current.start
          omega
        · show current.start ≤ current.start + current.lines.length - 1
          omega
        · show current.start + current.lines.length - 1 ≤ n
          omega
        · show join '\n' current.lines = join '\n' ((lines.drop (current.start - 1)).take
            (current.start + current.lines.length - 1 + 1 - current.start))
          rw [show current.start + current.lines.length - 1 + 1 - current.start = n - b by omega,
            show current.start - 1 = b by omega, ← h.exact]
    · intro i hin line hline hblank
      rcases Nat.lt_or_ge i b with hib | hbi
      · rw [← h.covered.has i hib line hline hblank]
        constructor
        · intro hsome
          obtain ⟨chunk, hmem, hhas⟩ := hsome
          rcases List.mem_append.mp hmem with hmem | hnew
          · exact ⟨chunk, hmem, hhas⟩
          · rw [List.mem_singleton.mp hnew] at hhas
            have : current.start ≤ i + 1 := hhas.1
            omega
        · intro hsome
          obtain ⟨chunk, hmem, hhas⟩ := hsome
          exact ⟨chunk, List.mem_append_left _ hmem, hhas⟩
      · refine iff_of_true ⟨_, List.mem_append_right _ (List.mem_singleton_self _), ?_, ?_⟩
          (fun hreplaced => hkept ((h.replaced_iff hbi hin).mp hreplaced))
        · show current.start ≤ i + 1
          omega
        · show i + 1 ≤ current.start + current.lines.length - 1
          omega
  next hnone =>
    -- a chunk that is not emitted has blank lines only
    refine ⟨h.covered.increasing, ?_, ?_⟩
    · intro chunk hmem
      have hexact := h.covered.exact chunk hmem
      exact { hexact with last := hexact.last.trans hbegun }
    · intro i hin line hline hblank
      rcases Nat.lt_or_ge i b with hib | hbi
      · exact h.covered.has i hib line hline hblank
      · have hmem := h.mem_lines hbi hin hline
        refine absurd ⟨List.ne_nil_of_mem hmem, Bool.eq_false_iff.mpr fun hall => ?_⟩ hnone
        rw [(isBlank_join _).mp hall line hmem] at hblank
        cases hblank

/-- With no chunk open a line opens one, as behind a whole chunk. -/
theorem openFor_none (symbol : Text) : openFor path symbol n (chunks, none) =
    openFor path symbol n (chunks, some ⟨n + 1, [], []⟩) := by
  by_cases hsymbol : symbol = []
  · subst hsymbol
    rfl
  · show (chunks, _) = if symbol = [] then _ else (if 1 < 0 then _ else chunks, _)
    rw [if_neg hsymbol, if_neg (Nat.not_lt_zero 1)]

/-- The chunk that line `n` goes to, with what is known of the lines up to this one. -/
theorem Scanned.openFor (path : Text) (h : Scanned isWord lines n b current chunks) (hsize : n < b + maxChunkLines)
    {line : Text} (hline : line ∈ lines[n]?) :
    ∃ b', Scanned isWord lines n b' (openFor path (detectSymbol isWord line) n (chunks, some current)).2
        (openFor path (detectSymbol isWord line) n (chunks, some current)).1 ∧
      n < b' + maxChunkLines ∧
      ∃ d k, Behind isWord lines d k b' ∧ ∀ j, d < j → j < n + 1 → ¬ Defines isWord lines j := by
  have hlen := h.length_lines
  have hbegun := h.begun
  unfold Tools.openFor
  dsimp only
  split
  next hsymbol =>
    have hnot : ¬ Defines isWord lines n := by
      intro hdef
      obtain ⟨line', hline', hne⟩ := hdef
      rw [Option.mem_unique hline' hline] at hne
      exact hne hsymbol
    obtain ⟨d, k, hbehind, hnone⟩ := h.opened
    refine ⟨b, h, hsize, d, k, hbehind, fun j hdj hjn => ?_⟩
    rcases Nat.lt_or_ge j n with hlt | hge
    · exact hnone j hdj hlt
    · rw [show j = n by omega]
      exact hnot
  next hsymbol =>
    have hdef : Defines isWord lines n := ⟨line, hline, hsymbol⟩
    have hbehind : Behind isWord lines n 0 n := ⟨rfl, .inr hdef⟩
    refine ⟨n, ?_, by unfold maxChunkLines; omega, n, 0, hbehind, fun j hnj hjn => by omega⟩
    refine ⟨rfl, Nat.le_refl n, Nat.le_add_right _ _, h.bound, ?_,
      ⟨n, 0, hbehind, fun j hnj hjn => by omega⟩, ?_⟩
    · rw [Nat.sub_self, List.take_zero]
    · by_cases hmore : 1 < current.lines.length
      · rw [if_pos hmore]
        exact h.flush path fun hone => by omega
      · rw [if_neg hmore]
        exact h.drop (by omega) hdef

/-- What the loop keeps. -/
def Scanning (isWord : Char → Bool) (lines : List Text) (n : Nat)
    (state : List Chunk × Option Current) : Prop :=
  ∃ b, n < b + maxChunkLines ∧
    Scanned isWord lines n b (state.2.getD ⟨n + 1, [], []⟩) state.1

theorem scanning_start (isWord : Char → Bool) (lines : List Text) :
    Scanning isWord lines 0 ([], none) := by
  refine ⟨0, by decide, rfl, Nat.le_refl 0, Nat.zero_le _, Nat.zero_le _, rfl,
    ⟨0, 0, ⟨rfl, .inl rfl⟩, fun j hj hj' => absurd hj' (Nat.not_lt_zero j)⟩, .nil, nofun,
    fun i hi => absurd hi (Nat.not_lt_zero i)⟩

/-- **One line of the loop keeps it.** -/
theorem Scanning.step (path : Text) {state : List Chunk × Option Current} (h : Scanning isWord lines n state)
    {line : Text} (hline : line ∈ lines[n]?) :
    Scanning isWord lines (n + 1) (chunkLine isWord path state line n) := by
  obtain ⟨chunks, current?⟩ := state
  obtain ⟨b, hsize, hscanned⟩ := h
  have hstate : openFor path (detectSymbol isWord line) n (chunks, current?) =
      openFor path (detectSymbol isWord line) n
        (chunks, some (current?.getD ⟨n + 1, [], []⟩)) := by
    cases current? with
    | none => exact openFor_none _
    | some current => rfl
  obtain ⟨b', hopen, hsize', d, k, hbehind, hnone⟩ := hscanned.openFor path hsize hline
  obtain ⟨hlt, -⟩ := List.getElem?_eq_some_iff.mp hline
  unfold chunkLine
  rw [hstate]
  dsimp only
  generalize Tools.openFor path (detectSymbol isWord line) n _ = opened at hopen
  obtain ⟨chunks', current'⟩ := opened
  dsimp only at hopen ⊢
  have hbegun := hopen.begun
  have hpushed : Scanned isWord lines (n + 1) b'
      { current' with lines := current'.lines ++ [line] } chunks' := by
    refine ⟨hopen.start, by omega, by omega, hlt, ?_, ⟨d, k, hbehind, hnone⟩, hopen.covered⟩
    have hdrop : (lines.drop b')[n - b']? = some line := by
      rw [List.getElem?_drop, Nat.add_sub_cancel' hbegun]
      exact hline
    show current'.lines ++ [line] = (lines.drop b').take (n + 1 - b')
    rw [hopen.exact, Nat.sub_add_comm hbegun, List.take_add_one, hdrop]
    rfl
  have hlength : (current'.lines ++ [line]).length = n + 1 - b' := hpushed.length_lines
  split
  next hfull =>
    have hfull' : n + 1 = b' + maxChunkLines := by
      unfold maxChunkLines at *
      omega
    refine ⟨n + 1, by unfold maxChunkLines; omega, rfl, Nat.le_refl _, Nat.le_add_right _ _, hlt,
      ?_, ⟨d, k + 1, ⟨?_, hbehind.2⟩, hnone⟩, ?_⟩
    · rw [Nat.sub_self, List.take_zero]
      rfl
    · rw [hfull', hbehind.1, Nat.mul_add, Nat.mul_one, Nat.add_assoc]
    · exact hpushed.flush path fun hone => by unfold maxChunkLines at hfull'; omega
  next hmore =>
    exact ⟨b', by omega, hpushed⟩

/-- **The whole loop keeps it.** -/
theorem Scanning.run (path : Text) {rest : List Text} {state : List Chunk × Option Current}
    (h : Scanning isWord lines n state) (hrest : lines.drop n = rest) :
    Scanning isWord lines lines.length (chunkLines isWord path state n rest) := by
  induction rest generalizing n state with
  | nil =>
    have hlen := List.drop_eq_nil_iff.mp hrest
    obtain ⟨b, hsize, hscanned⟩ := h
    have hn : n = lines.length := Nat.le_antisymm hscanned.bound hlen
    subst hn
    exact ⟨b, hsize, hscanned⟩
  | cons line rest ih =>
    have hline : lines[n]? = some line := by
      rw [← List.head?_drop, hrest]
      rfl
    refine ih (h.step path hline) ?_
    rw [← List.drop_drop, hrest]
    rfl

end Loop

/-- The chunks of a file have each line but those that were replaced. -/
theorem chunkFile_covered (isWord : Char → Bool) (path content : Text) :
    Covered isWord (splitlines content) (splitlines content).length
      (chunkFile isWord path content) := by
  have hscanning := (scanning_start isWord (splitlines content)).run path List.drop_zero
  unfold chunkFile
  generalize chunkLines isWord path ([], none) 0 (splitlines content) = state at hscanning
  obtain ⟨chunks, current?⟩ := state
  obtain ⟨b, -, hscanned⟩ := hscanning
  have hend : ¬ Defines isWord (splitlines content) (splitlines content).length := by
    intro hdef
    obtain ⟨line, hline, -⟩ := hdef
    rw [List.getElem?_eq_none (Nat.le_refl _)] at hline
    cases hline
  have hflush := hscanned.flush path fun hone => hend hone.2
  cases current? with
  | some current => exact hflush
  | none => exact hflush

/-- **The chunks of a file are faithful to it**, for every text, exactly when no line that is
not blank and opens a chunk is directly followed by a definition. -/
theorem chunkFile_faithful_iff (isWord : Char → Bool) (path content : Text) :
    Faithful (splitlines content) (chunkFile isWord path content) ↔
      ∀ i, ∀ line ∈ (splitlines content)[i]?, isBlank line = false →
        Opens isWord (splitlines content) i → ¬ Defines isWord (splitlines content) (i + 1) := by
  have hcovered := chunkFile_covered isWord path content
  generalize chunkFile isWord path content = chunks at hcovered ⊢
  generalize splitlines content = lines at hcovered ⊢
  constructor
  · intro hfaithful i line hline hblank hopens hdef
    obtain ⟨hlt, -⟩ := List.getElem?_eq_some_iff.mp hline
    obtain ⟨chunk, hchunk, -⟩ := hfaithful.once i line hline hblank
    exact (hcovered.has i hlt line hline hblank).mp ⟨chunk, hchunk⟩ ⟨hopens, hdef⟩
  · intro hnever
    have hsome : ∀ i, ∀ line ∈ lines[i]?, isBlank line = false → ∃ chunk ∈ chunks, chunk.Has i := by
      intro i line hline hblank
      obtain ⟨hlt, -⟩ := List.getElem?_eq_some_iff.mp hline
      exact (hcovered.has i hlt line hline hblank).mpr fun hreplaced =>
        hnever i line hline hblank hreplaced.1 hreplaced.2
    refine ⟨hcovered.increasing, hcovered.exact, ?_, ?_⟩
    · intro i line hline hblank
      obtain ⟨chunk, hmem, hhas⟩ := hsome i line hline hblank
      exact ⟨chunk, ⟨hmem, hhas⟩, fun other hother =>
        unique_chunk hcovered.increasing hother.1 hmem hother.2 hhas⟩
    · intro line hmem hblank
      obtain ⟨i, hline⟩ := List.mem_iff_getElem?.mp hmem
      obtain ⟨chunk, hchunk, hhas⟩ := hsome i line hline hblank
      exact ⟨chunk, hchunk, (hcovered.exact chunk hchunk).infix_code hline hhas⟩

/-- The first of two lines, each a definition, is in no chunk. -/
theorem chunkFile_drops_line : ¬ ∀ (isWord : Char → Bool) (path content : Text),
    Faithful (splitlines content) (chunkFile isWord path content) := by
  intro hall
  have hfaithful := hall (fun c => c.isAlphanum || c == '_') "a.py".toList
    "class A:\n    def f(self):\n        pass\n".toList
  obtain ⟨chunk, ⟨hmem, hfirst, -⟩, -⟩ :=
    hfaithful.once 0 "class A:".toList (by decide) (by decide)
  have hchunks : ∀ chunk ∈ chunkFile (fun c => c.isAlphanum || c == '_') "a.py".toList
      "class A:\n    def f(self):\n        pass\n".toList, 2 ≤ chunk.startLine := by decide
  have := hchunks chunk hmem
  omega

end Shamsu.Tools
