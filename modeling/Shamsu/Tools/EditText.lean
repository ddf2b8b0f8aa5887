import Shamsu.Py.Search
import Shamsu.Tools.Resolve

/-!
# Where an edit goes

`shamsu/tools/agent_tools.py`: how `edit_file` finds the text it replaces. It looks for
`old_string` as it is, then with its escapes decoded, and then for a block of whole lines
that differ from it in white space only. A block that was found so is searched for once
more, as a text, and the replacement goes where that search finds it.

`replaceIn_place` says what is replaced: an occurrence of what was asked for, or the block,
if its text is in the file nowhere else.
-/

namespace Shamsu.Tools

open Shamsu.Py

/-! ## The repairs -/

/-- The text after some of it, where a literal escape counts unless it is escaped. -/
def decodeEscapes (escaped : Bool) : Text → Text
  | [] => []
  | '\\' :: c :: s =>
    if escaped then '\\' :: decodeEscapes true (c :: s)
    else if c = 'n' then '\n' :: decodeEscapes false s
    else if c = 'r' then '\r' :: decodeEscapes false s
    else if c = 't' then '\t' :: decodeEscapes false s
    else '\\' :: decodeEscapes true (c :: s)
  | c :: s => c :: decodeEscapes (c == '\\') s

/-- `_decode_literal_escapes`. -/
def decodeLiteralEscapes (text : Text) : Text := decodeEscapes false text

/-- `text.split("\n")`. -/
def lines (text : Text) : List Text := text.splitOn '\n'

/-- `content.count(sub)`. -/
def occurrences (sub content : Text) : Nat :=
  if sub = [] then content.length + 1 else count sub content

/-- `content.replace(old, new)`. -/
def replaceEvery (old new content : Text) : Text :=
  if old = [] then new ++ content.flatMap fun c => c :: new else replace old new content

/-- The block of lines that are those of `old` but for what `f` strips, if there is one
alone. -/
def matchBlock (f : Text → Text) (content old : Text) : Option Text :=
  let fileLines := lines content
  let span := (lines old).length
  let starts := (List.range (fileLines.length + 1 - span)).filter fun start =>
    ((fileLines.drop start).take span).map f == (lines old).map f
  match starts with
  | [start] => some (join '\n' ((fileLines.drop start).take span))
  | _ => none

/-- `_fuzzy_match_block`. -/
def fuzzyMatchBlock (content old : Text) : Option Text :=
  if old = [] then none else matchBlock rstrip content old

/-- `MIN_INDENT_FUZZ_LINES`. -/
def minIndentFuzzLines : Nat := 3

/-- `_indent_shifted_match_block`. -/
def indentShiftedMatchBlock (content old : Text) : Option Text :=
  if old = [] then none
  else if (lines old).length < minIndentFuzzLines then none
  else matchBlock strip content old

/-- `_indent_of`. -/
def indentOf (line : Text) : Nat := line.length - (lstrip line).length

/-- `_outdented`. -/
def outdented (line : Text) (delta : Int) : Text :=
  if 0 < delta then line.drop (min delta.toNat (indentOf line))
  else List.replicate (-delta).toNat ' ' ++ line

/-- The loop of `_realign_replacement`. -/
def realignLines (deltas : Text → Option Int) : Int → List Text → List Text
  | _, [] => []
  | carried, line :: rest =>
    if strip line = [] then line :: realignLines deltas carried rest
    else
      let carried := (deltas (strip line)).getD carried
      outdented line carried :: realignLines deltas carried rest

/-- `_realign_replacement`. -/
def realignReplacement (old matched new : Text) : Text :=
  let pairs := (lines old).zip (lines matched)
  let deltas (key : Text) : Option Int :=
    (pairs.find? fun p => strip p.1 == key).map fun p => (indentOf p.1 : Int) - indentOf p.2
  join '\n' (realignLines deltas 0 (lines new))

/-- One round of the repairs: what is searched for and put in its place. The replacement is
decoded with the text. -/
def repairWith (content old new : Text) (candidate : Text) : Option (Text × Text) :=
  let decodedNew := if candidate = decodeLiteralEscapes old then decodeLiteralEscapes new else new
  match (fuzzyMatchBlock content candidate).filter fun block => block != new with
  | some block => some (block, decodedNew)
  | none =>
    match indentShiftedMatchBlock content candidate with
    | none => none
    | some matched =>
      let replacement := realignReplacement candidate matched decodedNew
      if matched = replacement then none else some (matched, replacement)

/-- The repairs by lines, of the text as it was sent and then decoded. -/
def repair (content old new : Text) : Option (Text × Text) :=
  let decoded := decodeLiteralEscapes old
  (if decoded = old then [old] else [old, decoded]).findSome? (repairWith content old new)

/-- What is searched for in the end, and what is put in its place. -/
def adopt (content old new : Text) : Option (Text × Text) :=
  let decoded := decodeLiteralEscapes old
  if occurrences old content ≠ 0 then some (old, new)
  else if decoded ≠ old ∧ occurrences decoded content ≠ 0 then
    some (decoded, decodeLiteralEscapes new)
  else repair content old new

/-! ## Which of several -/

/-- A candidate of `_edit_context_candidates`. -/
structure EditContext where
  lineStart : Nat
  matchLine : Nat
  text : Text
  deriving DecidableEq, Repr

/-- Its loop, from an offset on. -/
def editContextsFrom (content old : Text) : Nat → Nat → List EditContext
  | 0, _ => []
  | fuel + 1, offset =>
    match find old (content.drop offset) with
    | none => []
    | some j =>
      let index := offset + j
      let startLine := (content.take index).count '\n'
      let blockStart := startLine - 2
      let blockEnd := min (splitlines content).length (startLine + (old.count '\n' + 1) + 2)
      { lineStart := blockStart + 1
        matchLine := startLine + 1
        text := join '\n' (((splitlines content).take blockEnd).drop blockStart) } ::
        editContextsFrom content old fuel (index + max old.length 1)

/-- `_edit_context_candidates`. -/
def editContextCandidates (content old : Text) : List EditContext :=
  if old = [] then [] else editContextsFrom content old 5 0

/-- `_EDIT_HINT_STOPWORDS`. -/
def editHintStopwords : List String :=
  ["after", "before", "change", "code", "file", "fix", "from", "function", "make", "returns",
    "script", "smallest", "then", "this", "verify", "where", "with", "output", "into", "instead",
    "named", "result", "requested"]

def isAsciiDigit (c : Char) : Bool := 48 ≤ c.toNat && c.toNat ≤ 57

def isAsciiLetter (c : Char) : Bool :=
  (65 ≤ c.toNat && c.toNat ≤ 90) || (97 ≤ c.toNat && c.toNat ≤ 122)

/-- `re.findall(r"[A-Za-z_][A-Za-z0-9_]{2,}", text)`, in lower case. -/
def editTokens (text : Text) : List Text :=
  let words := text.splitOnP fun c => !(isAsciiLetter c || isAsciiDigit c || c == '_')
  ((words.map fun word => word.dropWhile isAsciiDigit).filter fun word => 3 ≤ word.length).map
    fun word => word.map asciiLower

/-- `_select_edit_context`. -/
def selectEditContext (candidates : List EditContext) (userRequest old : Text) :
    Option EditContext :=
  let hints := ((editTokens userRequest).filter fun token =>
    !(editHintStopwords.any fun word => token == word.toList) &&
      !(editTokens old).contains token).dedup
  let score (c : EditContext) : Nat :=
    let shown := (splitlines c.text).take (c.matchLine - c.lineStart + 1)
    (hints.filter fun token => (editTokens (join '\n' shown)).contains token).length
  match candidates.insertionSort fun a b => score b ≤ score a with
  | [] => none
  | best :: rest =>
    if hints = [] ∨ score best = 0 then none
    else if rest.head?.any fun second => score second == score best then none
    else some best

/-- `_indent_multiline_replacement`. -/
def indentMultilineReplacement (content old new : Text) : Text :=
  if '\n' ∉ new ∨ '\n' ∈ old then new
  else
    match find old content with
    | none => new
    | some index =>
      let indent := (content.take index).rtakeWhile fun c => c != '\n'
      if indent = [] ∨ strip indent ≠ [] then new
      else
        match lines new with
        | [] => new
        | first :: rest =>
          join '\n' (first :: rest.map fun line =>
            if line ≠ [] ∧ line.head? ≠ some ' ' ∧ line.head? ≠ some '\t' then indent ++ line
            else line)

/-- The replacement, once it is decided what is replaced. -/
def replaceWith (content : Text) (replaceAll : Bool) (old new : Text) : Except String Text :=
  if old = new then .error "old_string and new_string are identical; nothing to change."
  else if replaceAll then .ok (replaceEvery old new content)
  else .ok (replaceOne old (indentMultilineReplacement content old new) content)

/-- `edit_file`, on the text: the new text, or why there is none. -/
def replaceIn (userRequest content old new : Text) (replaceAll : Bool) : Except String Text :=
  match adopt content old new with
  | none => .error "old_string not found. The file was NOT changed."
  | some (old, new) =>
    if 1 < occurrences old content ∧ replaceAll = false then
      let selected := selectEditContext (editContextCandidates content old) userRequest old
      match (selected.map EditContext.text).filter fun text =>
        text != [] && occurrences text content == 1 with
      | none => .error "old_string appears several times. The file was NOT changed."
      | some text => replaceWith content replaceAll text (replaceOne old new text)
    else replaceWith content replaceAll old new

/-! ## What is replaced -/

/-- One occurrence of a text is replaced, and the rest stays. -/
def ReplacesOne (sub content result : Text) : Prop :=
  ∃ before after new, content = before ++ (sub ++ after) ∧ result = before ++ (new ++ after)

/-- Every occurrence is. -/
def ReplacesEvery (sub content result : Text) : Prop :=
  ∃ new, result = replaceEvery sub new content

/-- A block of whole lines is, which are those of `old` but for what `f` strips. -/
def ReplacesBlock (f : Text → Text) (old content result : Text) : Prop :=
  ∃ before block after new, lines content = before ++ (block ++ after) ∧
    block.map f = (lines old).map f ∧ result = join '\n' (before ++ (new :: after))

/-- **Only the place that was matched**: an occurrence of `old_string` or its decoded form
(all of them if so asked), or, where neither occurs, one block of lines that are those of
`old_string` or its decoded form modulo white space. -/
def InPlace (content old : Text) (replaceAll : Bool) (result : Text) : Prop :=
  (∃ sub, (sub = old ∨ sub = decodeLiteralEscapes old) ∧ sub <:+: content ∧
    if replaceAll then ReplacesEvery sub content result else ReplacesOne sub content result) ∨
  ¬ old <:+: content ∧ ¬ decodeLiteralEscapes old <:+: content ∧
    ∃ sub, (sub = old ∨ sub = decodeLiteralEscapes old) ∧
      (ReplacesBlock rstrip sub content result ∨
        minIndentFuzzLines ≤ (lines sub).length ∧ ReplacesBlock strip sub content result)

/-- Something is found, and it is told which of several is meant. -/
def Found (userRequest content old new : Text) (replaceAll : Bool) (sub : Text) : Prop :=
  (∃ replacement, adopt content old new = some (sub, replacement)) ∧
  (replaceAll = false → 1 < occurrences sub content →
    selectEditContext (editContextCandidates content sub) userRequest sub ≠ none)

/-- If neither `old_string` nor its decoded form occurs, the block that a repair finds has its
text at one place of the content. -/
def BlockOnce (content old sub : Text) : Prop :=
  ¬ old <:+: content → ¬ decodeLiteralEscapes old <:+: content → OccursOnce sub content

section Place

variable {content old new sub block result userRequest : Text} {replaceAll : Bool}

theorem occurrences_ne_zero : occurrences sub content ≠ 0 ↔ sub <:+: content := by
  unfold occurrences
  split
  next h =>
    rw [h]
    exact iff_of_true (Nat.succ_ne_zero _) (List.nil_infix)
  next h => exact count_ne_zero h

theorem join_lines (text : Text) : join '\n' (lines text) = text :=
  List.intercalate_splitOn '\n'

theorem newline_not_mem_lines : ∀ (text : Text), ∀ line ∈ lines text, '\n' ∉ line
  | [], line, h => by
    rw [lines, List.splitOn_nil, List.mem_singleton] at h
    rw [h]
    exact List.not_mem_nil
  | c :: text, line, h => by
    have ih := newline_not_mem_lines text
    rw [lines, List.splitOn_cons_eq_if_modifyHead] at h
    split at h
    next hc =>
      rcases List.mem_cons.mp h with rfl | h
      · exact List.not_mem_nil
      · exact ih line h
    next hc =>
      cases hl : text.splitOn '\n' with
      | nil => exact absurd hl (List.splitOn_ne_nil _ _)
      | cons head tail =>
        rw [hl, List.modifyHead_cons] at h
        rcases List.mem_cons.mp h with rfl | h
        · rw [List.mem_cons, not_or]
          exact ⟨fun heq => hc (beq_iff_eq.mpr heq.symm), ih head (by rw [lines, hl]; simp)⟩
        · exact ih line (by rw [lines, hl]; exact List.mem_cons_of_mem _ h)

theorem lines_ne_nil (text : Text) : lines text ≠ [] := List.splitOn_ne_nil '\n' text

theorem replaceOne_replaces (h : sub <:+: content) :
    ReplacesOne sub content (replaceOne sub new content) := by
  obtain ⟨i, hi⟩ := Option.isSome_iff_exists.mp (find_isSome.mpr h)
  refine ⟨content.take i, content.drop (i + sub.length), new, find_spec hi, ?_⟩
  unfold replaceOne
  rw [hi]
  exact List.append_assoc _ _ _

theorem replaceOne_of_absent (h : ¬ sub <:+: content) :
    replaceOne sub new content = content := by
  unfold replaceOne
  rw [find_eq_none.mpr h]

/-- What is replaced in a text that is replaced by it is replaced in the whole. -/
theorem ReplacesOne.within {text changed : Text} (h : ReplacesOne sub text changed)
    (ht : text <:+: content) : ReplacesOne sub content (replaceOne text changed content) := by
  obtain ⟨before, after, new, htext, hchanged⟩ := h
  obtain ⟨i, hi⟩ := Option.isSome_iff_exists.mp (find_isSome.mpr ht)
  refine ⟨content.take i ++ before, after ++ content.drop (i + text.length), new, ?_, ?_⟩
  · conv_lhs => rw [find_spec hi]
    conv_lhs => rw [htext]
    simp only [List.append_assoc]
    rw [htext]
  · unfold replaceOne
    rw [hi]
    dsimp only
    rw [hchanged]
    simp only [List.append_assoc]

/-- A block that is found is in the content, between lines. -/
theorem matchBlock_spec {f : Text → Text} (h : matchBlock f content old = some block) :
    ∃ before found after, lines content = before ++ (found ++ after) ∧
      found.map f = (lines old).map f ∧ found ≠ [] ∧ block = join '\n' found := by
  unfold matchBlock at h
  dsimp only at h
  split at h
  next start hstarts =>
    cases h
    have hin : start ∈ [start] := List.mem_singleton.mpr rfl
    rw [← hstarts] at hin
    have hmatch := beq_iff_eq.mp (List.mem_filter.mp hin).2
    refine ⟨(lines content).take start, ((lines content).drop start).take (lines old).length,
      ((lines content).drop start).drop (lines old).length, ?_, hmatch, ?_, rfl⟩
    · rw [List.take_append_drop, List.take_append_drop]
    · intro hnil
      rw [hnil, List.map_nil] at hmatch
      exact lines_ne_nil old (List.map_eq_nil_iff.mp hmatch.symm)
  next => cases h

/-- A block with what is around it. -/
theorem exists_around {before found after : List Text} (hfound : found ≠ []) :
    ∃ front back : Text, join '\n' (before ++ (found ++ after)) =
        front ++ (join '\n' found ++ back) ∧
      ∀ new : Text, join '\n' (before ++ (new :: after)) = front ++ (new ++ back) := by
  have hback : ∃ back : Text, ∀ part : List Text, part ≠ [] →
      join '\n' (part ++ after) = join '\n' part ++ back := by
    by_cases hafter : after = []
    · exact ⟨[], fun part _ => by rw [hafter, List.append_nil, List.append_nil]⟩
    · exact ⟨'\n' :: join '\n' after, fun part hpart => join_append hpart hafter⟩
  have hfront : ∃ front : Text, ∀ part : List Text, part ≠ [] →
      join '\n' (before ++ part) = front ++ join '\n' part := by
    by_cases hbefore : before = []
    · exact ⟨[], fun part _ => by rw [hbefore]; rfl⟩
    · refine ⟨join '\n' before ++ ['\n'], fun part hpart => ?_⟩
      rw [join_append hbefore hpart]
      simp
  obtain ⟨back, hback⟩ := hback
  obtain ⟨front, hfront⟩ := hfront
  refine ⟨front, back, ?_, fun new => ?_⟩
  · rw [hfront _ (by simp [hfound]), hback _ hfound]
  · rw [hfront _ (List.cons_ne_nil _ _)]
    have hone := hback [new] (List.cons_ne_nil _ _)
    rw [join_singleton] at hone
    rw [← hone]
    rfl

/-- A block whose text is at one place is replaced as a block. -/
theorem replacesBlock_of_once {f : Text → Text} (h : matchBlock f content old = some block)
    (honce : OccursOnce block content) (new : Text) :
    ReplacesBlock f old content (replaceOne block new content) := by
  obtain ⟨before, found, after, hlines, hmatch, hne, rfl⟩ := matchBlock_spec h
  obtain ⟨front, back, hwhole, haround⟩ := @exists_around before found after hne
  have hcontent : content = front ++ (join '\n' found ++ back) := by
    rw [← hwhole, ← hlines]
    exact (join_lines content).symm
  refine ⟨before, found, after, new, hlines, hmatch, ?_⟩
  rw [honce.replaceOne hcontent, haround]

/-- It is counted once, and replacing every occurrence replaces it. -/
theorem occurrences_of_once (hin : block <:+: content) (honce : OccursOnce block content) :
    occurrences block content = 1 ∧ replaceEvery block new content = replaceOne block new content := by
  obtain ⟨before, after, hcontent⟩ := hin
  have hcontent : content = before ++ (block ++ after) := by
    rw [← List.append_assoc]
    exact hcontent.symm
  by_cases hnil : block = []
  · -- then there is nothing in the content
    subst hnil
    have hempty : content = [] := by
      have heq := honce [] content content [] rfl (by simp)
      exact heq.symm
    subst hempty
    exact ⟨rfl, by simp [replaceEvery, replaceOne, Py.find]⟩
  · have hsplit := honce.split hnil hcontent
    unfold occurrences replaceEvery
    rw [if_neg hnil, if_neg hnil]
    constructor
    · unfold count
      rw [hsplit]
      rfl
    · rw [honce.replaceOne hcontent]
      unfold replace
      rw [hsplit]
      simp

/-- What the repairs find is a block that matches `old_string` or its decoded form. -/
theorem repair_spec {replacement : Text} (h : repair content old new = some (block, replacement)) :
    ∃ sub, (sub = old ∨ sub = decodeLiteralEscapes old) ∧
      (matchBlock rstrip content sub = some block ∨
        minIndentFuzzLines ≤ (lines sub).length ∧ matchBlock strip content sub = some block) := by
  unfold repair at h
  obtain ⟨sub, hsub, h⟩ := List.exists_of_findSome?_eq_some h
  have hwhich : sub = old ∨ sub = decodeLiteralEscapes old := by
    split at hsub
    · exact Or.inl (List.mem_singleton.mp hsub)
    · simpa using hsub
  refine ⟨sub, hwhich, ?_⟩
  -- by the ends of the lines first, then by their beginnings too
  unfold repairWith at h
  dsimp only at h
  generalize (if sub = decodeLiteralEscapes old then decodeLiteralEscapes new else new) =
    decodedNew at h
  split at h
  next found hfuzzy =>
    cases h
    have hfound := (Option.filter_eq_some_iff.mp hfuzzy).1
    unfold fuzzyMatchBlock at hfound
    split at hfound
    · cases hfound
    · exact Or.inl hfound
  next =>
    split at h
    · cases h
    next matched hmatched =>
      split at h
      · cases h
      · cases h
        unfold indentShiftedMatchBlock at hmatched
        split at hmatched
        · cases hmatched
        · split at hmatched
          · cases hmatched
          next hlong => exact Or.inr ⟨Nat.le_of_not_lt hlong, hmatched⟩

theorem infix_of_matchBlock {f : Text → Text} (h : matchBlock f content old = some block) :
    block <:+: content := by
  obtain ⟨before, found, after, hlines, _, hne, rfl⟩ := matchBlock_spec h
  obtain ⟨front, back, hwhole, _⟩ := @exists_around before found after hne
  refine ⟨front, back, ?_⟩
  rw [List.append_assoc, ← hwhole, ← hlines]
  exact join_lines content

/-- A context of one line is the first line of the content, and its only one. -/
theorem prefix_of_mem_editContexts {c : EditContext} {fuel offset : Nat}
    (h : c ∈ editContextsFrom content sub fuel offset) (hne : c.text ≠ [])
    (hline : '\n' ∉ c.text) : c.text <+: content := by
  induction fuel generalizing offset with
  | zero => exact absurd h List.not_mem_nil
  | succ fuel ih =>
    unfold editContextsFrom at h
    split at h
    · exact absurd h List.not_mem_nil
    next j hj =>
      dsimp only at h
      rcases List.mem_cons.mp h with rfl | h
      · dsimp only at hne hline ⊢
        have hcount : (content.take (offset + j)).count '\n' ≤ (splitlines content).length :=
          ((List.take_sublist _ _).count_le _).trans (newlines_le_splitlinesFrom [] content)
        generalize (content.take (offset + j)).count '\n' = startLine at hne hline hcount ⊢
        generalize hblock : ((splitlines content).take (min (splitlines content).length
          (startLine + (sub.count '\n' + 1) + 2))).drop (startLine - 2) = part at hne hline ⊢
        have hlen := congrArg List.length hblock
        rw [List.length_drop, List.length_take] at hlen
        -- the part is one line, so the content is
        match part, hne, hline, hlen with
        | [], hne, _, _ => exact absurd rfl hne
        | l :: m :: part, _, hline, _ =>
          exact absurd (by rw [join_cons_cons]; simp) hline
        | [l], _, _, hlen =>
          rw [List.length_singleton] at hlen
          have hone : (splitlines content).length = 1 := by omega
          have hstart : startLine - 2 = 0 := by omega
          rw [hstart, List.drop_zero, List.take_of_length_le (by omega)] at hblock
          rw [join_singleton]
          exact prefix_of_splitlinesFrom hblock
      · exact ih h

/-- The indentation of a replacement leaves the context that was selected alone. -/
theorem indentMultilineReplacement_context {c : EditContext} {changed : Text}
    (h : c ∈ editContextCandidates content sub) (hne : c.text ≠ []) :
    indentMultilineReplacement content c.text changed = changed := by
  unfold indentMultilineReplacement
  -- a context of several lines is not indented, and one of one line starts the content
  by_cases hline : '\n' ∈ c.text
  · rw [if_pos (Or.inr hline)]
  · split
    · rfl
    · unfold editContextCandidates at h
      split at h
      · exact absurd h List.not_mem_nil
      · rw [find_of_opening (prefix_of_mem_editContexts h hne hline)]
        dsimp only
        have hnil : List.rtakeWhile (fun c => c != '\n') (content.take 0) = [] := rfl
        rw [hnil, if_pos (Or.inl rfl)]

theorem mem_of_selectEditContext {candidates : List EditContext} {c : EditContext}
    (h : selectEditContext candidates userRequest sub = some c) : c ∈ candidates := by
  unfold selectEditContext at h
  dsimp only at h
  split at h
  · cases h
  next best rest hsorted =>
    have hbest : best ∈ best :: rest := List.mem_cons_self ..
    rw [← hsorted, List.mem_insertionSort] at hbest
    split at h
    · cases h
    · split at h
      · cases h
      · cases h
        exact hbest

/-- What is replaced once it is decided what is searched for: all occurrences, the first one,
or the one in a context that was selected. -/
theorem replaceIn_cases {replacement : Text}
    (hadopt : adopt content old new = some (sub, replacement))
    (h : replaceIn userRequest content old new replaceAll = .ok result) :
    (replaceAll = true ∧ result = replaceEvery sub replacement content) ∨
    (replaceAll = false ∧ ∃ shown, result = replaceOne sub shown content) ∨
    (replaceAll = false ∧ 1 < occurrences sub content ∧
      ∃ c ∈ editContextCandidates content sub, c.text ≠ [] ∧ occurrences c.text content = 1 ∧
        c.text ≠ replaceOne sub replacement c.text ∧
        result = replaceOne c.text (indentMultilineReplacement content c.text
          (replaceOne sub replacement c.text)) content) := by
  unfold replaceIn at h
  rw [hadopt] at h
  dsimp only at h
  split at h
  next hseveral =>
    -- a context was selected
    split at h
    · cases h
    next text htext =>
      obtain ⟨hmap, htest⟩ := Option.filter_eq_some_iff.mp htext
      obtain ⟨c, hc, rfl⟩ := Option.map_eq_some_iff.mp hmap
      rw [Bool.and_eq_true, bne_iff_ne, beq_iff_eq] at htest
      unfold replaceWith at h
      rw [hseveral.2] at h
      split at h
      · cases h
      next hsame =>
        cases h
        exact Or.inr (Or.inr ⟨hseveral.2, hseveral.1, c, mem_of_selectEditContext hc, htest.1,
          htest.2, hsame, rfl⟩)
  next =>
    unfold replaceWith at h
    split at h
    · cases h
    · cases replaceAll with
      | true =>
        cases h
        exact Or.inl ⟨rfl, rfl⟩
      | false =>
        cases h
        exact Or.inr (Or.inl ⟨rfl, _, rfl⟩)

/-- What happens to a text that is in the content. -/
theorem replaceIn_found {replacement : Text} (hin : sub <:+: content)
    (hadopt : adopt content old new = some (sub, replacement))
    (h : replaceIn userRequest content old new replaceAll = .ok result) :
    if replaceAll then ReplacesEvery sub content result else ReplacesOne sub content result := by
  rcases replaceIn_cases hadopt h with ⟨rfl, hr⟩ | ⟨rfl, shown, hr⟩ |
    ⟨rfl, _, c, hc, hne, honce, hsame, hr⟩
  · rw [if_pos rfl]
    exact ⟨replacement, hr⟩
  · rw [if_neg (by simp), hr]
    exact replaceOne_replaces hin
  · rw [if_neg (by simp), hr, indentMultilineReplacement_context hc hne]
    -- the context has the text in it, or it would be the same afterwards
    have hinside : sub <:+: c.text := by
      by_contra hno
      exact hsame (replaceOne_of_absent hno).symm
    have hcontext : c.text <:+: content := occurrences_ne_zero.mp (by omega)
    exact (replaceOne_replaces hinside).within hcontext

/-- A text that is edited has been found. -/
theorem exists_found (h : replaceIn userRequest content old new replaceAll = .ok result) :
    ∃ sub, Found userRequest content old new replaceAll sub := by
  unfold replaceIn at h
  cases hadopt : adopt content old new with
  | none =>
    rw [hadopt] at h
    cases h
  | some found =>
    obtain ⟨sub, replacement⟩ := found
    refine ⟨sub, ⟨replacement, hadopt⟩, fun hone hmany hnone => ?_⟩
    rw [hadopt] at h
    dsimp only at h
    rw [if_pos ⟨hmany, hone⟩, hnone] at h
    cases h

/-- **The edit changes the place that was matched, and nothing else.** -/
theorem replaceIn_place
    (honce : ∀ sub, Found userRequest content old new replaceAll sub → BlockOnce content old sub)
    (h : replaceIn userRequest content old new replaceAll = .ok result) :
    InPlace content old replaceAll result := by
  cases hadopt : adopt content old new with
  | none =>
    unfold replaceIn at h
    rw [hadopt] at h
    cases h
  | some found =>
    obtain ⟨sub, replacement⟩ := found
    have hwhich := hadopt
    unfold adopt at hwhich
    dsimp only at hwhich
    split at hwhich
    next hold =>
      cases hwhich
      have hin := occurrences_ne_zero.mp hold
      exact Or.inl ⟨_, Or.inl rfl, hin, replaceIn_found hin hadopt h⟩
    next hold =>
      split at hwhich
      next hdecoded =>
        cases hwhich
        have hin := occurrences_ne_zero.mp hdecoded.2
        exact Or.inl ⟨_, Or.inr rfl, hin, replaceIn_found hin hadopt h⟩
      next hdecoded =>
        -- neither occurs: a repair
        have hno : ¬ old <:+: content := fun hin => hold (occurrences_ne_zero.mpr hin)
        have hno' : ¬ decodeLiteralEscapes old <:+: content := by
          intro hin
          by_cases heq : decodeLiteralEscapes old = old
          · exact hno (heq ▸ hin)
          · exact hdecoded ⟨heq, occurrences_ne_zero.mpr hin⟩
        refine Or.inr ⟨hno, hno', ?_⟩
        have honce : OccursOnce sub content := by
          obtain ⟨found, hfound⟩ := exists_found h
          have hsame : found = sub := by
            obtain ⟨_, hadopt'⟩ := hfound.1
            rw [hadopt] at hadopt'
            cases hadopt'
            rfl
          exact honce sub (hsame ▸ hfound) hno hno'
        obtain ⟨asked, hasked, hmatch⟩ := repair_spec hwhich
        have hin :=
          hmatch.elim infix_of_matchBlock fun hmatch => infix_of_matchBlock hmatch.2
        have hresult : ∃ shown, result = replaceOne sub shown content := by
          rcases replaceIn_cases hadopt h with ⟨_, hr⟩ | ⟨_, hr⟩ | ⟨_, hmany, _⟩
          · exact ⟨replacement, by rw [hr, (occurrences_of_once hin honce).2]⟩
          · exact hr
          · rw [(@occurrences_of_once content [] _ hin honce).1] at hmany
            omega
        obtain ⟨shown, rfl⟩ := hresult
        refine ⟨asked, hasked, hmatch.imp ?_ ?_⟩
        · exact fun hmatch => replacesBlock_of_once hmatch honce shown
        · exact fun hmatch => ⟨hmatch.1, replacesBlock_of_once hmatch.2 honce shown⟩

/-- The text of a block may be found earlier, inside of other lines. -/
example : replaceIn [] "ab\nb\nb".toList "b \nb".toList "X".toList false = .ok "aX\nb".toList := by
  decide

end Place

end Shamsu.Tools
