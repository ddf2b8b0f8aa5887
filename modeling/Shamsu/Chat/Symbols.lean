import Shamsu.Py.SourceLines
import Shamsu.Tools.EditText

/-!
# Replacing a definition by name

`SimpleChatLoop._replace_symbol` in `shamsu/agents/simple_chat.py` on a Python file, with
`find_symbols` and `_python_outline` of `simple_outline.py`. The file is read with its newlines
translated, the lines of a definition come from the parser, the file is cut with `splitlines`,
and the lines are put together with LF.

`replaced_iff` and `removed_of_whole` say when this touches the definition alone: all around it
has nothing but LF, and `splitlines` makes as many lines of the definition as the parser. A
definition that is removed must have no decorators, for these stay.
-/

namespace Shamsu.Chat

open Shamsu.Py Shamsu.Tools

/-! ## Definitions of a file -/

/-- A statement of a module or a class. -/
inductive PyNode where
  /-- `first` is the line of the first decorator; `lineno` where there is none. -/
  | definition (isClass : Bool) (name : Text) (first lineno endLineno : Nat) (body : List PyNode)
  | other

/-- A declaration, with the line of its first decorator, which the outline leaves out. -/
structure Symbol where
  name : Text
  start : Nat
  stop : Nat
  first : Nat
  deriving DecidableEq, Repr

mutual

/-- `_python_symbol`. -/
def pythonSymbol (parent : Text) : PyNode → List Symbol
  | .other => []
  | .definition isClass name first lineno endLineno body =>
    let full := if parent = [] then name else parent ++ '.' :: name
    ⟨full, lineno, if endLineno = 0 then lineno else endLineno, first⟩ ::
      if isClass then pythonSymbols full body else []

/-- Its loop over a body. -/
def pythonSymbols (parent : Text) : List PyNode → List Symbol
  | [] => []
  | node :: nodes => pythonSymbol parent node ++ pythonSymbols parent nodes

end

/-- What the loop asks: `str.lower`, `ast.parse`, the outline of a file that does not parse, and
`check_text`. -/
structure Parsers where
  lower : Text → Text
  parse : Text → Option (List PyNode)
  bracedOutline : Text → List Symbol
  checkText : Text → Option Text

/-- Which of several definitions is meant. -/
structure SymbolTarget where
  occurrence : Option Nat
  startLine : Option Nat
  endLine : Option Nat

section Replace

variable (p : Parsers)

/-- `_python_outline`. -/
def Parsers.outline (text : Text) : List Symbol :=
  match p.parse text with
  | some tree => pythonSymbols [] tree
  | none => p.bracedOutline text

/-- `s.rsplit(".", 1)[-1]`. -/
def lastPart (s : Text) : Text := s.rtakeWhile (· != '.')

/-- `s.split("(", 1)[0].strip() or s`. -/
def beforeParen (s : Text) : Text :=
  let head := strip (s.takeWhile (· != '('))
  if head = [] then s else head

/-- `find_symbols`. -/
def Parsers.findSymbols (text name : Text) : List Symbol :=
  let isParen (c : Char) := c == '(' || c == ')'
  let bare := replace "()".toList [] (((strip name).dropWhile isParen).rdropWhile isParen)
  if bare = [] then []
  else
    let wanted := beforeParen bare
    let tail := p.lower (lastPart wanted)
    let symbols := p.outline text
    let same := symbols.filter fun s => p.lower s.name == p.lower wanted
    if same.isEmpty then
      symbols.filter fun s =>
        p.lower s.name == tail || ('.' :: tail).isSuffixOf (p.lower s.name)
    else same

/-- `_select_symbol_definition`. -/
def selectSymbolDefinition (found : List Symbol) (target : SymbolTarget) : Option Symbol :=
  let fits (s : Symbol) : Bool :=
    target.startLine.all (· == s.start) && target.endLine.all (· == s.stop)
  match target.occurrence with
  | some n => (found[n - 1]?).filter fits
  | none =>
    if target.startLine.isNone && target.endLine.isNone then found.head?
    else
      match found.filter fits with
      | [s] => some s
      | _ => none

/-- `_match_indentation`. -/
def matchIndentation (originalLine content : Text) : Text :=
  let indent := originalLine.take (originalLine.length - (lstrip originalLine).length)
  if indent = [] then content
  else if (lines content).head?.any fun first => first.head?.any fun c => c == ' ' || c == '\t' then
    content
  else
    join '\n' ((lines content).map fun line => if strip line = [] then line else indent ++ line)

/-- The content as it is put in place of the lines of the definition. -/
def replacement (original content : Text) (d : Symbol) : Text :=
  matchIndentation ((splitlines original).getD (d.start - 1) []) (content.rdropWhile (· == '\n'))

/-- The line after the removed ones: the end of the definition, with a blank line. -/
def removedTo (original : Text) (d : Symbol) : Nat :=
  if (splitlines original)[d.stop]?.any fun line => strip line == [] then d.stop + 1 else d.stop

/-- `body`. -/
def updatedText (original content : Text) (d : Symbol) : Text :=
  let before := (splitlines original).take (d.start - 1)
  let updated :=
    if strip content = [] then before ++ (splitlines original).drop (removedTo original d)
    else before ++ (lines (replacement original content d) ++ (splitlines original).drop d.stop)
  join '\n' updated ++ lastNewline original

/-- The names that `_symbols_erased` compares. -/
def Parsers.names (text : Text) : List Text := (p.outline text).map fun s => lastPart s.name

/-- `_members_lost`. -/
def Parsers.membersLost (original updated : Text) (d : Symbol) : List Text :=
  (((p.outline original).filter fun s => d.start < s.start ∧ s.stop ≤ d.stop).map
    fun s => lastPart s.name).filter fun name => name ∉ p.names updated

/-- `_breaks_a_working_file`. -/
def Parsers.breaksAWorkingFile (original updated : Text) : Bool :=
  (p.checkText original).isNone && (p.checkText updated).isSome

/-- `_replace_symbol` on a Python file: the definition that is selected, and the text that is
written. -/
def Parsers.replaceSymbol (fileText symbol content : Text) (target : SymbolTarget) :
    Except String (Symbol × Text) :=
  let original := translateNewlines fileText
  let wanted := beforeParen (strip symbol)
  if wanted = [] then .error "replace_symbol needs a filepath, a symbol and content."
  else
    match selectSymbolDefinition (p.findSymbols original wanted) target with
    | none => .error "replace_symbol could not find exactly one definition."
    | some d =>
      let body := updatedText original content d
      if body = original then .error "already exactly that - nothing changed."
      else if strip content = [] ∧ lastPart d.name ∉ p.names body ∧
          lastPart d.name ∈ p.names original then
        .error "NOT APPLIED - that would delete the LAST definition."
      else if strip content ≠ [] ∧ p.membersLost original body d ≠ [] then
        .error "NOT APPLIED - replacing it with that content would delete members."
      else if p.breaksAWorkingFile original body then
        .error "NOT APPLIED - replacing it would stop the file parsing."
      else .ok (d, body)

end Replace

/-! ## What is touched -/

/-- Where the parser says a definition is: its decorators, its first and its last line are lines
of the file. -/
structure Symbol.Placed (d : Symbol) (fileLines : List Text) : Prop where
  first_pos : 1 ≤ d.first
  first_le : d.first ≤ d.start
  start_le : d.start ≤ d.stop
  stop_le : d.stop ≤ fileLines.length

/-- The lines are numbered as the parser does it, LF, CRLF and CR each ending one. -/
def Parsers.Places (p : Parsers) : Prop :=
  ∀ text tree, p.parse text = some tree →
    ∀ d ∈ pythonSymbols [] tree, d.Placed (sourceLines text)

theorem Symbol.Placed.ofTranslated {d : Symbol} {fileText : Text}
    (h : d.Placed (sourceLines (translateNewlines fileText))) : d.Placed (sourceLines fileText) :=
  ⟨h.first_pos, h.first_le, h.start_le, length_sourceLines_translateNewlines fileText ▸ h.stop_le⟩

/-- The file up to a line, from a line on, and between. -/
def textBefore (fileText : Text) (n : Nat) : Text := ((sourceLines fileText).take n).flatten

def textAfter (fileText : Text) (n : Nat) : Text := ((sourceLines fileText).drop n).flatten

def textBetween (fileText : Text) (m n : Nat) : Text :=
  (((sourceLines fileText).drop m).take (n - m)).flatten

/-- **The definition is replaced**: in place of its lines is the content, which ends in a line
end where they did; all else stays as it was, with its line ends. -/
def Replaced (fileText content : Text) (d : Symbol) (body : Text) : Prop :=
  ∃ e ∈ [] :: lineEnds, (e = [] ↔ endsLine (textBetween fileText (d.start - 1) d.stop) = false) ∧
    body = textBefore fileText (d.start - 1) ++
      (replacement (translateNewlines fileText) content d ++ e ++ textAfter fileText d.stop)

/-- **The definition is removed**, with its decorators and at most one blank line after it. -/
def Removed (fileText : Text) (d : Symbol) (body : Text) : Prop :=
  ∃ k ≤ 1, (k = 1 → ∃ line ∈ (sourceLines fileText)[d.stop]?, strip line = []) ∧
    body = textBefore fileText (d.first - 1) ++ textAfter fileText (d.stop + k)

/-- Only LF around the definition, and none of its lines is cut further. -/
def WholeLines (fileText : Text) (d : Symbol) : Prop :=
  NewlinesOnly (textBefore fileText (d.start - 1)) ∧ NewlinesOnly (textAfter fileText d.stop) ∧
    (splitlines (textBetween fileText (d.start - 1) d.stop)).length = d.stop - (d.start - 1)

/-- A definition that is removed has no decorators; where nothing comes after it and the blank
line, the file ends in a line end, or has nothing before it. -/
def WholeRemoval (fileText : Text) (d : Symbol) : Prop :=
  WholeLines fileText d ∧ d.first = d.start ∧
    ((sourceLines fileText).length ≤ removedTo (translateNewlines fileText) d →
      (textBefore fileText (d.start - 1) = [] ↔ endsLine fileText = false))

section Around

variable {fileText content body : Text} {d : Symbol}

/-- The lines of the file before, of and after lines `m` to `n`. -/
theorem sourceLines_parts (fileText : Text) {m n : Nat} (hmn : m ≤ n) :
    sourceLines fileText = (sourceLines fileText).take m ++
      (((sourceLines fileText).drop m).take (n - m) ++ (sourceLines fileText).drop n) := by
  have hdrop : (sourceLines fileText).drop n = ((sourceLines fileText).drop m).drop (n - m) := by
    rw [List.drop_drop]
    congr 1
    omega
  rw [hdrop, List.take_append_drop, List.take_append_drop]

theorem text_parts (fileText : Text) {m n : Nat} (hmn : m ≤ n) :
    fileText = textBefore fileText m ++ (textBetween fileText m n ++ textAfter fileText n) := by
  have h := congrArg List.flatten (sourceLines_parts fileText hmn)
  rwa [sourceLines_flatten, List.flatten_append, List.flatten_append] at h

/-- What `splitlines` makes of the file, part by part. -/
theorem splitlines_parts (fileText : Text) {m n : Nat} (hmn : m ≤ n) :
    splitlines fileText = ((sourceLines fileText).take m).flatMap splitlines ++
      (splitlines (textBetween fileText m n) ++ splitlines (textAfter fileText n)) := by
  have hcut := isCut_sourceLines fileText
  have hparts := hcut
  rw [sourceLines_parts fileText hmn] at hparts
  have h := hcut.splitlines_flatten
  rw [sourceLines_flatten] at h
  rw [h, textBetween, textAfter, hparts.right.left.splitlines_flatten,
    hparts.right.right.splitlines_flatten, ← List.flatMap_append, ← List.flatMap_append,
    ← sourceLines_parts fileText hmn]

theorem lines_replacement_ne (original content : Text) (d : Symbol) :
    lines (replacement original content d) ≠ [] := lines_ne_nil _

/-- Lines before others, when these have nothing but LF. -/
theorem before_newlines {m : Nat} (hm : m < (sourceLines fileText).length)
    (h : NewlinesOnly (textBefore fileText m)) :
    (((sourceLines fileText).take m).flatMap splitlines).length = m ∧
      ((((sourceLines fileText).take m).flatMap splitlines).flatMap fun line => line ++ ['\n']) =
        textBefore fileText m := by
  have hcut := isCut_sourceLines fileText
  rw [← List.take_append_drop m (sourceLines fileText)] at hcut
  obtain ⟨hlen, htext⟩ := hcut.lines_of_newlines (by
    rw [Ne, List.drop_eq_nil_iff]
    omega) h
  rw [List.length_take, Nat.min_eq_left (by omega)] at hlen
  exact ⟨hlen, htext⟩

theorem lastNewline_original {after : Text} {front : Text} (h : fileText = front ++ after)
    (hne : after ≠ []) (hafter : NewlinesOnly after) :
    lastNewline (translateNewlines fileText) = lastNewline after := by
  rw [lastNewline_translateNewlines, h, endsLine_append hne, hafter.lastNewline]

theorem textBetween_ne_nil {m n : Nat} (hmn : m < n) (hn : n ≤ (sourceLines fileText).length) :
    textBetween fileText m n ≠ [] := by
  intro hnil
  have hcut := isCut_sourceLines fileText
  have hne : ((sourceLines fileText).drop m).take (n - m) ≠ [] := by
    rw [← List.length_pos_iff, List.length_take, List.length_drop]
    omega
  obtain ⟨line, more, hlines⟩ := List.exists_cons_of_ne_nil hne
  have hmem : line ∈ sourceLines fileText :=
    List.mem_of_mem_drop (List.mem_of_mem_take (hlines ▸ List.mem_cons_self))
  rw [textBetween, hlines, List.flatten_cons] at hnil
  exact hcut.ne_nil line hmem (List.append_eq_nil_iff.mp hnil).1

theorem endsLine_between {m n : Nat} (hmn : m < n) (hn : n ≤ (sourceLines fileText).length)
    (hafter : textAfter fileText n ≠ []) : endsLine (textBetween fileText m n) = true := by
  have hcut := isCut_sourceLines fileText
  rw [sourceLines_parts fileText (Nat.le_of_lt hmn)] at hcut
  refine hcut.right.endsLine (fun hnil => ?_) fun hnil => ?_
  · exact textBetween_ne_nil hmn hn (by rw [textBetween, hnil]; rfl)
  · exact hafter (by rw [textAfter, hnil]; rfl)

theorem length_between {m n : Nat} (hmn : m ≤ n) (hn : n ≤ (sourceLines fileText).length) :
    n - m ≤ (splitlines (textBetween fileText m n)).length := by
  have hcut := isCut_sourceLines fileText
  rw [sourceLines_parts fileText hmn] at hcut
  have hle := length_le_flatMap hcut.right.left.ne_nil
  rw [← hcut.right.left.splitlines_flatten, List.length_take, List.length_drop,
    Nat.min_eq_left (by omega)] at hle
  exact hle

theorem newlinesOnly_lines {l : List Text} (h : ∀ line ∈ l, IsPlain line) (t : Text) :
    NewlinesOnly (join '\n' l ++ lastNewline t) := by
  intro c hc hbreak
  rcases List.mem_append.mp hc with hc | hc
  · exact newlinesOnly_join h c hc hbreak
  · unfold lastNewline at hc
    split at hc
    · exact List.mem_singleton.mp hc
    · exact absurd hc List.not_mem_nil

/-- The LF at the end, where nothing comes after the definition. -/
theorem lastNewline_between {m n : Nat} (hmn : m < n) (hn : n ≤ (sourceLines fileText).length)
    (hafter : textAfter fileText n = []) :
    lastNewline (translateNewlines fileText) =
      if endsLine (textBetween fileText m n) then ['\n'] else [] := by
  have hparts := text_parts fileText (Nat.le_of_lt hmn)
  rw [hafter, List.append_nil] at hparts
  have h := endsLine_append (x := textBefore fileText m) (textBetween_ne_nil hmn hn)
  rw [← hparts] at h
  rw [lastNewline_translateNewlines, h]

/-- The lines before the definition and after it, where its own are whole. -/
theorem splitlines_around (hd : d.Placed (sourceLines fileText)) (h : WholeLines fileText d) :
    (splitlines fileText).take (d.start - 1) =
      ((sourceLines fileText).take (d.start - 1)).flatMap splitlines ∧
    (splitlines fileText).drop d.stop = splitlines (textAfter fileText d.stop) := by
  obtain ⟨hbefore, _, hcount⟩ := h
  have hpos := hd.first_pos
  have hfirst := hd.first_le
  have hstart := hd.start_le
  have hstop := hd.stop_le
  obtain ⟨hlen, _⟩ := before_newlines (by omega) hbefore
  have hsplit := splitlines_parts fileText (by omega : d.start - 1 ≤ d.stop)
  constructor
  · rw [hsplit, List.take_left' hlen]
  · rw [hsplit, ← List.append_assoc, List.drop_left']
    rw [List.length_append, hlen, hcount]
    omega

/-- A definition whose lines are whole is replaced. -/
theorem replaced_of_whole (hd : d.Placed (sourceLines fileText)) (hcontent : strip content ≠ [])
    (h : WholeLines fileText d) :
    Replaced fileText content d (updatedText (translateNewlines fileText) content d) := by
  obtain ⟨hbefore, hafter, hcount⟩ := h
  have hpos := hd.first_pos
  have hfirst := hd.first_le
  have hstart := hd.start_le
  have hstop := hd.stop_le
  obtain ⟨hlen, htext⟩ := before_newlines (by omega) hbefore
  obtain ⟨hfront, hback⟩ := splitlines_around hd ⟨hbefore, hafter, hcount⟩
  have hparts := text_parts fileText (by omega : d.start - 1 ≤ d.stop)
  have hbody : updatedText (translateNewlines fileText) content d =
      textBefore fileText (d.start - 1) ++
        (join '\n' (lines (replacement (translateNewlines fileText) content d) ++
          splitlines (textAfter fileText d.stop)) ++ lastNewline (translateNewlines fileText)) := by
    unfold updatedText
    dsimp only
    rw [if_neg hcontent, splitlines_translateNewlines, hfront, hback,
      join_front _ (List.append_ne_nil_of_left_ne_nil (lines_replacement_ne _ _ _) _), htext,
      List.append_assoc]
  rw [hbody]
  by_cases hnil : textAfter fileText d.stop = []
  · refine ⟨lastNewline (translateNewlines fileText), ?_, ?_, ?_⟩
    · rw [lastNewline_translateNewlines]
      split <;> simp [lineEnds]
    · rw [lastNewline_between (by omega : d.start - 1 < d.stop) hstop hnil]
      cases endsLine (textBetween fileText (d.start - 1) d.stop) <;> simp
    · rw [hnil, splitlines, splitlinesFrom, if_pos (by rfl), List.append_nil, join_lines]
      simp
  · have hnewline := lastNewline_original (hparts.trans (List.append_assoc _ _ _).symm) hnil hafter
    refine ⟨['\n'], by simp [lineEnds], ?_, ?_⟩
    · rw [endsLine_between (by omega : d.start - 1 < d.stop) hstop hnil]
      simp
    · rw [join_append (lines_replacement_ne _ _ _) (splitlines_ne_nil hnil), join_lines, hnewline,
        List.append_assoc, List.cons_append, join_splitlines hafter hnil]
      simp

/-- Where a definition is replaced its lines are whole. -/
theorem whole_of_replaced (hd : d.Placed (sourceLines fileText)) (hcontent : strip content ≠ [])
    (h : Replaced fileText content d (updatedText (translateNewlines fileText) content d)) :
    WholeLines fileText d := by
  obtain ⟨e, he, hended, hbody⟩ := h
  have hpos := hd.first_pos
  have hfirst := hd.first_le
  have hstart := hd.start_le
  have hstop := hd.stop_le
  have hne := lines_replacement_ne (translateNewlines fileText) content d
  have hparts := text_parts fileText (by omega : d.start - 1 ≤ d.stop)
  have hsplit := splitlines_parts fileText (by omega : d.start - 1 ≤ d.stop)
  -- the lines before the definition
  have hupdated : updatedText (translateNewlines fileText) content d =
      (((splitlines fileText).take (d.start - 1)).flatMap fun line => line ++ ['\n']) ++
        (join '\n' (lines (replacement (translateNewlines fileText) content d) ++
          (splitlines fileText).drop d.stop) ++ lastNewline (translateNewlines fileText)) := by
    unfold updatedText
    dsimp only
    rw [if_neg hcontent, splitlines_translateNewlines,
      join_front _ (List.append_ne_nil_of_left_ne_nil hne _), List.append_assoc]
  have htakeLen : ((sourceLines fileText).take (d.start - 1)).length = d.start - 1 := by
    rw [List.length_take]
    omega
  have hbefore : NewlinesOnly (textBefore fileText (d.start - 1)) := by
    have hcut := isCut_sourceLines fileText
    rw [← List.take_append_drop (d.start - 1) (sourceLines fileText)] at hcut
    refine @IsCut.newlines_of_prefix _ _ hcut (by rw [Ne, List.drop_eq_nil_iff]; omega)
      (splitlines (textBetween fileText (d.start - 1) d.stop) ++
        splitlines (textAfter fileText d.stop))
      (join '\n' (lines (replacement (translateNewlines fileText) content d) ++
        (splitlines fileText).drop d.stop) ++ lastNewline (translateNewlines fileText)) ?_
    rw [htakeLen, ← hsplit, ← hupdated, hbody]
    exact List.prefix_append _ _
  obtain ⟨hlen, htext⟩ := before_newlines (by omega) hbefore
  have hfront : (splitlines fileText).take (d.start - 1) =
      ((sourceLines fileText).take (d.start - 1)).flatMap splitlines := by
    rw [hsplit, List.take_left' hlen]
  -- the lines of the definition are at least as many
  have hmore : d.stop - (d.start - 1) ≤
      (splitlines (textBetween fileText (d.start - 1) d.stop)).length :=
    length_between (by omega) hstop
  generalize hdl : splitlines (textBetween fileText (d.start - 1) d.stop) = dl at hmore hsplit
  have hback : (splitlines fileText).drop d.stop =
      dl.drop (d.stop - (d.start - 1)) ++ splitlines (textAfter fileText d.stop) := by
    have hstopEq : d.stop = d.start - 1 + (d.stop - (d.start - 1)) := by omega
    rw [hsplit, hstopEq, ← List.drop_drop, List.drop_left' hlen, ← hstopEq,
      List.drop_append_of_le_length hmore]
  rw [hupdated, hfront, htext, hback] at hbody
  have hrest := List.append_cancel_left hbody
  have hcount : (dl.length = d.stop - (d.start - 1)) ↔ dl.drop (d.stop - (d.start - 1)) = [] := by
    rw [List.drop_eq_nil_iff]
    omega
  unfold WholeLines
  rw [hdl, hcount]
  refine ⟨hbefore, ?_⟩
  by_cases hX : dl.drop (d.stop - (d.start - 1)) ++ splitlines (textAfter fileText d.stop) = []
  · obtain ⟨hdrop, hnone⟩ := List.append_eq_nil_iff.mp hX
    have hafter : textAfter fileText d.stop = [] := by
      by_contra hne
      exact splitlines_ne_nil hne hnone
    rw [hafter]
    exact ⟨nofun, hdrop⟩
  · rw [join_append hne hX, join_lines, List.append_assoc, List.append_assoc] at hrest
    have hafterEq := List.append_cancel_left hrest
    rw [List.cons_append] at hafterEq
    -- what follows the content starts with LF
    by_cases hafter : textAfter fileText d.stop = []
    · rw [hafter, List.append_nil] at hafterEq
      have hend := lastNewline_between (by omega : d.start - 1 < d.stop) hstop hafter
      have htrue : endsLine (textBetween fileText (d.start - 1) d.stop) = true := by
        rw [← Bool.not_eq_false]
        intro hfalse
        rw [hended.mpr hfalse] at hafterEq
        cases hafterEq
      rw [htrue, if_pos rfl] at hend
      rw [hend] at hafterEq
      simp only [lineEnds, List.mem_cons, List.not_mem_nil, or_false] at he
      rcases he with rfl | rfl | rfl | rfl
      · cases hafterEq
      · exact absurd (List.cons.inj hafterEq).2.symm (by simp)
      · exact absurd (List.cons.inj hafterEq).1 (by decide)
      · exact absurd (List.cons.inj hafterEq).1 (by decide)
    · have htrue := endsLine_between (by omega : d.start - 1 < d.stop) hstop hafter
      have hlf : textAfter fileText d.stop =
          join '\n' (dl.drop (d.stop - (d.start - 1)) ++ splitlines (textAfter fileText d.stop)) ++
            lastNewline (translateNewlines fileText) := by
        simp only [lineEnds, List.mem_cons, List.not_mem_nil, or_false] at he
        rcases he with rfl | rfl | rfl | rfl
        · rw [htrue] at hended
          exact absurd (hended.mp rfl) (by decide)
        · exact (List.cons.inj hafterEq).2.symm
        · exact absurd (List.cons.inj hafterEq).1 (by decide)
        · exact absurd (List.cons.inj hafterEq).1 (by decide)
      have hnewlines : NewlinesOnly (textAfter fileText d.stop) := by
        rw [hlf]
        refine newlinesOnly_lines (fun line hline => ?_) _
        rw [← hback] at hline
        exact isPlain_splitlines (List.mem_of_mem_drop hline)
      refine ⟨hnewlines, ?_⟩
      by_contra hdrop
      have hsame := join_splitlines hnewlines hafter
      have hlast := lastNewline_original (hparts.trans (List.append_assoc _ _ _).symm) hafter hnewlines
      rw [join_append hdrop (splitlines_ne_nil hafter), hlast] at hlf
      have hlength := congrArg List.length (hsame.trans hlf)
      simp only [List.length_append, List.length_cons] at hlength
      omega

/-- **A definition is replaced** exactly when its lines are whole. -/
theorem replaced_iff (hd : d.Placed (sourceLines fileText)) (hcontent : strip content ≠ []) :
    Replaced fileText content d (updatedText (translateNewlines fileText) content d) ↔
      WholeLines fileText d :=
  ⟨whole_of_replaced hd hcontent, replaced_of_whole hd hcontent⟩

/-! ### Removing -/

theorem textAfter_succ {n : Nat} {line : Text} {more : List Text}
    (h : (sourceLines fileText).drop n = line :: more) : textAfter fileText (n + 1) = more.flatten := by
  unfold textAfter
  rw [← List.drop_drop, h]
  rfl

/-- The first line of a text with nothing but LF. -/
theorem IsCut.splitlines_head {line : Text} {more : List Text} (h : IsCut (line :: more))
    (hline : NewlinesOnly line) : ∃ u, splitlines line = [u] ∧ strip line = strip u := by
  have hplain : ∀ {u : Text}, Unbroken u → (∀ c ∈ u, c ∈ line) → IsPlain u := by
    intro u hu hsub c hc
    rw [Bool.eq_false_iff]
    exact fun hbreak => hu.1 (hline c (hsub c hc) hbreak ▸ hc)
  cases h with
  | last hne hu =>
    exact ⟨line, splitlinesFrom_plain (hplain hu fun _ hc => hc) [] hne, rfl⟩
  | cons hu he _ _ =>
    simp only [lineEnds, List.mem_cons, List.not_mem_nil, or_false] at he
    rcases he with rfl | rfl | rfl
    · refine ⟨_, splitlines_line (hplain hu fun c hc => List.mem_append_left _ hc), ?_⟩
      unfold strip rstrip
      rw [List.rdropWhile_concat_pos _ _ _ (by decide)]
    · exact absurd (hline '\r' (by simp) (by decide)) (by decide)
    · exact absurd (hline '\r' (by simp) (by decide)) (by decide)

/-- What is removed after the definition: nothing, or a blank line of the file. -/
theorem removedTo_spec
    (hback : (splitlines fileText).drop d.stop = splitlines (textAfter fileText d.stop))
    (hafter : NewlinesOnly (textAfter fileText d.stop)) :
    ∃ k ≤ 1, (k = 1 → ∃ line ∈ (sourceLines fileText)[d.stop]?, strip line = []) ∧
      removedTo (translateNewlines fileText) d = d.stop + k ∧
      (splitlines fileText).drop (d.stop + k) = splitlines (textAfter fileText (d.stop + k)) ∧
      NewlinesOnly (textAfter fileText (d.stop + k)) := by
  unfold removedTo
  rw [splitlines_translateNewlines]
  cases hline : (splitlines fileText)[d.stop]? with
  | none => exact ⟨0, by omega, by omega, rfl, hback, hafter⟩
  | some line =>
    by_cases hblank : strip line = []
    · obtain ⟨hlt, hget⟩ := List.getElem?_eq_some_iff.mp hline
      rw [List.drop_eq_getElem_cons hlt, hget] at hback
      cases hlines : (sourceLines fileText).drop d.stop with
      | nil =>
        rw [textAfter, hlines] at hback
        cases hback
      | cons first more =>
        -- the first line after the definition is the blank one
        have hcut := isCut_sourceLines fileText
        rw [← List.take_append_drop d.stop (sourceLines fileText), hlines] at hcut
        have hflat : textAfter fileText d.stop = first ++ more.flatten := by
          rw [textAfter, hlines, List.flatten_cons]
        obtain ⟨u, hu, hstrip⟩ := IsCut.splitlines_head hcut.right fun c hc =>
          hafter c (hflat ▸ List.mem_append_left _ hc)
        have hmore := IsCut.right (a := [first]) hcut.right
        have hcuts := hcut.right.splitlines_flatten
        rw [List.flatten_cons, List.flatMap_cons, ← hflat, ← hback, hu, List.singleton_append,
          ← hmore.splitlines_flatten] at hcuts
        obtain ⟨rfl, hrest⟩ := List.cons.inj hcuts
        refine ⟨1, le_rfl, fun _ => ⟨first, ?_, hstrip.trans hblank⟩, ?_, ?_, ?_⟩
        · have := congrArg (·[0]?) hlines
          simpa using this
        · rw [Option.any_some, hblank]
          rfl
        · rw [textAfter_succ hlines]
          exact hrest
        · rw [textAfter_succ hlines]
          exact fun c hc => hafter c (hflat ▸ List.mem_append_right _ hc)
    · refine ⟨0, by omega, by omega, ?_, hback, hafter⟩
      rw [Option.any_some, beq_false_of_ne hblank]
      rfl

/-- A definition whose lines are whole is removed with its decorators, if it has none. -/
theorem removed_of_whole (hd : d.Placed (sourceLines fileText)) (hcontent : strip content = [])
    (h : WholeRemoval fileText d) :
    Removed fileText d (updatedText (translateNewlines fileText) content d) := by
  obtain ⟨⟨hbefore, hafter, hcount⟩, hplain, hend⟩ := h
  have hpos := hd.first_pos
  have hstart := hd.start_le
  have hstop := hd.stop_le
  obtain ⟨hlen, htext⟩ := before_newlines (by omega) hbefore
  obtain ⟨hfront, hback⟩ := splitlines_around hd ⟨hbefore, hafter, hcount⟩
  obtain ⟨k, hk, hblank, hto, hdrop, hnewlines⟩ := removedTo_spec hback hafter
  refine ⟨k, hk, hblank, ?_⟩
  have hupdated : updatedText (translateNewlines fileText) content d =
      join '\n' (((sourceLines fileText).take (d.start - 1)).flatMap splitlines ++
        splitlines (textAfter fileText (d.stop + k))) ++
        lastNewline (translateNewlines fileText) := by
    unfold updatedText
    dsimp only
    rw [if_pos hcontent, hto, splitlines_translateNewlines, hfront, hdrop]
  rw [hupdated, hplain]
  by_cases hnil : textAfter fileText (d.stop + k) = []
  · have hlast := hend (by
      rw [hto]
      by_contra hlt
      obtain ⟨line, more, hlines⟩ := List.exists_cons_of_ne_nil
        (fun hd => hlt (List.drop_eq_nil_iff.mp hd))
      have hmem := List.mem_of_mem_drop (hlines ▸ List.mem_cons_self :
        line ∈ (sourceLines fileText).drop (d.stop + k))
      rw [textAfter, hlines, List.flatten_cons] at hnil
      exact (isCut_sourceLines fileText).ne_nil line hmem (List.append_eq_nil_iff.mp hnil).1)
    have hempty : splitlines ([] : Text) = [] := rfl
    rw [hnil, hempty, List.append_nil, List.append_nil, lastNewline_translateNewlines]
    generalize ((sourceLines fileText).take (d.start - 1)).flatMap splitlines = front at htext
    cases front with
    | nil =>
      rw [hlast.mp htext.symm, ← htext]
      rfl
    | cons line front =>
      have hends : endsLine fileText = true := by
        rw [← Bool.not_eq_false]
        intro hfalse
        rw [hlast.mpr hfalse, List.flatMap_cons] at htext
        simp at htext
      rw [hends, if_pos rfl, join_newline (List.cons_ne_nil line front), htext]
  · have hparts := text_parts fileText (by omega : d.start - 1 ≤ d.stop + k)
    rw [join_front _ (splitlines_ne_nil hnil), htext,
      lastNewline_original (hparts.trans (List.append_assoc _ _ _).symm) hnil hnewlines,
      List.append_assoc, join_splitlines hnewlines hnil]

theorem mem_of_selectSymbolDefinition {found : List Symbol} {target : SymbolTarget}
    (h : selectSymbolDefinition found target = some d) : d ∈ found := by
  unfold selectSymbolDefinition at h
  dsimp only at h
  split at h
  · exact List.mem_of_getElem? (Option.filter_eq_some_iff.mp h).1
  · split at h
    · exact List.mem_of_head? h
    · split at h
      next hs =>
        cases h
        have hmem : d ∈ found.filter _ := hs ▸ List.mem_singleton_self d
        exact List.mem_of_mem_filter hmem
      · cases h

theorem mem_of_findSymbols {p : Parsers} {text name : Text} (h : d ∈ p.findSymbols text name) :
    d ∈ p.outline text := by
  unfold Parsers.findSymbols at h
  dsimp only at h
  split at h
  · exact absurd h List.not_mem_nil
  · split at h <;> exact List.mem_of_mem_filter h

/-- What is written is the updated text, for one of the definitions of the file. -/
theorem replaceSymbol_ok {p : Parsers} {symbol : Text} {target : SymbolTarget}
    (h : p.replaceSymbol fileText symbol content target = .ok (d, body)) :
    d ∈ p.outline (translateNewlines fileText) ∧
      body = updatedText (translateNewlines fileText) content d := by
  unfold Parsers.replaceSymbol at h
  dsimp only at h
  split at h
  · cases h
  · split at h
    · cases h
    next selected hselected =>
      repeat' split at h
      all_goals first
        | cases h
          exact ⟨mem_of_findSymbols (mem_of_selectSymbolDefinition hselected), rfl⟩
        | cases h

/-- **What `replace_symbol` touches**, in a file that parses: the lines of the definition are
replaced and nothing else exactly when they are whole; a definition without decorators whose
lines are whole is removed and nothing else. -/
theorem symbol_touched (p : Parsers) (hp : p.Places) (tree : List PyNode) (symbol : Text)
    (target : SymbolTarget) (hparse : p.parse (translateNewlines fileText) = some tree)
    (h : p.replaceSymbol fileText symbol content target = .ok (d, body)) :
    (strip content ≠ [] → (Replaced fileText content d body ↔ WholeLines fileText d)) ∧
      (strip content = [] → WholeRemoval fileText d → Removed fileText d body) := by
  obtain ⟨hd, rfl⟩ := replaceSymbol_ok h
  have hplaced : d.Placed (sourceLines fileText) := by
    unfold Parsers.outline at hd
    rw [hparse] at hd
    exact (hp _ tree hparse d hd).ofTranslated
  exact ⟨fun hcontent => replaced_iff hplaced hcontent,
    fun hcontent hwhole => removed_of_whole hplaced hcontent hwhole⟩

end Around

/-- Parsers that know these texts. -/
def knowing (files : List (String × List PyNode)) : Parsers where
  lower := fun t => t
  parse := fun text => (files.find? fun file => file.1.toList == text).map Prod.snd
  bracedOutline := fun _ => []
  checkText := fun _ => none

theorem knowing_places {files : List (String × List PyNode)}
    (h : ∀ file ∈ files, ∀ d ∈ pythonSymbols [] file.2, d.Placed (sourceLines file.1.toList)) :
    (knowing files).Places := by
  intro text tree hparse d hd
  obtain ⟨file, hfile, rfl⟩ := Option.map_eq_some_iff.mp hparse
  have htext := List.find?_some hfile
  rw [← beq_iff_eq.mp htext]
  exact h file (List.mem_of_find?_eq_some hfile) d hd

instance (d : Symbol) (fileLines : List Text) : Decidable (d.Placed fileLines) :=
  decidable_of_iff (1 ≤ d.first ∧ d.first ≤ d.start ∧ d.start ≤ d.stop ∧ d.stop ≤ fileLines.length)
    ⟨fun ⟨h₁, h₂, h₃, h₄⟩ => ⟨h₁, h₂, h₃, h₄⟩,
      fun h => ⟨h.first_pos, h.first_le, h.start_le, h.stop_le⟩⟩

/-- A function of one line. -/
def oneLine (name : String) (first line : Nat) : PyNode :=
  .definition false name.toList first line line []

theorem symbol_touched_second :
    Replaced "def f(): 1\ndef g(): 2\n".toList "def g(): 3".toList ⟨"g".toList, 2, 2, 2⟩
      "def f(): 1\ndef g(): 3\n".toList := by
  refine ((symbol_touched (knowing [("def f(): 1\ndef g(): 2\n", [oneLine "f" 1 1, oneLine "g" 2 2])])
    (knowing_places (by decide)) [oneLine "f" 1 1, oneLine "g" 2 2]
    "g".toList ⟨none, none, none⟩ ?_ ?_).1 ?_).mpr ?_
  · rfl
  · decide
  · decide
  · unfold WholeLines
    decide

/-- The decorator of a definition that is removed stays. -/
theorem decorator_stays : ¬ ∀ (p : Parsers) (fileText symbol content : Text) (target : SymbolTarget)
    (tree : List PyNode) (d : Symbol) (body : Text), p.Places →
    p.parse (translateNewlines fileText) = some tree →
    p.replaceSymbol fileText symbol content target = .ok (d, body) →
    (strip content ≠ [] → Replaced fileText content d body) ∧
      (strip content = [] → Removed fileText d body) := by
  intro hall
  have hremoved := (hall
    (knowing [("@a\ndef f(): 1\ndef f(): 2\n", [oneLine "f" 1 2, oneLine "f" 3 3]),
      ("@a\ndef f(): 2\n", [oneLine "f" 1 2])])
    "@a\ndef f(): 1\ndef f(): 2\n".toList "f".toList [] ⟨none, none, none⟩
    [oneLine "f" 1 2, oneLine "f" 3 3] ⟨"f".toList, 2, 2, 1⟩ "@a\ndef f(): 2\n".toList
    (knowing_places (by decide)) (by rfl) (by decide)).2 rfl
  obtain ⟨k, hk, _, hbody⟩ := hremoved
  have hshort : k = 0 ∨ k = 1 := by omega
  rcases hshort with rfl | rfl
  · exact absurd hbody (by decide)
  · exact absurd hbody (by decide)

end Shamsu.Chat
