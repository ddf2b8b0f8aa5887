import Shamsu.Py.Dumps
import Shamsu.Py.SourceLines
import Shamsu.Session.Messages

/-!
# One tool result in its budget

`_budgeted` of `shamsu/agents/simple_chat.py`. A result over the budget is cut: the longest
part of its content that a binary search finds, with a line to go on from, or a preview.

`budgeted_continues`: the result fits and is JSON, and the line is the first not shown in
full where the content is lines of a file that LF ends. The line is counted in whatever the
content is: `headAndTail_continues` is an excerpt of both ends of a file, for which it
names lines that were not shown.
-/

namespace Shamsu.Chat.ToolBudget

open Shamsu.Py Shamsu.Session

/-! ## Strings and numbers -/

def codes (t : Text) : List Nat := t.map Char.toNat

def key (s : String) : List Nat := codes s.toList

/-- `d.get(name)`. -/
def get (fields : List (List Nat × Json)) (name : String) : Option Json := fields.lookup (key name)

/-- `str(n)`. -/
def intText : Int → Text
  | .ofNat n => Nat.toDigits 10 n
  | .negSucc n => '-' :: Nat.toDigits 10 (n + 1)

/-- The text of an `int`. -/
def isInt (t : Text) : Bool := (scanMinus t).2 != [] && (scanMinus t).2.all isAsciiDigit

def intOf : Text → Int
  | '-' :: t => -(Nat.ofDigitChars 10 t 0 : Int)
  | t => (Nat.ofDigitChars 10 t 0 : Int)

/-- What is not in the repository: the tokenizer, which floats are infinite, `int(x or 1)`
of the others and `int` of a string, and the window of the settings. -/
structure Env where
  countTokens : Text → Nat
  isInfinite : Text → Bool
  intOfFloat : Text → Option Int
  intOfString : List Nat → Option Int
  maxCtx : Int

/-! ## The cut -/

section Cut

variable (e : Env)

/-- `tool_result_budget`. -/
def toolResultBudget (ceiling : Option Int) : Nat :=
  let window :=
    match ceiling with
    | none => e.maxCtx
    | some n => if n = 0 then e.maxCtx else n
  (max 1500 (min 8000 (window / 4))).toNat

/-- The loop of `fit`; `top` is `high + 1`. -/
def fitLoop (cap : Nat) (render : Nat → Option Text) (low top : Nat) (best : Text) : Option Text :=
  if low < top then
    -- `middle` of `low` and `high`
    match render ((low + top - 1) / 2) with
    | none => none
    | some candidate =>
      if e.countTokens candidate ≤ cap then
        fitLoop cap render ((low + top - 1) / 2 + 1) top candidate
      else fitLoop cap render low ((low + top - 1) / 2) best
  else some best
termination_by top - low
decreasing_by all_goals omega

/-- `fit`: `none` when nothing fits, and when `render` or the tokenizer raises. -/
def fit (cap : Nat) (render : Nat → Option Text) (size : Nat) : Option Text :=
  (render 0).bind fun best =>
    if e.countTokens best ≤ cap then fitLoop e cap render 0 (size + 1) best else none

/-- `int(data.get("start_line") or 1)`, `none` where it raises a `TypeError` or a
`ValueError`. -/
def startOf (data : List (List Nat × Json)) : Option Int :=
  match get data "start_line" with
  | some (.number t) =>
    if isInt t then some (if intOf t = 0 then 1 else intOf t) else e.intOfFloat t
  | some (.string []) => some 1
  | some (.string s) => e.intOfString s
  | some (.array (_ :: _)) => none
  | some (.object (_ :: _)) => none
  | _ => some 1

/-- `int` of the `start_line` raises an `OverflowError`. -/
def startOverflows (data : List (List Nat × Json)) : Bool :=
  match get data "start_line" with
  | some (.number t) => !isInt t && e.isInfinite t
  | _ => false

/-- `total_lines` where it is an `int`, as it is printed. -/
def totalText (data : List (List Nat × Json)) : Option Text :=
  match get data "total_lines" with
  | some (.bool b) => some (if b then "True".toList else "False".toList)
  | some (.number t) => if isInt t then some t else none
  | _ => none

/-- The content up to a size, cut back to a line end. -/
def keptOf (body : List Nat) (size : Nat) : List Nat :=
  if 10 ∈ body.take size then (body.take size).rdropWhile (· ≠ 10) else body.take size

def guidance (start nextLine : Int) (total : Option Text) : Text :=
  let scope :=
    match total with
    | some total =>
      if nextLine ≠ start then
        "showing lines ".toList ++ intText start ++ '-' :: intText (nextLine - 1)
          ++ " of ".toList ++ total ++ "; ".toList
      else "partial content; ".toList
    | none => "partial content; ".toList
  let rest :=
    match total with
    | some total => ", end_line=".toList ++ total
    | none => []
  "... [truncated; ".toList ++ scope ++ "for the rest call read_file(start_line=".toList
    ++ intText nextLine ++ rest ++ "). To CHANGE this file use patch_file.]".toList

/-- `clipped`. -/
def clip (data : List (List Nat × Json)) (start : Int) (kept : List Nat) :
    List (List Nat × Json) :=
  -- the line ends of what is shown, whatever the content is
  let nextLine := start + kept.count 10
  let shown := kept ++ 10 :: codes (guidance start nextLine (totalText data))
  setItem (key "next_start_line") (.number (intText nextLine))
    (setItem (key "shown_lines") (.number (intText (kept.count 10)))
      (setItem (key "content_truncated") (.bool true)
        (setItem (key "content") (.string shown) data)))

/-- `render_content`. -/
def renderContent (parsed data : List (List Nat × Json)) (start : Int) (body : List Nat)
    (size : Nat) : Option Text :=
  dumps (.object (setItem (key "data") (.object (clip data start (keptOf body size))) parsed))

/-- The object of a payload, its data and the content of that. -/
def contentOf (payload : Text) :
    Option (List (List Nat × Json) × List (List Nat × Json) × List Nat) :=
  match loads payload with
  | some (.object parsed) =>
    match get parsed "data" with
    | some (.object data) =>
      match get data "content" with
      | some (.string body) => some (parsed, data, body)
      | _ => none
    | _ => none
  | _ => none

/-- The field `ok` of a payload, where it is a `bool`. -/
def okOf (payload : Text) : List (List Nat × Json) :=
  match loads payload with
  | some (.object parsed) =>
    match get parsed "ok" with
    | some (.bool b) => [(key "ok", .bool b)]
    | _ => []
  | _ => []

/-- The object of `render_preview`. -/
def preview (payload : Text) (size : Nat) : List (List Nat × Json) :=
  [(key "truncated", .bool true), (key "preview", .string (codes (payload.take size))),
    (key "message",
      .string (key
        "Result truncated by SHAMSU; request a smaller range or narrower query."))]
    ++ okOf payload

/-- `render_preview`. -/
def renderPreview (payload : Text) (size : Nat) : Option Text :=
  dumps (.object (preview payload size))

/-- The content cut to the budget. -/
def fitContent (cap : Nat) (payload : Text) : Option Text :=
  (contentOf payload).bind fun (parsed, data, body) =>
    (startOf e data).bind fun start =>
      fit e cap (renderContent parsed data start body) body.length

/-- The content is there to be cut, and the `start_line` is infinite. -/
def raises (payload : Text) : Bool :=
  match contentOf payload with
  | some (_, data, _) => startOverflows e data
  | none => false

/-- The result of the cut: of the content, or a preview. -/
def cutTo (cap : Nat) (payload : Text) : Text :=
  match fitContent e cap payload with
  | some result => result
  | none => (fit e cap (renderPreview payload) payload.length).getD "{}".toList

/-- `_budgeted`, `none` where it raises. -/
def budgeted (ceiling : Option Int) (payload : Text) : Option Text :=
  let cap := toolResultBudget e ceiling
  if e.countTokens payload ≤ cap then some payload
  -- an `OverflowError` is not among what is caught
  else if raises e payload = true then none
  else some (cutTo e cap payload)

end Cut

/-- A number with a comma before every three digits. -/
def grouped (n : Nat) : Text :=
  join ',' ((((Nat.toDigits 10 n).reverse.toChunks 3).map List.reverse).reverse)

/-- What `_head_and_tail` shows of the lines of a file. -/
def headAndTail (lines : List Text) : Option Text :=
  if lines.length ≤ 130 then none
  else
    some (join '\n' (lines.take 60) ++ "\n\n... [".toList ++ grouped (lines.length - 120)
      ++ " lines not shown - read_file with start_line and end_line for any of them] ...\n\n".toList
      ++ join '\n' (lines.drop (lines.length - 60)))

/-! ## The claim -/

/-- The lines that the first `n` characters of some lines show in full. -/
def wholeLines : Nat → List RawLine → List Text
  | n, r :: lines =>
    if r.text.length ≤ n then r.line :: wholeLines (n - r.text.length) lines else []
  | _, [] => []

/-- The text is the lines of the file from `start` on. -/
def FilePart (file : List Text) (start : Int) (text : Text) : Prop :=
  1 ≤ start ∧ splitlines text <+: file.drop (start.toNat - 1)

/-- The line to go on from is the first that is not shown in full, and no line where the
content is not lines of the file. -/
def Continues (file : List Text) (start : Int) (body kept : List Nat) (nextLine : Int) : Prop :=
  (∀ text, body = codes text → FilePart file start text →
    nextLine = start + (wholeLines kept.length (rawLines text)).length ∧
    wholeLines kept.length (rawLines text) =
      (file.drop (start.toNat - 1)).take (nextLine - start).toNat) ∧
  ((¬ ∃ text, body = codes text ∧ FilePart file start text) → nextLine = start)

/-- The payload as it is, or JSON in the budget; a content that was cut goes on where it says. -/
def Budgeted (e : Env) (ceiling : Option Int) (payload : Text) (file : List Text) : Prop :=
  (e.countTokens payload ≤ toolResultBudget e ceiling →
    budgeted e ceiling payload = some payload) ∧
  (¬ e.countTokens payload ≤ toolResultBudget e ceiling →
    ∃ result, budgeted e ceiling payload = some result ∧ (∃ v, loads result = some v) ∧
      e.countTokens result ≤ toolResultBudget e ceiling ∧
      ∀ parsed clipped shown, contentOf result = some (parsed, clipped, shown) →
        ∃ parsed' data body start kept total t, contentOf payload = some (parsed', data, body) ∧
          startOf e data = some start ∧ kept <+: body ∧
          shown = kept ++ 10 :: codes (guidance start (intOf t) total) ∧
          get clipped "next_start_line" = some (.number t) ∧
          Continues file start body kept (intOf t))

/-- The start line is finite; lines of a file have LF for their only line end and one of
those, and any other content has none. -/
def Countable (e : Env) (payload : Text) (file : List Text) : Prop :=
  raises e payload = false ∧
  ∀ parsed data body start, contentOf payload = some (parsed, data, body) →
    startOf e data = some start →
    (∀ text, body = codes text → FilePart file start text →
      NewlinesOnly text ∧ ('\n' ∈ text ∨ text = [])) ∧
    ((¬ ∃ text, body = codes text ∧ FilePart file start text) → 10 ∉ body)

/-! ## What is read and written -/

theorem loads_wellFormed {s : Text} {v : Json} (h : loads s = some v) : v.WellFormed := by
  unfold loads at h
  split at h
  · cases h
  split at h
  next v' rest hscan =>
    split at h
    · cases h
      exact (wellFormed_scan _).1 hscan
    · cases h
  next => cases h

theorem loads_dumps {fields : List (List Nat × Json)} {t : Text}
    (hwf : (Json.object fields).WellFormed) (h : dumps (.object fields) = some t) :
    loads t = some (.object fields) := loads_laid (laid_dumps _ hwf h)

theorem lookup_setItem (k k' : List Nat) (v : Json) (fields : List (List Nat × Json)) :
    (setItem k v fields).lookup k' = if k' = k then some v else fields.lookup k' := by
  induction fields with
  | nil =>
    rw [setItem, List.lookup_cons, List.lookup_nil]
    by_cases h : k' = k
    · rw [if_pos h, beq_iff_eq.mpr h]
    · rw [if_neg h, beq_eq_false_iff_ne.mpr h]
  | cons p fields ih =>
    obtain ⟨q, w⟩ := p
    unfold setItem
    split
    next heq =>
      dsimp only at heq
      subst heq
      rw [List.lookup_cons, List.lookup_cons]
      by_cases h : k' = q
      · rw [if_pos h, beq_iff_eq.mpr h]
      · rw [if_neg h, beq_eq_false_iff_ne.mpr h]
    next hne =>
      rw [List.lookup_cons, List.lookup_cons, ih]
      by_cases h : k' = q
      · rw [beq_iff_eq.mpr h]
        dsimp only
        rw [if_neg fun hk => hne (h.symm.trans hk)]
      · rw [beq_eq_false_iff_ne.mpr h]

theorem wellFormed_lookup {k : List Nat} {v : Json} {fields : List (List Nat × Json)}
    (hwf : (Json.object fields).WellFormed) (h : fields.lookup k = some v) : v.WellFormed := by
  rw [Json.WellFormed, fieldsWellFormed_iff] at hwf
  obtain ⟨p, hp, hv⟩ : ∃ p ∈ fields, p.2 = v := by
    clear hwf
    induction fields with
    | nil => cases h
    | cons p fields ih =>
      obtain ⟨q, w⟩ := p
      rw [List.lookup_cons] at h
      split at h
      · cases h
        exact ⟨_, .head _, rfl⟩
      · obtain ⟨p, hp, hv⟩ := ih h
        exact ⟨p, .tail _ hp, hv⟩
  exact hv ▸ hwf.2 p hp

theorem isAsciiDigit_of_isDigit {c : Char} (h : c.isDigit = true) : isAsciiDigit c = true := by
  simp only [Char.isDigit, Bool.and_eq_true, decide_eq_true_eq] at h
  simp only [isAsciiDigit, Bool.and_eq_true, decide_eq_true_eq]
  exact h

theorem isDigits_toDigits (n : Nat) : IsDigits (Nat.toDigits 10 n) :=
  ⟨Nat.toDigits_ne_nil, fun _ hc =>
    isAsciiDigit_of_isDigit (Nat.isDigit_of_mem_toDigits (by omega) (by omega) hc)⟩

/-- No number but 0 starts with a 0. -/
theorem head_toDigits (n : Nat) (hn : 0 < n) : (Nat.toDigits 10 n).head? ≠ some '0' := by
  induction n using Nat.strong_induction_on with
  | _ n ih =>
    rcases Nat.lt_or_ge n 10 with hlt | hge
    · have hall : ∀ k < 10, 0 < k → [Nat.digitChar k].head? ≠ some '0' := by decide
      rw [Nat.toDigits_of_lt_base hlt]
      exact hall n hlt hn
    · have hfront := ih (n / 10) (by omega) (by omega)
      rw [Nat.toDigits_of_base_le (by omega) hge]
      cases hd : Nat.toDigits 10 (n / 10) with
      | nil => exact absurd hd Nat.toDigits_ne_nil
      | cons c t =>
        rw [hd] at hfront
        exact hfront

theorem intText_digits (n : Nat) : IntText (Nat.toDigits 10 n) := by
  rcases Nat.eq_zero_or_pos n with rfl | hn
  · exact .zero
  · have hdigits := isDigits_toDigits n
    have hhead := head_toDigits n hn
    cases hd : Nat.toDigits 10 n with
    | nil => exact absurd hd Nat.toDigits_ne_nil
    | cons c t =>
      rw [hd] at hdigits hhead
      exact .digits (fun hc => hhead (by rw [hc]; rfl)) hdigits

theorem numberText_intText (n : Int) : NumberText (intText n) := by
  cases n with
  | ofNat n =>
    show NumberText (Nat.toDigits 10 n)
    simpa using NumberText.mk (.inl rfl) (intText_digits n) .none .none
  | negSucc n =>
    show NumberText ('-' :: Nat.toDigits 10 (n + 1))
    simpa using NumberText.mk (.inr rfl) (intText_digits (n + 1)) .none .none

theorem intOf_intText (n : Int) : intOf (intText n) = n := by
  cases n with
  | ofNat n =>
    have hdigits := isDigits_toDigits n
    rw [intText, intOf, Nat.ofDigitChars_ten_toDigits]
    · rfl
    · intro t ht
      rw [ht] at hdigits
      exact absurd (hdigits.2 _ (.head _)) (by decide)
  | negSucc n =>
    rw [intText, intOf, Nat.ofDigitChars_ten_toDigits]
    rfl

/-! ## The search -/

section Search

variable {e : Env} {cap : Nat} {render : Nat → Option Text}

theorem fitLoop_spec {low top : Nat} {best t : Text}
    (hbest : ∃ n, render n = some best ∧ e.countTokens best ≤ cap)
    (h : fitLoop e cap render low top best = some t) :
    ∃ n, render n = some t ∧ e.countTokens t ≤ cap := by
  fun_induction fitLoop e cap render low top best with
  | case1 => cases h
  | case2 low top best hlt candidate hrender hfits ih => exact ih ⟨_, hrender, hfits⟩ h
  | case3 low top best hlt candidate hrender hfits ih => exact ih hbest h
  | case4 => cases h; exact hbest

/-- What fits is rendered at some size. -/
theorem fit_spec {size : Nat} {t : Text} (h : fit e cap render size = some t) :
    ∃ n, render n = some t ∧ e.countTokens t ≤ cap := by
  obtain ⟨best, hbest, h⟩ := Option.bind_eq_some_iff.mp h
  split at h
  next hfits => exact fitLoop_spec ⟨0, hbest, hfits⟩ h
  next => cases h

/-- Where every size is rendered, and the first character fits, more than nothing is taken. -/
theorem fitLoop_one {low top : Nat} {best : Text} (hrender : ∀ n, (render n).isSome = true)
    (hfit : ∀ n ≤ 1, ∀ t ∈ render n, e.countTokens t ≤ cap)
    (hbest : (2 ≤ low ∧ ∃ n, 1 ≤ n ∧ render n = some best) ∨ low ≤ 1 ∧ 1 < top) :
    ∃ t n, fitLoop e cap render low top best = some t ∧ 1 ≤ n ∧ render n = some t := by
  fun_induction fitLoop e cap render low top best with
  | case1 low top best hlt hnone => exact absurd (hrender _) (by rw [hnone]; decide)
  | case2 low top best hlt candidate hsome hfits ih =>
    apply ih
    rcases Nat.eq_zero_or_pos ((low + top - 1) / 2) with hzero | hpos
    · exact .inr ⟨by omega, by omega⟩
    · exact .inl ⟨by omega, _, hpos, hsome⟩
  | case3 low top best hlt candidate hsome hfits ih =>
    apply ih
    rcases hbest with hbest | ⟨hlow, htop⟩
    · exact .inl hbest
    · refine .inr ⟨hlow, ?_⟩
      have hlarge : ¬ (low + top - 1) / 2 ≤ 1 := fun hle => hfits (hfit _ hle candidate hsome)
      omega
  | case4 low top best hge =>
    rcases hbest with ⟨_, n, hn, hbest⟩ | h
    · exact ⟨best, n, rfl, hn, hbest⟩
    · omega

end Search

/-! ## Lines shown in full -/

theorem wholeLines_opening (n : Nat) (lines : List RawLine) :
    wholeLines n lines <+: lines.map RawLine.line := by
  induction lines generalizing n with
  | nil => exact List.nil_prefix
  | cons r lines ih =>
    unfold wholeLines
    split
    · rw [List.map_cons, List.prefix_cons_inj]
      exact ih _
    · exact List.nil_prefix

theorem wholeLines_zero {lines : List RawLine} (h : ∀ r ∈ lines, r.text ≠ []) :
    wholeLines 0 lines = [] := by
  cases lines with
  | nil => rfl
  | cons r lines =>
    have hpos := List.length_pos_iff.mpr (h r (.head _))
    rw [wholeLines, if_neg (by omega)]

/-- LF ends the lines, all but the last at least. -/
structure Feeds (lines : List RawLine) : Prop where
  unended : OnlyLastUnended lines
  ending : ∀ r ∈ lines, r.ending = ['\n'] ∨ r.ending = []

theorem Feeds.tail {r : RawLine} {lines : List RawLine} (h : Feeds (r :: lines)) : Feeds lines :=
  ⟨@OnlyLastUnended.drop [r] lines h.unended, fun q hq => h.ending q (.tail _ hq)⟩

theorem Feeds.text_ne_nil {lines : List RawLine} (h : Feeds lines) : ∀ r ∈ lines, r.text ≠ [] := by
  intro r hr hnil
  obtain ⟨front, back, rfl⟩ := List.append_of_mem hr
  rcases (h.unended front r back rfl).2 with hbreak | ⟨_, _, hne⟩
  · rw [RawLine.text, List.append_eq_nil_iff] at hnil
    rcases hbreak with hcr | ⟨c, hc, _⟩
    · rw [hnil.2] at hcr; cases hcr
    · rw [hnil.2] at hc; cases hc
  · rw [RawLine.text, List.append_eq_nil_iff] at hnil
    exact hne hnil.1

theorem feeds_rawLines {text : Text} (h : NewlinesOnly text) : Feeds (rawLines text) := by
  refine ⟨rawLines_unended text, ?_⟩
  intro r hr
  have hmem : ∀ c ∈ r.ending, c ∈ text := by
    intro c hc
    rw [← rawText_rawLines text]
    exact List.mem_flatMap.mpr ⟨r, hr, List.mem_append_right _ hc⟩
  obtain ⟨front, back, hlines⟩ := List.append_of_mem hr
  rcases (rawLines_unended text front r back hlines).2 with (hcr | ⟨c, hc, hbreak⟩) | hlast
  · have hno := h '\r' (hmem '\r' (by rw [hcr]; exact .head _)) (by decide)
    exact absurd hno (by decide)
  · have hline := h c (hmem c (by rw [hc]; exact .head _)) hbreak
    exact .inl (by rw [hc, hline])
  · exact .inr hlast.1

theorem newline_not_mem_codes {t : Text} (h : IsPlain t) : 10 ∉ codes t := by
  intro hmem
  obtain ⟨c, hc, hn⟩ := List.mem_map.mp hmem
  have hbreak : isLineBreak c = true := by
    unfold isLineBreak
    rw [hn]
    rfl
  rw [h c hc] at hbreak
  cases hbreak

theorem codes_ended {r : RawLine} (h : r.ending = ['\n']) (lines : List RawLine) :
    codes (rawText (r :: lines)) = codes r.line ++ 10 :: codes (rawText lines) := by
  simp [rawText, codes, RawLine.text, h]

theorem codes_unended {r : RawLine} (h : r.ending = []) : codes (rawText [r]) = codes r.line := by
  simp [rawText, codes, RawLine.text, h]

/-- A part that ends with a line end has the first line in it. -/
theorem ended_split {line more kept : List Nat} (hline : 10 ∉ line)
    (hpre : kept <+: line ++ 10 :: more) (hend : kept.getLast? = some 10) :
    ∃ kept', kept = line ++ 10 :: kept' ∧ kept' <+: more := by
  rcases List.prefix_or_prefix_of_prefix hpre (List.prefix_append line _)
    with hshort | ⟨kept', rfl⟩
  · exact absurd (hshort.subset (List.mem_of_getLast? hend)) hline
  · have hpre' := (List.prefix_append_right_inj _).mp hpre
    cases kept' with
    | nil =>
      rw [List.append_nil] at hend
      exact absurd (List.mem_of_getLast? hend) hline
    | cons n kept' =>
      obtain ⟨rfl, hrest⟩ := List.cons_prefix_cons.mp hpre'
      exact ⟨kept', rfl, hrest⟩

/-- A part that ends with a line shows as many lines as it has line ends. -/
theorem wholeLines_ended {lines : List RawLine} (h : Feeds lines) {kept : List Nat}
    (hpre : kept <+: codes (rawText lines)) (hend : kept = [] ∨ kept.getLast? = some 10) :
    (wholeLines kept.length lines).length = kept.count 10 := by
  induction lines generalizing kept with
  | nil =>
    rw [List.prefix_nil.mp hpre]
    rfl
  | cons r lines ih =>
    have hline : 10 ∉ codes r.line :=
      newline_not_mem_codes (h.unended [] r lines rfl).1
    rcases hend with rfl | hend
    · rw [List.length_nil, wholeLines_zero h.text_ne_nil]
      rfl
    rcases h.ending r (.head _) with hlf | hnil
    · rw [codes_ended hlf] at hpre
      obtain ⟨kept', rfl, hpre'⟩ := ended_split hline hpre hend
      have hlen : r.text.length = (codes r.line).length + 1 := by
        simp [RawLine.text, codes, hlf]
      have hkept : (codes r.line ++ 10 :: kept').length = r.text.length + kept'.length := by
        rw [List.length_append, List.length_cons, hlen]
        omega
      rw [hkept, wholeLines, if_pos (Nat.le_add_right _ _), Nat.add_sub_cancel_left,
        List.length_cons, ih h.tail hpre' ?_, List.count_append, List.count_cons_self,
        List.count_eq_zero_of_not_mem hline]
      · omega
      · cases kept' with
        | nil => exact .inl rfl
        | cons n kept' =>
          rw [List.getLast?_append, List.getLast?_cons_cons] at hend
          exact .inr (by simpa using hend)
    · have hlast := (@OnlyLastUnended.last [] lines r _ h.unended rfl hnil).1
      subst hlast
      rw [codes_unended hnil] at hpre
      exact absurd (hpre.subset (List.mem_of_getLast? hend)) hline

/-- A part of the first line shows no line, where a line end is after it. -/
theorem wholeLines_inside {lines : List RawLine} (h : Feeds lines) {kept : List Nat}
    (hpre : kept <+: codes (rawText lines)) (hkept : 10 ∉ kept)
    (hany : 10 ∈ codes (rawText lines) ∨ lines = []) : wholeLines kept.length lines = [] := by
  cases lines with
  | nil => rfl
  | cons r lines =>
    have hmem := hany.resolve_right (by simp)
    rw [wholeLines, if_neg]
    intro hle
    rcases h.ending r (.head _) with hlf | hnil
    · rw [codes_ended hlf] at hpre
      have hfirst : codes r.line ++ [10] <+: kept := by
        refine List.prefix_of_prefix_length_le ?_ hpre ?_
        · exact ⟨codes (rawText lines), by rw [List.append_assoc]; rfl⟩
        · simpa [codes, RawLine.text, hlf] using hle
      exact hkept (hfirst.subset (List.mem_append_right _ (.head _)))
    · have hlast := (@OnlyLastUnended.last [] lines r _ h.unended rfl hnil).1
      subst hlast
      rw [codes_unended hnil] at hmem
      exact newline_not_mem_codes (h.unended [] r [] rfl).1 hmem

/-! ## The content that is kept -/

theorem keptOf_opening (body : List Nat) (size : Nat) : keptOf body size <+: body := by
  unfold keptOf
  split
  · exact (List.rdropWhile_prefix _ _).trans (List.take_prefix _ _)
  · exact List.take_prefix _ _

/-- The content is cut back to a line end where there is one. -/
theorem keptOf_ended {body : List Nat} {size : Nat} (hmem : 10 ∈ body.take size) :
    (keptOf body size).getLast? = some 10 := by
  have hne : (body.take size).rdropWhile (fun n => decide (n ≠ 10)) ≠ [] := by
    intro hnil
    have hall := List.rdropWhile_eq_nil_iff.mp hnil 10 hmem
    exact absurd hall (by decide)
  have hlast := List.rdropWhile_last_not (fun n => decide (n ≠ 10)) (body.take size) hne
  rw [keptOf, if_pos hmem, List.getLast?_eq_some_getLast hne]
  simpa using hlast

theorem keptOf_end (body : List Nat) (size : Nat) :
    10 ∉ keptOf body size ∨ (keptOf body size).getLast? = some 10 := by
  by_cases hmem : 10 ∈ body.take size
  · exact .inr (keptOf_ended hmem)
  · left
    rw [keptOf, if_neg hmem]
    exact hmem

/-- The cut goes on where it says, for a content that is countable. -/
theorem continues_keptOf {file : List Text} {start : Int} {body : List Nat} (size : Nat)
    (hlines : ∀ text, body = codes text → FilePart file start text →
      NewlinesOnly text ∧ ('\n' ∈ text ∨ text = []))
    (hother : (¬ ∃ text, body = codes text ∧ FilePart file start text) → 10 ∉ body) :
    Continues file start body (keptOf body size)
      (start + (keptOf body size).count 10) := by
  have hopening := keptOf_opening body size
  refine ⟨fun text hbody hpart => ?_, fun hno => ?_⟩
  · obtain ⟨hnewlines, hany⟩ := hlines text hbody hpart
    have hfeeds := feeds_rawLines hnewlines
    have hpre : keptOf body size <+: codes (rawText (rawLines text)) := by
      rw [rawText_rawLines, ← hbody]
      exact hopening
    have hcount : (wholeLines (keptOf body size).length (rawLines text)).length =
        (keptOf body size).count 10 := by
      rcases keptOf_end body size with hnone | hend
      · rw [List.count_eq_zero_of_not_mem hnone, List.length_eq_zero_iff]
        refine wholeLines_inside hfeeds hpre hnone ?_
        rw [rawText_rawLines]
        rcases hany with hmem | rfl
        · exact .inl (List.mem_map.mpr ⟨_, hmem, rfl⟩)
        · exact .inr rfl
      · exact wholeLines_ended hfeeds hpre (.inr hend)
    refine ⟨by rw [hcount], ?_⟩
    have hwhole : wholeLines (keptOf body size).length (rawLines text) <+:
        file.drop (start.toNat - 1) :=
      (wholeLines_opening _ _).trans (by rw [rawLines_line]; exact hpart.2)
    rw [List.prefix_iff_eq_take.mp hwhole, hcount]
    congr 1
    omega
  · have hzero : (keptOf body size).count 10 = 0 :=
      List.count_eq_zero_of_not_mem fun hmem => hother hno (hopening.subset hmem)
    rw [hzero]
    omega

/-! ## What is returned -/

theorem get_setItem_self (k : String) (v : Json) (fields : List (List Nat × Json)) :
    get (setItem (key k) v fields) k = some v := by
  rw [get, lookup_setItem, if_pos rfl]

theorem get_setItem_other {k k' : String} (h : key k' ≠ key k) (v : Json)
    (fields : List (List Nat × Json)) : get (setItem (key k) v fields) k' = get fields k' := by
  rw [get, lookup_setItem, if_neg h]
  rfl

theorem contentOf_eq_some {payload : Text} {parsed data : List (List Nat × Json)}
    {body : List Nat} (h : contentOf payload = some (parsed, data, body)) :
    loads payload = some (.object parsed) ∧ get parsed "data" = some (.object data) ∧
      get data "content" = some (.string body) := by
  unfold contentOf at h
  split at h
  next hload =>
    split at h
    next hdata =>
      split at h
      next hbody => cases h; exact ⟨hload, hdata, hbody⟩
      next => cases h
    next => cases h
  next => cases h

theorem contentOf_of_loads {payload : Text} {parsed data : List (List Nat × Json)}
    {body : List Nat} (hload : loads payload = some (.object parsed))
    (hdata : get parsed "data" = some (.object data))
    (hbody : get data "content" = some (.string body)) :
    contentOf payload = some (parsed, data, body) := by
  simp only [contentOf, hload, hdata, hbody]

theorem wellFormed_clip {data : List (List Nat × Json)} (start : Int) (kept : List Nat)
    (h : (Json.object data).WellFormed) : (Json.object (clip data start kept)).WellFormed :=
  wellFormed_setItem (wellFormed_setItem (wellFormed_setItem (wellFormed_setItem h trivial)
    trivial) (.inl (numberText_intText _))) (.inl (numberText_intText _))

/-- A content that was cut is read back as it was put together. -/
theorem contentOf_renderContent {payload t : Text} {parsed data : List (List Nat × Json)}
    {body : List Nat} {start : Int} {size : Nat}
    (h : contentOf payload = some (parsed, data, body))
    (hrender : renderContent parsed data start body size = some t) :
    contentOf t = some (setItem (key "data") (.object (clip data start (keptOf body size))) parsed,
      clip data start (keptOf body size),
      keptOf body size ++ 10 :: codes (guidance start (start + (keptOf body size).count 10)
        (totalText data))) := by
  obtain ⟨hload, hdata, hbody⟩ := contentOf_eq_some h
  have hparsed := loads_wellFormed hload
  have hwf := wellFormed_clip start (keptOf body size) (wellFormed_lookup hparsed hdata)
  refine contentOf_of_loads (loads_dumps (wellFormed_setItem hparsed hwf) hrender)
    (get_setItem_self ..) ?_
  unfold clip
  rw [get_setItem_other (by decide), get_setItem_other (by decide), get_setItem_other (by decide),
    get_setItem_self]

theorem nextStartLine_clip (data : List (List Nat × Json)) (start : Int) (kept : List Nat) :
    get (clip data start kept) "next_start_line" =
      some (.number (intText (start + kept.count 10))) := get_setItem_self ..

theorem wellFormed_preview (payload : Text) (size : Nat) :
    (Json.object (preview payload size)).WellFormed := by
  have hkeys : [key "truncated", key "preview", key "message", key "ok"].Nodup := by decide
  unfold preview okOf
  split
  · split
    · exact ⟨hkeys, trivial, trivial, trivial, trivial, trivial⟩
    · exact ⟨hkeys.sublist (List.sublist_append_left _ [key "ok"]), trivial, trivial, trivial,
        trivial⟩
  · exact ⟨hkeys.sublist (List.sublist_append_left _ [key "ok"]), trivial, trivial, trivial,
      trivial⟩

theorem data_preview (payload : Text) (size : Nat) : get (preview payload size) "data" = none := by
  unfold preview okOf
  split
  · split <;> rfl
  · rfl

theorem fitContent_spec {e : Env} {cap : Nat} {payload t : Text}
    (h : fitContent e cap payload = some t) :
    ∃ parsed data body start size, contentOf payload = some (parsed, data, body) ∧
      startOf e data = some start ∧ renderContent parsed data start body size = some t ∧
      e.countTokens t ≤ cap := by
  obtain ⟨⟨parsed, data, body⟩, hcontent, h⟩ := Option.bind_eq_some_iff.mp h
  obtain ⟨start, hstart, h⟩ := Option.bind_eq_some_iff.mp h
  obtain ⟨size, hrender, hfits⟩ := fit_spec h
  exact ⟨parsed, data, body, start, size, hcontent, hstart, hrender, hfits⟩

theorem le_toolResultBudget (e : Env) (ceiling : Option Int) :
    1500 ≤ toolResultBudget e ceiling := by
  unfold toolResultBudget
  dsimp only
  omega

/-- What is cut is JSON in the budget, and goes on where it says. -/
theorem cutTo_spec {e : Env} (hempty : e.countTokens "{}".toList ≤ 1500) (ceiling : Option Int)
    {payload : Text} {file : List Text} (hcountable : Countable e payload file) :
    (∃ v, loads (cutTo e (toolResultBudget e ceiling) payload) = some v) ∧
      e.countTokens (cutTo e (toolResultBudget e ceiling) payload) ≤ toolResultBudget e ceiling ∧
      ∀ parsed clipped shown,
        contentOf (cutTo e (toolResultBudget e ceiling) payload) =
          some (parsed, clipped, shown) →
        ∃ parsed' data body start kept total t, contentOf payload = some (parsed', data, body) ∧
          startOf e data = some start ∧ kept <+: body ∧
          shown = kept ++ 10 :: codes (guidance start (intOf t) total) ∧
          get clipped "next_start_line" = some (.number t) ∧
          Continues file start body kept (intOf t) := by
  unfold cutTo
  cases hcontent : fitContent e (toolResultBudget e ceiling) payload with
  | some t =>
    dsimp only
    obtain ⟨parsed, data, body, start, size, hpayload, hstart, hrender, hfits⟩ :=
      fitContent_spec hcontent
    have hread := contentOf_renderContent hpayload hrender
    refine ⟨⟨_, (contentOf_eq_some hread).1⟩, hfits, fun parsed' clipped shown hshown => ?_⟩
    rw [hread] at hshown
    cases hshown
    obtain ⟨hlines, hother⟩ := hcountable.2 parsed data body start hpayload hstart
    refine ⟨parsed, data, body, start, keptOf body size, totalText data,
      intText (start + (keptOf body size).count 10), hpayload, hstart, keptOf_opening body size,
      ?_, nextStartLine_clip .., ?_⟩
    · rw [intOf_intText]
    · rw [intOf_intText]
      exact continues_keptOf size hlines hother
  | none =>
    dsimp only
    cases hpreview : fit e (toolResultBudget e ceiling) (renderPreview payload)
        payload.length with
    | some t =>
      obtain ⟨size, hrender, hfits⟩ := fit_spec hpreview
      have hload := loads_dumps (wellFormed_preview payload size) hrender
      refine ⟨⟨_, hload⟩, hfits, fun parsed clipped shown hshown => ?_⟩
      -- a preview has no data, so no content to go on from
      obtain ⟨hload', hdata, _⟩ := contentOf_eq_some hshown
      rw [Option.getD_some, hload] at hload'
      cases hload'
      rw [data_preview] at hdata
      cases hdata
    | none =>
      have hload : loads "{}".toList = some (.object []) := rfl
      refine ⟨⟨_, hload⟩, hempty.trans (le_toolResultBudget e ceiling), ?_⟩
      intro parsed clipped shown h
      obtain ⟨hload', hdata, _⟩ := contentOf_eq_some h
      rw [Option.getD_none, hload] at hload'
      cases hload'
      cases hdata

/-- Four characters to a token, and the smallest window. -/
def charEnv : Env where
  countTokens t := t.length / 4
  isInfinite t := t == "Infinity".toList || t == "-Infinity".toList
  intOfFloat _ := none
  intOfString _ := none
  maxCtx := 8192

/-- The data of a result. -/
def dataOf (content : Text) (ends : Bool) : List (List Nat × Json) :=
  [(key "content", .string (codes content)), (key "total_lines", .number "900".toList),
    (key "truncated", .bool ends), (key "head_and_tail", .bool ends)]

/-- A result of a read. -/
def resultOf (content : Text) (ends : Bool) : List (List Nat × Json) :=
  [(key "ok", .bool true), (key "message", .string (key "Read file.")),
    (key "data", .object (dataOf content ends))]

def payloadOf (content : Text) (ends : Bool) : Text :=
  (dumps (.object (resultOf content ends))).getD []

theorem charOf_toNat (c : Char) : charOf c.toNat = some c := by
  have hvalid : c.toNat.isValidChar := c.valid
  rw [charOf, dif_pos hvalid]
  rfl

theorem dumpsString_codes (t : Text) :
    dumpsString (codes t) = some ('"' :: (t.flatMap escapeChar ++ ['"'])) := by
  have hchars : (codes t).mapM charOf = some t := by
    induction t with
    | nil => rfl
    | cons c t ih =>
      rw [codes, List.map_cons, List.mapM_cons, charOf_toNat]
      exact congrArg (Option.bind · fun u => some (c :: u)) ih
  rw [dumpsString, hchars]
  rfl

theorem dumpsString_key (k : String) :
    dumpsString (key k) = some ('"' :: (k.toList.flatMap escapeChar ++ ['"'])) :=
  dumpsString_codes k.toList

theorem length_le_escape (t : Text) : t.length ≤ (t.flatMap escapeChar).length := by
  induction t with
  | nil => exact Nat.le_refl _
  | cons c t ih =>
    have hpos : 1 ≤ (escapeChar c).length := by
      unfold escapeChar
      repeat' split
      all_goals simp
    rw [List.flatMap_cons, List.length_append, List.length_cons]
    omega

theorem dumps_resultOf (content : Text) (ends : Bool) :
    dumps (.object (resultOf content ends)) = some (payloadOf content ends) ∧
      content.length ≤ (payloadOf content ends).length := by
  obtain ⟨q, hq, hlen⟩ : ∃ q, dumpsString (codes content) = some ('"' :: (q ++ ['"'])) ∧
      content.length ≤ q.length := ⟨_, dumpsString_codes content, length_le_escape content⟩
  cases ends <;>
    simp [payloadOf, resultOf, dataOf, dumps, dumpsFields, hq, dumpsString_key] <;>
    omega

theorem wellFormed_resultOf (content : Text) (ends : Bool) :
    (Json.object (resultOf content ends)).WellFormed := by
  have hdata : [key "content", key "total_lines", key "truncated", key "head_and_tail"].Nodup := by
    decide
  have hresult : [key "ok", key "message", key "data"].Nodup := by decide
  exact ⟨hresult, trivial, trivial,
    ⟨hdata, trivial, .inl (numberText_intText 900), trivial, trivial, trivial⟩, trivial⟩

theorem contentOf_payloadOf (content : Text) (ends : Bool) :
    contentOf (payloadOf content ends) =
      some (resultOf content ends, dataOf content ends, codes content) :=
  contentOf_of_loads
    (loads_dumps (wellFormed_resultOf content ends) (dumps_resultOf content ends).1) rfl rfl

theorem codes_injective : Function.Injective codes :=
  List.map_injective_iff.mpr fun _ _ h => Char.toNat_inj.mp h

theorem startOf_dataOf (e : Env) (content : Text) (ends : Bool) :
    startOf e (dataOf content ends) = some 1 := rfl

theorem raises_payloadOf (e : Env) (content : Text) (ends : Bool) :
    raises e (payloadOf content ends) = false := by
  rw [raises, contentOf_payloadOf]
  rfl

theorem keptOf_zero (body : List Nat) : keptOf body 0 = [] := rfl

theorem keptOf_one (body : List Nat) : keptOf (10 :: body) 1 = [10] := rfl

theorem keptOf_codes (content : Text) (size : Nat) :
    ∃ k, keptOf (codes content) size = codes k := by
  have hkept := List.prefix_iff_eq_take.mp (keptOf_opening (codes content) size)
  exact ⟨content.take (keptOf (codes content) size).length, hkept.trans List.map_take.symm⟩

/-- The result with its content cut. -/
def cutResult (ends : Bool) (start : Int) (kept : List Nat) : List (List Nat × Json) :=
  let nextLine := start + kept.count 10
  [(key "ok", .bool true), (key "message", .string (key "Read file.")),
    (key "data", .object
      [(key "content",
          .string (kept ++ 10 :: codes (guidance start nextLine (some "900".toList)))),
        (key "total_lines", .number "900".toList), (key "truncated", .bool ends),
        (key "head_and_tail", .bool ends), (key "content_truncated", .bool true),
        (key "shown_lines", .number (intText (kept.count 10))),
        (key "next_start_line", .number (intText nextLine))])]

theorem renderContent_eq (content : Text) (ends : Bool) (start : Int) (body : List Nat)
    (size : Nat) :
    renderContent (resultOf content ends) (dataOf content ends) start body size =
      dumps (.object (cutResult ends start (keptOf body size))) := rfl

/-- Every size of a text is rendered. -/
theorem renderContent_isSome (content : Text) (ends : Bool) (start : Int) (size : Nat) :
    (renderContent (resultOf content ends) (dataOf content ends) start (codes content)
      size).isSome = true := by
  obtain ⟨k, hk⟩ := keptOf_codes content size
  have hshown : ∀ g : Text, codes k ++ 10 :: codes g = codes (k ++ '\n' :: g) := by
    intro g
    simp [codes]
  rw [renderContent_eq, hk, cutResult]
  simp only [hshown]
  simp [dumps, dumpsFields, dumpsString_codes, dumpsString_key]

/-- A character that ends no line is in a line. -/
theorem mem_line {text : Text} {c : Char} (hc : c ∈ text) (hplain : isLineBreak c = false) :
    ∃ line ∈ splitlines text, c ∈ line := by
  rw [← rawText_rawLines text] at hc
  obtain ⟨r, hr, hc⟩ := List.mem_flatMap.mp hc
  refine ⟨r.line, by rw [← rawLines_line]; exact List.mem_map.mpr ⟨r, hr, rfl⟩, ?_⟩
  refine (List.mem_append.mp hc).resolve_right fun hending => ?_
  obtain ⟨front, back, hlines⟩ := List.append_of_mem hr
  rcases (rawLines_unended text front r back hlines).2 with (hcr | ⟨d, hd, hbreak⟩) | hlast
  · rw [hcr] at hending
    rcases List.mem_cons.mp hending with rfl | hending
    · cases hplain
    · cases List.mem_singleton.mp hending
      cases hplain
  · rw [hd] at hending
    cases List.mem_singleton.mp hending
    rw [hbreak] at hplain
    cases hplain
  · rw [hlast.1] at hending
    cases hending

theorem length_flatten_le_join (ls : List Text) : ls.flatten.length ≤ (join '\n' ls).length := by
  induction ls with
  | nil => exact Nat.zero_le _
  | cons first ls ih =>
    cases ls with
    | nil => simp [join_singleton]
    | cons second ls =>
      rw [join_cons_cons, List.flatten_cons, List.length_append, List.length_append,
        List.length_cons]
      omega

/-- A file of 900 lines. -/
def readLines : List Text := List.replicate 900 (List.replicate 160 'x')

def readText : Text := Session.transcriptText readLines

theorem splitlines_transcriptText {lines : List Text}
    (h : ∀ line ∈ lines, line.any isLineBreak = false) :
    splitlines (transcriptText lines) = lines := by
  induction lines with
  | nil => rfl
  | cons line lines ih =>
    rw [transcriptText, List.flatMap_cons, List.append_assoc, List.singleton_append,
      splitlines, splitlinesFrom_line (h line (.head _))]
    exact congrArg (List.cons line) (ih fun l hl => h l (.tail _ hl))

/-- A file that starts with a blank line, with 899 lines more. -/
def notes : List Text := [] :: List.replicate 899 (List.replicate 160 'x')

def notesEnds : Text := (headAndTail notes).getD []

theorem notesEnds_eq :
    ∃ rest, notesEnds = '\n' :: rest ∧ '.' ∈ notesEnds ∧ 9000 ≤ rest.length := by
  have hmany : ¬ notes.length ≤ 130 := by
    rw [notes, List.length_cons, List.length_replicate]
    omega
  unfold notesEnds headAndTail
  rw [if_neg hmany, Option.getD_some]
  generalize hmiddle : "\n\n... [".toList = middle
  have hdot : '.' ∈ middle := by rw [← hmiddle]; decide
  generalize
    " lines not shown - read_file with start_line and end_line for any of them] ...\n\n".toList =
      after
  generalize join '\n' (notes.drop (notes.length - 60)) = tail
  unfold notes
  generalize hline : List.replicate 160 'x' = line
  have hlength : line.length = 160 := by rw [← hline, List.length_replicate]
  have htake : ([] :: List.replicate 899 line).take 60 = [] :: line :: List.replicate 58 line := by
    rw [List.take_succ_cons, List.take_replicate]
    rfl
  have hlen := length_flatten_le_join (line :: List.replicate 58 line)
  rw [htake, join_cons_cons, List.nil_append, List.cons_append, List.cons_append,
    List.cons_append, List.cons_append]
  refine ⟨_, rfl, ?_, ?_⟩
  · exact .tail _ (List.mem_append_left _ (List.mem_append_left _ (List.mem_append_left _
      (List.mem_append_right _ hdot))))
  · have hflat : (List.replicate 58 line).flatten.length = 58 * 160 := by
      rw [← hline, List.flatten_replicate_replicate, List.length_replicate]
    rw [List.flatten_cons, List.length_append, hflat] at hlen
    simp only [List.length_append]
    omega

/-- The two ends are not lines of the file from a line on. -/
theorem notesEnds_apart (start : Int) : ¬ ∃ text, codes notesEnds = codes text ∧
    FilePart notes start text := by
  intro h
  obtain ⟨text, htext, _, hpart⟩ := h
  obtain ⟨rest, _, hdot, _⟩ := notesEnds_eq
  rw [codes_injective htext] at hdot
  obtain ⟨line, hline, hmem⟩ := mem_line hdot (by decide)
  have hnotes := (List.drop_sublist _ _).subset (hpart.subset hline)
  rw [notes] at hnotes
  rcases List.mem_cons.mp hnotes with rfl | hnotes
  · cases hmem
  · rw [List.eq_of_mem_replicate hnotes] at hmem
    exact absurd (List.eq_of_mem_replicate hmem) (by decide)

theorem cutResult_fits :
    ((dumps (.object (cutResult true 1 []))).all fun t => t.length ≤ 8192) = true ∧
      ((dumps (.object (cutResult true 1 [10]))).all fun t => t.length ≤ 8192) = true := by
  decide +kernel

theorem budget_charEnv : toolResultBudget charEnv (some 8192) = 2048 := by decide

section Ends

variable {content rest : Text}

/-- A content that starts with a line end is cut behind one. -/
theorem fitContent_newline (hrest : content = '\n' :: rest) :
    ∃ t n, fitContent charEnv 2048 (payloadOf content true) = some t ∧
      10 ∈ keptOf (codes content) n ∧
      renderContent (resultOf content true) (dataOf content true) 1 (codes content) n = some t := by
  have hsome := renderContent_isSome content true 1
  have hfit : ∀ n ≤ 1, ∀ t ∈ renderContent (resultOf content true) (dataOf content true) 1
      (codes content) n, charEnv.countTokens t ≤ 2048 := by
    intro n hn t ht
    rw [renderContent_eq] at ht
    obtain ⟨hzero, hone⟩ := cutResult_fits
    suffices hlen : t.length ≤ 8192 by
      show t.length / 4 ≤ 2048
      omega
    rcases Nat.le_one_iff_eq_zero_or_eq_one.mp hn with rfl | rfl
    · rw [keptOf_zero] at ht
      rw [ht] at hzero
      simpa using hzero
    · have hkept : keptOf (codes content) 1 = [10] := by
        rw [hrest]
        exact keptOf_one (codes rest)
      rw [hkept] at ht
      rw [ht] at hone
      simpa using hone
  obtain ⟨best, hbest⟩ := Option.isSome_iff_exists.mp (hsome 0)
  obtain ⟨t, n, ht, hn, hrender⟩ := @fitLoop_one charEnv 2048 _ 0
    ((codes content).length + 1) best hsome hfit
    (.inr ⟨by omega, by rw [hrest, codes, List.map_cons, List.length_cons]; omega⟩)
  refine ⟨t, n, ?_, ?_, hrender⟩
  · rw [fitContent, contentOf_payloadOf, Option.bind_some]
    dsimp only
    rw [startOf_dataOf, Option.bind_some, fit, hbest, Option.bind_some,
      if_pos (hfit 0 (by omega) best hbest)]
    exact ht
  · refine List.mem_of_getLast? (keptOf_ended ?_)
    cases n with
    | zero => omega
    | succ n =>
      rw [hrest, codes, List.map_cons, List.take_succ_cons]
      exact .head _

/-- A line is counted in a content that is no lines of the file. -/
theorem not_budgeted_newline {file : List Text} (hrest : content = '\n' :: rest)
    (hlong : 9000 ≤ rest.length)
    (hapart : ¬ ∃ text, codes content = codes text ∧ FilePart file 1 text) :
    ¬ Budgeted charEnv (some 8192) (payloadOf content true) file := by
  intro h
  have hlarge : ¬ charEnv.countTokens (payloadOf content true) ≤
      toolResultBudget charEnv (some 8192) := by
    have hlen := (dumps_resultOf content true).2
    rw [budget_charEnv]
    show ¬ (payloadOf content true).length / 4 ≤ 2048
    have hcontent : 9000 ≤ content.length := by rw [hrest, List.length_cons]; omega
    omega
  obtain ⟨result, hresult, -, -, hshown⟩ := h.2 hlarge
  obtain ⟨t, n, ht, hmem, hrender⟩ := fitContent_newline hrest
  have hbudgeted : budgeted charEnv (some 8192) (payloadOf content true) = some t := by
    unfold budgeted cutTo
    dsimp only
    rw [if_neg hlarge, if_neg (by rw [raises_payloadOf]; decide), budget_charEnv, ht]
  rw [hbudgeted] at hresult
  cases hresult
  have hread := contentOf_renderContent (contentOf_payloadOf content true) hrender
  obtain ⟨parsed', data, body, start, kept, total, number, hpayload, hstart, _, _, hnumber,
    hcontinues⟩ := hshown _ _ _ hread
  rw [contentOf_payloadOf] at hpayload
  cases hpayload
  rw [startOf_dataOf] at hstart
  cases hstart
  rw [nextStartLine_clip] at hnumber
  cases hnumber
  have hnext := hcontinues.2 hapart
  rw [intOf_intText] at hnext
  have hpos := List.count_pos_iff.mpr hmem
  omega

end Ends

end Shamsu.Chat.ToolBudget
