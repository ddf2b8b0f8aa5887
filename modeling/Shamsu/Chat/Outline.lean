import Shamsu.Chat.Brackets

/-!
# The outline of a braced source text

`_braced_outline` of `shamsu/agents/simple_outline.py`: the declarations of a text by line,
with `_depth_by_line` for the depth of the braces at the ends of each line and
`_brace_block_end` for the line a declaration ends on. Which lines declare something is a
parameter; it has no part in where a declaration ends.

`outlined_iff`: the depths are right when no literal escapes a line end, and a declaration
ends where its body is closed when that line is the first to end as deep as its own line
starts. With the brace on the next line, it ends on its own (`brace_on_next_line`).
-/

namespace Shamsu.Chat.Outline

open Shamsu.Py Shamsu.Chat.Brackets

/-! ## The depth by line -/

/-- `_skip_quoted`, behind the quote: what follows, and the line ends crossed. -/
def skipQuoted (quote : Char) : Nat → Text → Text × Nat
  | crossed, [] => ([], crossed)
  | crossed, ['\\'] => ([], crossed)
  -- a line end behind a backslash is crossed without being counted
  | crossed, '\\' :: _ :: s => skipQuoted quote crossed s
  | crossed, c :: s =>
    if c = quote then (s, crossed)
    else if c = '\n' then
      if quote = '\x60' then skipQuoted quote (crossed + 1) s else (c :: s, crossed)
    else skipQuoted quote crossed s

/-- The entries of some line ends, the first of a line that starts at `before`. -/
def entries : Nat → Nat → Nat → List (Nat × Nat)
  | 0, _, _ => []
  | n + 1, before, depth => (before, depth) :: entries n depth depth

/-- The depth that the line starts at, behind some line ends. -/
def lineStart (n before depth : Nat) : Nat := if n = 0 then before else depth

/-- The depth behind a character. -/
def braceDepth (depth : Nat) (c : Char) : Nat :=
  if c = '{' then depth + 1 else if c = '}' then depth - 1 else depth

/-- One round of `_depth_by_line`, at `c`: the line ends passed, the depth and what is left. -/
def depthStep (depth : Nat) (c : Char) (rest : Text) : Nat × Nat × Text :=
  if c = '\n' then (1, depth, rest)
  else if "//".toList.isPrefixOf (c :: rest) = true then
    (0, depth, (c :: rest).dropWhile (· ≠ '\n'))
  else if "/*".toList.isPrefixOf (c :: rest) = true then
    match find "*/".toList (rest.drop 1) with
    | none => (0, depth, [])
    | some i => (((rest.drop 1).take i).count '\n', depth, rest.drop (i + 3))
  else if c = '"' ∨ c = '\'' ∨ c = '\x60' then
    ((skipQuoted c 0 rest).2, depth, (skipQuoted c 0 rest).1)
  else (0, braceDepth depth c, rest)

/-- The loop, as far as `fuel` goes; `before` is `at_line_start`. -/
def depthLoop : Nat → Nat → Nat → Text → List (Nat × Nat)
  | fuel + 1, before, depth, c :: rest =>
    let step := depthStep depth c rest
    entries step.1 before depth ++
      depthLoop fuel (lineStart step.1 before depth) step.2.1 step.2.2
  | _, before, depth, _ => [(before, depth)]

def depthFrom (before depth : Nat) (s : Text) : List (Nat × Nat) :=
  depthLoop (s.length + 1) before depth s

/-- `_depth_by_line`. -/
def depthByLine (text : Text) : List (Nat × Nat) := depthFrom 0 0 text

/-! ## The outline -/

/-- `Symbol`. -/
structure Symbol where
  name : Text
  kind : Text
  signature : Text
  start : Nat
  stop : Nat
  depth : Nat := 0
  deriving DecidableEq, Repr

/-- The loop of `_brace_block_end` behind the first line. -/
def searchEnd (openedAt : Nat) : Nat → List (Nat × Nat) → Nat
  | cursor, [] => cursor
  | cursor, (_, after) :: rest =>
    if after ≤ openedAt then cursor + 1 else searchEnd openedAt (cursor + 1) rest

/-- `_brace_block_end`. -/
def braceBlockEnd (depths : List (Nat × Nat)) (index : Nat) : Nat :=
  match depths.drop index with
  | [] => index + 1
  | (openedAt, after) :: rest =>
    -- a line that ends as deep as it starts has opened no block
    if after ≤ openedAt ∧ after = openedAt then index + 1 else searchEnd openedAt (index + 1) rest

/-- A line that is not looked at. -/
def isSkipped (stripped : Text) : Bool :=
  stripped.isEmpty || "//".toList.isPrefixOf stripped || "#".toList.isPrefixOf stripped
    || "*".toList.isPrefixOf stripped || "/*".toList.isPrefixOf stripped

/-- `_match_declaration`: the name and the kind that a line declares at a depth. -/
abbrev Matcher := Text → Nat → Option (Text × Text)

def classKind : Text := "class".toList

/-- `Symbol(...)` for a declaration. -/
def symbolOf (parent name kind stripped : Text) (start stop : Nat) : Symbol :=
  let inside : Bool := parent ≠ [] ∧ kind ≠ classKind
  { name := if inside then parent ++ '.' :: name else name
    kind := if inside then "method".toList else kind
    signature := (strip (stripped.rdropWhile (· == '{'))).take 160
    start, stop
    depth := if inside then 1 else 0 }

/-- The depth a line starts at. -/
def depthHere (depths : List (Nat × Nat)) (index : Nat) : Nat :=
  (depths[index]?.map Prod.fst).getD 0

/-- The loop of `_braced_outline`; the class that was opened last is the head. -/
def outlineLoop (m : Matcher) (depths : List (Nat × Nat)) :
    Nat → List (Text × Nat) → List Text → List Symbol
  | _, _, [] => []
  | index, openClasses, raw :: lines =>
    let here := depthHere depths index
    let stripped := strip raw
    if isSkipped stripped = true then outlineLoop m depths (index + 1) openClasses lines
    else
      -- a class is left when a line starts no deeper than its declaration
      let openClasses := openClasses.dropWhile fun p => here ≤ p.2 - 1
      match m stripped here with
      | none => outlineLoop m depths (index + 1) openClasses lines
      | some (name, kind) =>
        let parent := (openClasses.head?.map Prod.fst).getD []
        symbolOf parent name kind stripped (index + 1) (braceBlockEnd depths index) ::
          outlineLoop m depths (index + 1)
            (if kind = classKind then (name, here + 1) :: openClasses else openClasses) lines

/-- `_braced_outline`. -/
def bracedOutline (m : Matcher) (text : Text) : List Symbol :=
  outlineLoop m (depthByLine text) 0 [] (splitlines text)

/-! ## What the lines are -/

/-- The depth behind a token. -/
def Token.depth (depth : Nat) : Token → Nat
  | .punctuation c => braceDepth depth c
  | _ => depth

/-- The depth of the braces where each line starts and ends, when a token has so many line
ends. -/
def depthsOf (lineEnds : Token → Nat) : Nat → Nat → List Token → List (Nat × Nat)
  | before, depth, [] => [(before, depth)]
  | before, depth, token :: tokens =>
    entries (lineEnds token) before depth ++
      depthsOf lineEnds (lineStart (lineEnds token) before depth) (Token.depth depth token) tokens

/-- The depth of the braces where each line of the tokens starts and ends. -/
def lineDepths (tokens : List Token) : List (Nat × Nat) :=
  depthsOf (fun token => token.text.count '\n') 0 0 tokens

/-- A literal with a backslash before a line end. -/
def Token.escapesLine : Token → Prop
  | .quoted _ pieces => Piece.escaped '\n' ∈ pieces
  | .template pieces => Piece.escaped '\n' ∈ pieces
  | _ => False

/-- A body in braces, with what is before it and behind it. -/
structure Body (tokens : List Token) where
  front : List Token
  inside : List Token
  back : List Token
  split : tokens = front ++ .punctuation '{' :: (inside ++ .punctuation '}' :: back)
  nested : nest [] inside = some []

/-- The line that a character stands on, behind a text. -/
def lineBehind (s : Text) : Nat := (splitlines (s ++ ['}'])).length

/-- The line of the brace that closes the body of the declaration on a line, and the line
itself when it has no body. -/
def endLine {tokens : List Token} (bodyOf : Nat → Option (Body tokens)) (start : Nat) : Nat :=
  match bodyOf start with
  | none => start
  | some body => lineBehind (textOf (body.front ++ .punctuation '{' :: body.inside))

/-- The line declares something, at the depth it starts at. -/
def Declares (m : Matcher) (depths : List (Nat × Nat)) (text : Text) (start : Nat) : Prop :=
  ∃ index raw, start = index + 1 ∧ (splitlines text)[index]? = some raw ∧
    isSkipped (strip raw) = false ∧ (m (strip raw) (depthHere depths index)).isSome = true

/-- An entry for each line, and a symbol from the line of its declaration to the line that
closes its body. -/
def Outlined (m : Matcher) (tokens : List Token) (bodyOf : Nat → Option (Body tokens)) : Prop :=
  depthByLine (textOf tokens) = lineDepths tokens ∧
    ∀ s ∈ bracedOutline m (textOf tokens),
      Declares m (lineDepths tokens) (textOf tokens) s.start ∧ s.stop = endLine bodyOf s.start

/-- `stop` is the line itself, where that ends as deep as it starts; otherwise the first line
behind it that ends no deeper than it starts, or the last line where none does. -/
def Closes (depths : List (Nat × Nat)) (start stop : Nat) : Prop :=
  match depths.drop (start - 1) with
  | [] => stop = start
  | (before, after) :: rest =>
    (after = before ∧ stop = start) ∨
      (after ≠ before ∧
        ((∃ front p back, rest = front ++ p :: back ∧ (∀ q ∈ front, before < q.2) ∧
            p.2 ≤ before ∧ stop = start + front.length + 1) ∨
          (∀ q ∈ rest, before < q.2) ∧ stop = start + rest.length))

/-! ## The loop -/

theorem skipQuoted_length (quote : Char) (crossed : Nat) (s : Text) :
    (skipQuoted quote crossed s).1.length ≤ s.length := by
  fun_induction skipQuoted quote crossed s <;> simp only [List.length_cons] at * <;> omega

theorem depthStep_length (depth : Nat) (c : Char) (rest : Text) :
    (depthStep depth c rest).2.2.length ≤ rest.length := by
  unfold depthStep
  split
  · exact Nat.le_refl _
  next hc =>
    split
    · rw [List.dropWhile_cons_of_pos (by simpa using hc)]
      exact (List.dropWhile_sublist _).length_le
    split
    · split
      · exact Nat.zero_le _
      · rw [List.length_drop]
        exact Nat.sub_le _ _
    split
    · exact skipQuoted_length c 0 rest
    · exact Nat.le_refl _

/-- Every round consumes a character, so the length is fuel enough. -/
theorem depthLoop_fuel {n k : Nat} {s : Text} (before depth : Nat) (hn : s.length < n)
    (hk : s.length < k) : depthLoop n before depth s = depthLoop k before depth s := by
  induction n generalizing k s before depth with
  | zero => exact absurd hn (Nat.not_lt_zero _)
  | succ n ih =>
    cases k with
    | zero => exact absurd hk (Nat.not_lt_zero _)
    | succ k =>
      cases s with
      | nil => rfl
      | cons c rest =>
        rw [List.length_cons] at hn hk
        have hlen := depthStep_length depth c rest
        rw [depthLoop, depthLoop]
        exact congrArg _ (ih _ _ (by omega) (by omega))

theorem depthFrom_step {before depth n depth' : Nat} {c : Char} {rest s : Text}
    (h : depthStep depth c rest = (n, depth', s)) :
    depthFrom before depth (c :: rest) =
      entries n before depth ++ depthFrom (lineStart n before depth) depth' s := by
  have hlen := depthStep_length depth c rest
  rw [h] at hlen
  rw [depthFrom, depthLoop, h]
  refine congrArg _ (depthLoop_fuel _ _ ?_ (Nat.lt_succ_self _))
  exact Nat.lt_of_le_of_lt hlen (Nat.lt_succ_self _)

/-! ## Tokens scanned -/

theorem skipQuoted_cons {quote c : Char} {crossed : Nat} {s : Text} (h : c ≠ '\\') :
    skipQuoted quote crossed (c :: s) =
      if c = quote then (s, crossed)
      else if c = '\n' then
        if quote = '\x60' then skipQuoted quote (crossed + 1) s else (c :: s, crossed)
      else skipQuoted quote crossed s := by
  cases s <;> simp [skipQuoted, h]

/-- A literal is skipped as a whole, and the line ends that are not escaped are counted. -/
theorem skipQuoted_pieces {quote : Char} {pieces : List Piece} {s : Text} (hquote : quote ≠ '\\')
    (h : Avoids [quote] pieces) (hline : quote = '\x60' ∨ Avoids ['\n'] pieces) (crossed : Nat) :
    skipQuoted quote crossed (pieces.flatMap Piece.text ++ quote :: s) =
      (s, crossed + pieces.count (.plain '\n')) := by
  induction pieces generalizing crossed with
  | nil => rw [List.flatMap_nil, List.nil_append, skipQuoted_cons hquote, if_pos rfl]; rfl
  | cons piece pieces ih =>
    have hrest := ih (fun c hc => h c (.tail _ hc))
      (hline.imp_right fun hline c hc => hline c (.tail _ hc))
    rw [List.flatMap_cons]
    cases piece with
    | escaped c =>
      rw [List.count_cons_of_ne (by simp)]
      exact hrest crossed
    | plain c =>
      have hc := h c (.head _)
      rw [List.mem_cons, List.mem_singleton, not_or] at hc
      simp only [Piece.text, List.cons_append, List.nil_append]
      rw [skipQuoted_cons hc.1, if_neg hc.2]
      split
      next heq =>
        rcases hline with hline | hline
        · rw [if_pos hline, hrest (crossed + 1), heq, List.count_cons_self]
          exact congrArg _ (by omega)
        · have hno := hline c (.head _)
          rw [heq] at hno
          exact absurd (by decide) hno
      next hne =>
        rw [List.count_cons_of_ne (by simpa using hne)]
        exact hrest crossed

/-- The line ends of a token that the scan passes: the escaped ones are not seen. -/
def Token.crossed : Token → Nat
  | .quoted _ pieces => pieces.count (.plain '\n')
  | .template pieces => pieces.count (.plain '\n')
  | token => token.text.count '\n'

section Tokens

variable {a : Alphabet} {before depth : Nat} {rest : Text} {c : Char}

theorem depthStep_plain (h : c ∉ "\n/\"'\x60".toList) :
    depthStep depth c rest = (0, braceDepth depth c, rest) := by
  have hc : c ≠ '\n' ∧ c ≠ '/' ∧ c ≠ '"' ∧ c ≠ '\'' ∧ c ≠ '\x60' := by
    simpa [not_or] using h
  obtain ⟨hline, hslash, hdouble, hsingle, hback⟩ := hc
  unfold depthStep
  rw [if_neg hline, if_neg (by simp [Ne.symm hslash]), if_neg (by simp [Ne.symm hslash]),
    if_neg (by simp [hdouble, hsingle, hback])]

theorem depth_plain (h : c ∉ "\n/\"'\x60".toList) :
    depthFrom before depth (c :: rest) = depthFrom before (braceDepth depth c) rest :=
  depthFrom_step (depthStep_plain h)

theorem braceDepth_other (h : c ∉ ['{', '}']) : braceDepth depth c = depth := by
  simp only [List.mem_cons, List.not_mem_nil, or_false, not_or] at h
  rw [braceDepth, if_neg h.1, if_neg h.2]

theorem depth_word {t : Text} (h : ∀ c ∈ t, isWordChar a c = true) :
    depthFrom before depth (t ++ rest) = depthFrom before depth rest := by
  induction t with
  | nil => rfl
  | cons c t ih =>
    have hc := h c (.head _)
    rw [List.cons_append, depth_plain (not_mem_of_isWordChar hc
      (List.all_iff_forall_prop.mp (by decide))),
      braceDepth_other (not_mem_of_isWordChar hc (List.all_iff_forall_prop.mp (by decide)))]
    exact ih fun d hd => h d (.tail _ hd)

theorem depth_slash (hrest : ∀ next ∈ rest.head?, next ≠ '/' ∧ next ≠ '*') :
    depthFrom before depth ('/' :: rest) = depthFrom before depth rest := by
  refine depthFrom_step (n := 0) ?_
  have hline : ¬ "//".toList.isPrefixOf ('/' :: rest) = true :=
    not_isPrefixOf_pair '/' fun next hnext => (hrest next hnext).1
  have hblock : ¬ "/*".toList.isPrefixOf ('/' :: rest) = true :=
    not_isPrefixOf_pair '/' fun next hnext => (hrest next hnext).2
  unfold depthStep
  rw [if_neg (by decide), if_neg hline, if_neg hblock, if_neg (by decide)]
  rfl

theorem depth_quoted {quote : Char} {pieces : List Piece} (hquote : quote ∈ "\"'\x60".toList)
    (h : Avoids [quote] pieces) (hline : quote = '\x60' ∨ Avoids ['\n'] pieces) :
    depthFrom before depth (quote :: (pieces.flatMap Piece.text ++ [quote]) ++ rest) =
      entries (pieces.count (.plain '\n')) before depth ++
        depthFrom (lineStart (pieces.count (.plain '\n')) before depth) depth rest := by
  obtain ⟨hback, hnewline, hslash, hany⟩ := quote_cases hquote
  have hskip := skipQuoted_pieces (s := rest) hback h hline 0
  rw [Nat.zero_add] at hskip
  rw [List.cons_append, List.append_assoc, List.singleton_append]
  refine depthFrom_step ?_
  unfold depthStep
  rw [if_neg hnewline, if_neg (by simp [hslash]), if_neg (by simp [hslash]), if_pos hany, hskip]

theorem depth_lineComment {t : Text} (h : '\n' ∉ t) (hrest : ∀ next ∈ rest.head?, next = '\n') :
    depthFrom before depth ('/' :: '/' :: t ++ rest) = depthFrom before depth rest := by
  refine depthFrom_step (n := 0) ?_
  have hdrop : ('/' :: '/' :: t ++ rest).dropWhile (· ≠ '\n') = rest := dropWhile_comment h hrest
  unfold depthStep
  rw [if_neg (by decide), if_pos (by rfl)]
  exact congrArg (fun s => (0, depth, s)) hdrop

theorem depth_blockComment {t : Text} (h : ¬ "*/".toList <:+: t) :
    depthFrom before depth ('/' :: '*' :: (t ++ ['*', '/']) ++ rest) =
      entries (t.count '\n') before depth ++
        depthFrom (lineStart (t.count '\n') before depth) depth rest := by
  have hfind := find_close (s := rest) h
  have hdrop := drop_close t rest
  have htake : (t ++ '*' :: '/' :: rest).take t.length = t := List.take_left
  have htext : '/' :: '*' :: (t ++ ['*', '/']) ++ rest =
      '/' :: '*' :: (t ++ '*' :: '/' :: rest) := by simp
  rw [htext]
  refine depthFrom_step ?_
  unfold depthStep
  rw [if_neg (by decide), if_neg (by simp), if_pos (by rfl)]
  simp only [List.drop_succ_cons, List.drop_zero, hfind, hdrop, htake]

theorem depth_space (h : isSpace c = true) :
    depthFrom before depth (c :: rest) =
      entries ([c].count '\n') before depth ++
        depthFrom (lineStart ([c].count '\n') before depth) depth rest := by
  by_cases hc : c = '\n'
  · subst hc
    exact depthFrom_step rfl
  · have hliteral : c ∉ "\n/\"'\x60".toList :=
      List.not_mem_cons_of_ne_of_not_mem hc
        (not_mem_of_isSpace h (List.all_iff_forall_prop.mp (by decide)))
    have hcount : [c].count '\n' = 0 := List.count_eq_zero_of_not_mem (by simpa using Ne.symm hc)
    rw [depth_plain hliteral, hcount,
      braceDepth_other (not_mem_of_isSpace h (List.all_iff_forall_prop.mp (by decide)))]
    rfl

end Tokens

/-! ## The depths of a text -/

/-- A token that is no regular expression. -/
def Token.isStandard : Token → Bool
  | .regex .. => false
  | _ => true

theorem crossed_word {a : Alphabet} {t : Text} (h : ∀ c ∈ t, isWordChar a c = true) :
    t.count '\n' = 0 := by
  have hspecial : ∀ d ∈ ['\n'], d.toNat < 128 ∧ d.isAlphanum = false ∧ (d == '_') = false ∧
      (d == '$') = false := List.all_iff_forall_prop.mp (by decide)
  exact List.count_eq_zero_of_not_mem fun hmem =>
    not_mem_of_isWordChar (h _ hmem) hspecial (.head _)

/-- One token: its line ends, and the depth behind it. -/
theorem depth_token {a : Alphabet} {token : Token} {before depth : Nat} {rest : Text}
    (hwf : token.WellFormed a) (hrest : ∀ next ∈ rest.head?, token.EndsBefore a next)
    (hstandard : Token.isStandard token = true) :
    depthFrom before depth (token.text ++ rest) =
      entries (Token.crossed token) before depth ++
        depthFrom (lineStart (Token.crossed token) before depth) (Token.depth depth token)
          rest := by
  cases token with
  | punctuation c =>
    have hall : ∀ d ∈ jsPunctuation, d ∉ "\n/\"'\x60".toList ∧ [d].count '\n' = 0 :=
      List.all_iff_forall_prop.mp (by decide)
    obtain ⟨hplain, hcount⟩ := hall c hwf
    have hcrossed : Token.crossed (.punctuation c) = 0 := hcount
    rw [hcrossed]
    exact depth_plain hplain
  | word t =>
    have hcrossed : Token.crossed (.word t) = 0 := crossed_word hwf.2
    rw [hcrossed]
    exact depth_word hwf.2
  | slash => exact depth_slash hrest
  | quoted quote pieces =>
    obtain ⟨hquote, hpieces⟩ := hwf
    have hmem : quote ∈ "\"'\x60".toList := by
      rcases hquote with rfl | rfl <;> decide
    exact depth_quoted hmem (hpieces.mono (by simp)) (.inr (hpieces.mono (by simp)))
  | template pieces => exact depth_quoted (by decide) hwf (.inl rfl)
  | lineComment t =>
    have hcrossed : Token.crossed (.lineComment t) = 0 := by
      have hnone : '\n' ∉ t := hwf
      exact List.count_eq_zero_of_not_mem (by simpa [Token.text] using hnone)
    rw [hcrossed]
    exact depth_lineComment hwf hrest
  | blockComment t =>
    have hcrossed : Token.crossed (.blockComment t) = t.count '\n' := by
      simp [Token.crossed, Token.text, List.count_append]
    rw [hcrossed]
    exact depth_blockComment hwf
  | regex pieces flags => cases hstandard
  | space c => exact depth_space hwf

/-- The scan gives the depths at the line ends it passes. -/
theorem depth_tokens {a : Alphabet} {tokens : List Token} (before depth : Nat)
    (hlexed : Lexed a tokens) (hstandard : ∀ t ∈ tokens, Token.isStandard t = true) :
    depthFrom before depth (textOf tokens) = depthsOf Token.crossed before depth tokens := by
  induction tokens generalizing before depth with
  | nil => rfl
  | cons token tokens ih =>
    obtain ⟨hwf, hends, hlexed⟩ := hlexed
    rw [textOf, List.flatMap_cons, depthsOf,
      ← ih _ _ hlexed fun t ht => hstandard t (.tail _ ht)]
    exact depth_token hwf hends (hstandard token (.head _))

theorem length_entries (n before depth : Nat) : (entries n before depth).length = n := by
  induction n generalizing before with
  | zero => rfl
  | succ n ih => rw [entries, List.length_cons, ih]

theorem length_depthsOf (lineEnds : Token → Nat) (before depth : Nat) (tokens : List Token) :
    (depthsOf lineEnds before depth tokens).length = (tokens.map lineEnds).sum + 1 := by
  induction tokens generalizing before depth with
  | nil => rfl
  | cons token tokens ih =>
    rw [depthsOf, List.length_append, length_entries, ih, List.map_cons, List.sum_cons]
    omega

theorem count_pieces (pieces : List Piece) :
    (pieces.flatMap Piece.text).count '\n' =
      pieces.count (.plain '\n') + pieces.count (.escaped '\n') := by
  induction pieces with
  | nil => rfl
  | cons piece pieces ih =>
    rw [List.flatMap_cons, List.count_append, ih, List.count_cons, List.count_cons]
    cases piece with
    | plain c =>
      by_cases hc : c = '\n'
      · simp [Piece.text, hc]
        omega
      · simp [Piece.text, hc]
    | escaped c =>
      by_cases hc : c = '\n'
      · simp [Piece.text, hc]
        omega
      · simp [Piece.text, hc]

/-- A token has the line ends that the scan passes and those that a literal escapes. -/
theorem count_text {a : Alphabet} {token : Token} (hwf : token.WellFormed a) :
    Token.crossed token ≤ token.text.count '\n' ∧
      (Token.crossed token = token.text.count '\n' ↔ ¬ Token.escapesLine token) := by
  cases token with
  | quoted quote pieces =>
    have hquote : quote ≠ '\n' := by
      rcases hwf.1 with rfl | rfl <;> decide
    have htext : (Token.quoted quote pieces).text.count '\n' =
        pieces.count (.plain '\n') + pieces.count (.escaped '\n') := by
      simp [Token.text, List.count_append, hquote, count_pieces]
    have hcount : (Piece.escaped '\n' ∈ pieces) ↔ 0 < pieces.count (.escaped '\n') :=
      List.count_pos_iff.symm
    rw [htext]
    refine ⟨Nat.le_add_right _ _, ?_⟩
    rw [Token.escapesLine, hcount]
    show pieces.count (.plain '\n') = _ ↔ _
    omega
  | template pieces =>
    have htext : (Token.template pieces).text.count '\n' =
        pieces.count (.plain '\n') + pieces.count (.escaped '\n') := by
      simp [Token.text, List.count_append, count_pieces]
    have hcount : (Piece.escaped '\n' ∈ pieces) ↔ 0 < pieces.count (.escaped '\n') :=
      List.count_pos_iff.symm
    rw [htext]
    refine ⟨Nat.le_add_right _ _, ?_⟩
    rw [Token.escapesLine, hcount]
    show pieces.count (.plain '\n') = _ ↔ _
    omega
  | _ => exact ⟨Nat.le_refl _, iff_of_true rfl id⟩

theorem depthsOf_congr {f g : Token → Nat} (before depth : Nat) {tokens : List Token}
    (h : ∀ t ∈ tokens, f t = g t) :
    depthsOf f before depth tokens = depthsOf g before depth tokens := by
  induction tokens generalizing before depth with
  | nil => rfl
  | cons token tokens ih =>
    rw [depthsOf, depthsOf, h token (.head _), ih _ _ fun t ht => h t (.tail _ ht)]

theorem eq_of_sum_eq {f g : Token → Nat} {tokens : List Token} (hle : ∀ t ∈ tokens, f t ≤ g t)
    (h : (tokens.map f).sum = (tokens.map g).sum) : ∀ t ∈ tokens, f t = g t := by
  have hsum : ∀ {ts : List Token}, (∀ t ∈ ts, f t ≤ g t) → (ts.map f).sum ≤ (ts.map g).sum := by
    intro ts hts
    induction ts with
    | nil => exact Nat.le_refl _
    | cons t ts ih =>
      have ht := hts t (.head _)
      have hrest := ih fun u hu => hts u (.tail _ hu)
      rw [List.map_cons, List.map_cons, List.sum_cons, List.sum_cons]
      omega
  induction tokens with
  | nil => exact nofun
  | cons token tokens ih =>
    have htoken := hle token (.head _)
    have hrest := hsum fun t ht => hle t (.tail _ ht)
    rw [List.map_cons, List.map_cons, List.sum_cons, List.sum_cons] at h
    intro t ht
    rcases List.mem_cons.mp ht with rfl | ht
    · omega
    · exact ih (fun t ht => hle t (.tail _ ht)) (by omega) t ht

theorem Lexed.wellFormed {a : Alphabet} {tokens : List Token} (h : Lexed a tokens) :
    ∀ t ∈ tokens, t.WellFormed a := by
  induction tokens with
  | nil => exact nofun
  | cons token tokens ih => exact List.forall_mem_cons.mpr ⟨h.1, ih h.2.2⟩

/-- The depths are right exactly when no literal escapes a line end. -/
theorem depthByLine_eq_iff {a : Alphabet} {tokens : List Token} (hlexed : Lexed a tokens)
    (hstandard : ∀ t ∈ tokens, Token.isStandard t = true) :
    depthByLine (textOf tokens) = lineDepths tokens ↔ ∀ t ∈ tokens, ¬ Token.escapesLine t := by
  have hwf := Lexed.wellFormed hlexed
  rw [depthByLine, depth_tokens 0 0 hlexed hstandard, lineDepths]
  constructor
  · intro h
    -- no token has fewer line ends than are counted, so the number of entries decides
    have hlen := congrArg List.length h
    rw [length_depthsOf, length_depthsOf] at hlen
    have heq := eq_of_sum_eq (fun t ht => (count_text (hwf t ht)).1) (Nat.succ.inj hlen)
    exact fun t ht => (count_text (hwf t ht)).2.mp (heq t ht)
  · intro h
    exact depthsOf_congr 0 0 fun t ht => (count_text (hwf t ht)).2.mpr (h t ht)

/-! ## Where a declaration ends -/

theorem searchEnd_eq_iff {openedAt cursor n : Nat} {rest : List (Nat × Nat)} :
    searchEnd openedAt cursor rest = n ↔
      (∃ front p back, rest = front ++ p :: back ∧ (∀ q ∈ front, openedAt < q.2) ∧
        p.2 ≤ openedAt ∧ n = cursor + front.length + 1) ∨
      (∀ q ∈ rest, openedAt < q.2) ∧ n = cursor + rest.length := by
  induction rest generalizing cursor with
  | nil =>
    rw [searchEnd]
    constructor
    · intro heq
      subst heq
      exact .inr ⟨nofun, rfl⟩
    · intro h
      rcases h with ⟨front, p, back, hnil, _⟩ | ⟨_, rfl⟩
      · exact absurd hnil.symm (by simp)
      · rfl
  | cons first rest ih =>
    obtain ⟨start, after⟩ := first
    rw [searchEnd]
    split
    next hle =>
      constructor
      · intro heq
        subst heq
        exact .inl ⟨[], _, rest, rfl, nofun, hle, rfl⟩
      · intro h
        rcases h with ⟨front, p, back, hrest, hfront, _, rfl⟩ | ⟨hall, _⟩
        · cases front with
          | nil => rfl
          | cons q front =>
            cases hrest
            exact absurd (hfront _ (.head _)) (by simpa using hle)
        · exact absurd (hall _ (.head _)) (by simpa using hle)
    next hgt =>
      rw [ih]
      constructor
      · intro h
        rcases h with ⟨front, p, back, rfl, hfront, hp, rfl⟩ | ⟨hall, rfl⟩
        · refine .inl ⟨(start, after) :: front, p, back, rfl, ?_, hp, ?_⟩
          · exact List.forall_mem_cons.mpr ⟨by simpa using hgt, hfront⟩
          · rw [List.length_cons]; omega
        · refine .inr ⟨List.forall_mem_cons.mpr ⟨by simpa using hgt, hall⟩, ?_⟩
          rw [List.length_cons]; omega
      · intro h
        rcases h with ⟨front, p, back, hrest, hfront, hp, rfl⟩ | ⟨hall, rfl⟩
        · cases front with
          | nil =>
            cases hrest
            exact absurd hp hgt
          | cons q front =>
            cases hrest
            refine .inl ⟨front, p, back, rfl, fun q hq => hfront q (.tail _ hq), hp, ?_⟩
            rw [List.length_cons]; omega
        · refine .inr ⟨fun q hq => hall q (.tail _ hq), ?_⟩
          rw [List.length_cons]; omega

theorem braceBlockEnd_eq_iff (depths : List (Nat × Nat)) (index stop : Nat) :
    braceBlockEnd depths index = stop ↔ Closes depths (index + 1) stop := by
  rw [braceBlockEnd, Closes, Nat.add_sub_cancel]
  cases depths.drop index with
  | nil => exact eq_comm
  | cons own rest =>
    obtain ⟨before, after⟩ := own
    dsimp only
    split
    next h =>
      constructor
      · intro he
        subst he
        exact .inl ⟨h.2, rfl⟩
      · intro hcase
        rcases hcase with ⟨_, rfl⟩ | ⟨hne, _⟩
        · rfl
        · exact absurd h.2 hne
    next h =>
      have hne : after ≠ before := fun heq => h ⟨Nat.le_of_eq heq, heq⟩
      rw [searchEnd_eq_iff]
      constructor
      · exact fun hstop => .inr ⟨hne, hstop⟩
      · intro hcase
        rcases hcase with ⟨heq, _⟩ | ⟨_, hstop⟩
        · exact absurd heq hne
        · exact hstop

/-- The line declares something, as the loop sees it. -/
def Reported (m : Matcher) (depths : List (Nat × Nat)) (index : Nat) (raw : Text) : Prop :=
  isSkipped (strip raw) = false ∧ (m (strip raw) (depthHere depths index)).isSome = true

theorem mem_outlineLoop {m : Matcher} {depths : List (Nat × Nat)} {s : Symbol} {lines : List Text}
    {index : Nat} {openClasses : List (Text × Nat)}
    (h : s ∈ outlineLoop m depths index openClasses lines) :
    ∃ i raw, lines[i]? = some raw ∧ Reported m depths (index + i) raw ∧
      s.start = index + i + 1 ∧ s.stop = braceBlockEnd depths (index + i) := by
  induction lines generalizing index openClasses with
  | nil => cases h
  | cons raw lines ih =>
    -- a symbol of the rest of the lines, one line further on
    have hlater : ∀ {opens}, s ∈ outlineLoop m depths (index + 1) opens lines →
        ∃ i raw', (raw :: lines)[i]? = some raw' ∧ Reported m depths (index + i) raw' ∧
          s.start = index + i + 1 ∧ s.stop = braceBlockEnd depths (index + i) := by
      intro opens hs
      obtain ⟨i, raw', hraw, hreported, hstart, hstop⟩ := ih hs
      have heq : index + 1 + i = index + (i + 1) := by omega
      rw [heq] at hreported hstart hstop
      exact ⟨i + 1, raw', hraw, hreported, hstart, hstop⟩
    unfold outlineLoop at h
    dsimp only at h
    split at h
    · exact hlater h
    next hskip =>
      split at h
      · exact hlater h
      next name kind hm =>
        rcases List.mem_cons.mp h with rfl | h
        · refine ⟨0, raw, rfl, ⟨by simpa using hskip, ?_⟩, rfl, rfl⟩
          rw [Nat.add_zero, hm]
          rfl
        · exact hlater h

theorem outlineLoop_reports {m : Matcher} {depths : List (Nat × Nat)} {lines : List Text}
    {i : Nat} {raw : Text} (index : Nat) (openClasses : List (Text × Nat))
    (hraw : lines[i]? = some raw) (h : Reported m depths (index + i) raw) :
    ∃ s ∈ outlineLoop m depths index openClasses lines,
      s.start = index + i + 1 ∧ s.stop = braceBlockEnd depths (index + i) := by
  induction lines generalizing index openClasses i with
  | nil => cases hraw
  | cons first lines ih =>
    unfold outlineLoop
    dsimp only
    cases i with
    | zero =>
      cases hraw
      obtain ⟨hskip, hm⟩ := h
      rw [if_neg (by rw [hskip]; decide)]
      obtain ⟨⟨name, kind⟩, hm⟩ := Option.isSome_iff_exists.mp hm
      rw [Nat.add_zero] at hm
      rw [hm]
      exact ⟨_, .head _, rfl, rfl⟩
    | succ i =>
      have heq : index + (i + 1) = index + 1 + i := by omega
      rw [heq] at h ⊢
      split
      · exact ih _ _ hraw h
      split
      · exact ih _ _ hraw h
      · obtain ⟨s, hs, hrange⟩ := ih (index + 1) _ hraw h
        exact ⟨s, .tail _ hs, hrange⟩

/-! ## The verdict -/

/-- **The outline of a text is right** exactly when no literal escapes a line end and each
declaration is closed where its depths say. -/
theorem outlined_iff (a : Alphabet) (m : Matcher) (tokens : List Token)
    (bodyOf : Nat → Option (Body tokens)) (hlexed : Lexed a tokens)
    (hstandard : ∀ t ∈ tokens, Token.isStandard t = true) :
    Outlined m tokens bodyOf ↔
      (∀ t ∈ tokens, ¬ Token.escapesLine t) ∧
        ∀ start, Declares m (lineDepths tokens) (textOf tokens) start →
          Closes (lineDepths tokens) start (endLine bodyOf start) := by
  rw [← depthByLine_eq_iff hlexed hstandard]
  refine and_congr_right fun hdepths => ?_
  unfold bracedOutline
  rw [hdepths]
  constructor
  -- every line that declares something is reported, and every symbol is of such a line
  · intro h start hsome
    obtain ⟨index, raw, rfl, hraw, hreported⟩ := hsome
    have hindex : Reported m (lineDepths tokens) (0 + index) raw := by
      rw [Nat.zero_add]
      exact hreported
    obtain ⟨s, hs, hstart, hstop⟩ := outlineLoop_reports 0 [] hraw hindex
    rw [Nat.zero_add] at hstart hstop
    obtain ⟨_, hend⟩ := h s hs
    rw [hstart] at hend
    exact (braceBlockEnd_eq_iff _ _ _).mp (hstop.symm.trans hend)
  · intro h s hs
    obtain ⟨index, raw, hraw, hreported, hstart, hstop⟩ := mem_outlineLoop hs
    rw [Nat.zero_add] at hreported hstart hstop
    have hdeclares : Declares m (lineDepths tokens) (textOf tokens) s.start :=
      ⟨index, raw, hstart, hraw, hreported⟩
    refine ⟨hdeclares, ?_⟩
    have hcloses := h s.start hdeclares
    rw [hstop, hstart] at *
    exact (braceBlockEnd_eq_iff _ _ _).mpr hcloses

/-- `function` and a name, as the patterns of the source take it here. -/
def functions : Matcher := fun stripped _ =>
  if "function ".toList.isPrefixOf stripped then
    some ((stripped.drop 9).takeWhile (· ≠ '('), "function".toList)
  else none

/-- A function with its brace on the line of its name, or behind a line end. -/
def functionTokens (gap : Char) : List Token :=
  [.word "function".toList, .space ' ', .word ['f'], .punctuation '(', .punctuation ')', .space gap,
    .punctuation '{', .space '\n', .punctuation '}', .space '\n']

def functionBody (gap : Char) : Body (functionTokens gap) where
  front := [.word "function".toList, .space ' ', .word ['f'], .punctuation '(', .punctuation ')',
    .space gap]
  inside := [.space '\n']
  back := [.space '\n']
  split := rfl
  nested := rfl

theorem lexed_functionTokens {gap : Char} (h : isSpace gap = true) :
    Lexed asciiAlphabet (functionTokens gap) :=
  ⟨⟨by decide, List.all_iff_forall_prop.mp (by decide)⟩, fun _ _ => trivial,
    (by decide : isSpace ' ' = true), fun _ _ => trivial,
    ⟨by decide, List.all_iff_forall_prop.mp (by decide)⟩, fun _ _ => trivial,
    (by decide : '(' ∈ jsPunctuation), fun _ _ => trivial,
    (by decide : ')' ∈ jsPunctuation), fun _ _ => trivial,
    h, fun _ _ => trivial,
    (by decide : '{' ∈ jsPunctuation), fun _ _ => trivial,
    (by decide : isSpace '\n' = true), fun _ _ => trivial,
    (by decide : '}' ∈ jsPunctuation), fun _ _ => trivial,
    (by decide : isSpace '\n' = true), nofun, trivial⟩

theorem standard_functionTokens (gap : Char) :
    ∀ t ∈ functionTokens gap, Token.isStandard t = true := by
  simp [functionTokens, Token.isStandard]

/-- The brace on the line of the name. -/
theorem outlined_iff_function :
    Outlined functions (functionTokens ' ') fun _ => some (functionBody ' ') := by
  refine (outlined_iff asciiAlphabet functions (functionTokens ' ') _
    (lexed_functionTokens (by decide)) (standard_functionTokens ' ')).mpr ⟨?_, ?_⟩
  · simp [functionTokens, Token.escapesLine]
  · intro start h
    obtain ⟨index, raw, rfl, hraw, _, hm⟩ := h
    have hlines : splitlines (textOf (functionTokens ' ')) =
        ["function f() \x7b".toList, ['}']] := by decide
    rw [hlines] at hraw
    cases index with
    | zero => exact (braceBlockEnd_eq_iff _ 0 _).mp (by decide)
    | succ index =>
      cases index with
      | zero =>
        cases hraw
        exact absurd hm (by decide)
      | succ index => cases hraw

/-- The brace on the line behind the name. -/
theorem brace_on_next_line :
    ¬ ∀ (a : Alphabet) (m : Matcher) (tokens : List Token) (bodyOf : Nat → Option (Body tokens)),
      Lexed a tokens → (∀ t ∈ tokens, Token.isStandard t = true) → nest [] tokens = some [] →
      Outlined m tokens bodyOf := by
  intro h
  obtain ⟨_, hsymbols⟩ := h asciiAlphabet functions (functionTokens '\n')
    (fun _ => some (functionBody '\n')) (lexed_functionTokens (by decide))
    (standard_functionTokens '\n') rfl
  have hfirst : bracedOutline functions (textOf (functionTokens '\n')) =
      [⟨['f'], "function".toList, "function f()".toList, 1, 1, 0⟩] := by decide
  rw [hfirst] at hsymbols
  obtain ⟨_, hend⟩ := hsymbols _ (.head _)
  exact absurd hend (by decide)

end Shamsu.Chat.Outline
