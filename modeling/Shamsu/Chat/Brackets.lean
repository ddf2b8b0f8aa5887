import Shamsu.Py.Search

/-!
# Brackets of a source text

`shamsu/agents/simple_verify.py`: `bracket_problem` counts the brackets of a text
outside strings, comments and regular expressions. Whether a slash starts a regular
expression is told from the last character that is no white space and the last word.

`brackets_balanced`: a text whose brackets nest raises no alarm, and one that ends too
early does, when every slash is told right. White space other than a line end forgets
the word, so a regular expression behind `return` and a blank is read as code.
-/

namespace Shamsu.Chat.Brackets

open Shamsu.Py

/-! ## The scan -/

/-- `_REGEX_AFTER_PUNCTUATION`. -/
def regexAfterPunctuation : List Char := "(,=:[!&|?{};+-*%^~<>".toList

/-- `_REGEX_AFTER_KEYWORD`. -/
def regexAfterKeyword : List Text :=
  ["return", "typeof", "case", "in", "of", "do", "else", "yield", "await", "delete", "void",
    "instanceof", "new"].map String.toList

/-- `str.isalnum`, which is that of ASCII for its characters, and `str.isalpha`. -/
structure Alphabet where
  isAlnum : Char → Bool
  isAlpha : Char → Bool
  ascii : ∀ c : Char, c.toNat < 128 → isAlnum c = c.isAlphanum

/-- The keyword arguments, as they are for JavaScript. -/
structure Options where
  lineComment : Text := "//".toList
  blockComments : Bool := true
  templateStrings : Bool := true
  regexLiterals : Bool := true
  deriving DecidableEq, Repr

/-- `BracketScan`. -/
structure BracketScan where
  fault : Text := []
  openBlocks : List (Char × Nat) := []
  unterminated : Text := []
  unterminatedAt : Nat := 0
  deriving DecidableEq, Repr

/-- The variables of the loop; the innermost bracket is the head of the stack, and
`rest` is the text from `index` on. -/
structure State where
  stack : List (Char × Nat) := []
  line : Nat := 1
  previous : Option Char := none
  word : Text := []
  rest : Text
  deriving DecidableEq, Repr

/-- `_PAIRS`. -/
def closerOf : Char → Option Char
  | '(' => some ')'
  | '[' => some ']'
  | '{' => some '}'
  | _ => none

/-- The keys of `_CLOSERS`. -/
def isCloser (c : Char) : Bool := c == ')' || c == ']' || c == '}'

/-- `_skip_string`, behind the quote: what follows the string, the line there, and
whether it was closed. -/
def skipString (quote : Char) (multiline : Bool) : Nat → Text → Text × Nat × Bool
  | line, [] => ([], line, false)
  | line, ['\\'] => ([], line, false)
  | line, '\\' :: _ :: s => skipString quote multiline line s
  | line, c :: s =>
    if c = quote then (s, line, true)
    -- a string of one line ends with its line, and that is no fault
    else if c = '\n' then
      if multiline then skipString quote multiline (line + 1) s else (c :: s, line, true)
    else skipString quote multiline line s

/-- `_skip_regex`, behind the slash: what follows the literal, if it was closed. -/
def skipRegex (a : Alphabet) : Bool → Text → Option Text
  | _, [] => none
  | _, ['\\'] => none
  | inClass, '\\' :: _ :: s => skipRegex a inClass s
  | inClass, c :: s =>
    if c = '\n' then none
    else if c = '[' then skipRegex a true s
    else if c = ']' then skipRegex a false s
    else if c = '/' ∧ inClass = false then some (s.dropWhile a.isAlpha)
    else skipRegex a inClass s

/-- `_starts_a_regex`. -/
def startsARegex (previous : Option Char) (word : Text) : Bool :=
  match previous with
  | none => true
  | some c => word ∈ regexAfterKeyword || c ∈ regexAfterPunctuation

def number (n : Nat) : Text := Nat.toDigits 10 n

/-- What the loop does with a bracket, before it goes on. -/
def takeBracket (stack : List (Char × Nat)) (line : Nat) (c : Char) :
    Except Text (List (Char × Nat)) :=
  if (closerOf c).isSome then .ok ((c, line) :: stack)
  else if isCloser c then
    match stack with
    | [] =>
      .error ("line ".toList ++ number line ++ ": unexpected ".toList ++ c
        :: " - nothing was open".toList)
    | (opener, openedAt) :: stack =>
      if closerOf opener = some c then .ok stack
      else
        .error ("line ".toList ++ number line ++ ": ".toList ++ c :: " does not close the ".toList
          ++ opener :: " opened on line ".toList ++ number openedAt)
  else .ok stack

/-- The last character that is no white space. -/
def nextPrevious (previous : Option Char) (c : Char) : Option Char :=
  if isSpace c then previous else some c

/-- The last word. -/
def nextWord (a : Alphabet) (word : Text) (c : Char) : Text :=
  if a.isAlnum c || c == '_' then word ++ [c] else []

section Scan

variable (a : Alphabet) (o : Options)

/-- One round of the loop, at `c`: the result, or the state to go on with. -/
def scanStep (s : State) (c : Char) (rest : Text) : BracketScan ⊕ State :=
  -- `word` is left as it is: a word goes on over the line end
  if c = '\n' then .inr { s with line := s.line + 1, rest }
  else if o.lineComment ≠ [] ∧ o.lineComment.isPrefixOf (c :: rest) = true then
    .inr { s with rest := (c :: rest).dropWhile (· ≠ '\n') }
  else if o.blockComments = true ∧ "/*".toList.isPrefixOf (c :: rest) = true then
    match find "*/".toList (rest.drop 1) with
    | none =>
      .inl
        { openBlocks := s.stack.reverse, unterminated := "comment".toList,
          unterminatedAt := s.line }
    | some i =>
      .inr { s with line := s.line + ((rest.drop 1).take i).count '\n', rest := rest.drop (i + 3) }
  else if c = '"' ∨ c = '\'' ∨ o.templateStrings = true ∧ c = '\x60' then
    let (rest, line, closed) := skipString c (o.templateStrings && c == '\x60') s.line rest
    if closed = true then .inr { s with line, previous := some c, word := [], rest }
    else
      .inl
        { openBlocks := s.stack.reverse, unterminated := "string".toList,
          unterminatedAt := line }
  else if o.regexLiterals = true ∧ c = '/' ∧ startsARegex s.previous s.word = true then
    -- a literal that is not closed on its line is passed over as a slash
    .inr { s with previous := some '/', word := [], rest := (skipRegex a false rest).getD rest }
  else
    match takeBracket s.stack s.line c with
    | .error fault => .inl { fault }
    | .ok stack =>
      .inr
        { stack, line := s.line, previous := nextPrevious s.previous c,
          word := nextWord a s.word c, rest }

/-- The loop, as far as `fuel` goes. -/
def scanLoop : Nat → State → BracketScan
  | fuel + 1, s =>
    match s.rest with
    | [] => { openBlocks := s.stack.reverse }
    | c :: rest =>
      match scanStep a o s c rest with
      | .inl result => result
      | .inr s => scanLoop fuel s
  | 0, s => { openBlocks := s.stack.reverse }

/-- The loop from a state on. -/
def scanFrom (s : State) : BracketScan := scanLoop a o (s.rest.length + 1) s

/-- `bracket_scan`. -/
def bracketScan (text : Text) : BracketScan := scanFrom a o { rest := text }

/-- `bracket_problem`. -/
def bracketProblem (text : Text) : Text :=
  let scan := bracketScan a o text
  if scan.fault ≠ [] then scan.fault
  else if scan.unterminated = "comment".toList then
    "unterminated /* comment opened on line ".toList ++ number scan.unterminatedAt
  else
    match scan.openBlocks.getLast?, scan.openBlocks.head? with
    | some (opener, openedAt), some (_, outermost) =>
      let several : Bool := scan.openBlocks.length > 1
      number scan.openBlocks.length ++ " unclosed ".toList ++ opener :: " - ".toList
        ++ (if several then "the innermost was opened on line ".toList
          else "opened on line ".toList)
        ++ number openedAt
        ++ (if several ∧ outermost ≠ openedAt then
            " (outermost on line ".toList ++ number outermost ++ ")".toList
          else [])
        ++ " and the file ends without closing it, so it was cut off mid-block".toList
    | _, _ => []

end Scan

/-! ## Tokens -/

/-- A character of a literal, or a backslash and what it escapes. -/
inductive Piece where
  | plain (c : Char)
  | escaped (c : Char)
  deriving DecidableEq, Repr

def Piece.text : Piece → Text
  | .plain c => [c]
  | .escaped c => ['\\', c]

/-- A piece of a regular expression. -/
inductive RegexPiece where
  | one (piece : Piece)
  /-- A class, in its brackets. -/
  | among (pieces : List Piece)
  deriving DecidableEq, Repr

def RegexPiece.text : RegexPiece → Text
  | .one piece => piece.text
  | .among pieces => '[' :: (pieces.flatMap Piece.text ++ [']'])

/-- The tokens of a JavaScript text, white space included. A number with a point is
two words and a point. -/
inductive Token where
  /-- An identifier, a keyword or a number. -/
  | word (t : Text)
  | punctuation (c : Char)
  /-- A slash that divides. -/
  | slash
  | quoted (quote : Char) (pieces : List Piece)
  | template (pieces : List Piece)
  | lineComment (t : Text)
  | blockComment (t : Text)
  | regex (pieces : List RegexPiece) (flags : Text)
  | space (c : Char)
  deriving DecidableEq, Repr

def Token.text : Token → Text
  | .word t => t
  | .punctuation c => [c]
  | .slash => ['/']
  | .quoted quote pieces => quote :: (pieces.flatMap Piece.text ++ [quote])
  | .template pieces => '\x60' :: (pieces.flatMap Piece.text ++ ['\x60'])
  | .lineComment t => '/' :: '/' :: t
  | .blockComment t => '/' :: '*' :: (t ++ ['*', '/'])
  | .regex pieces flags => '/' :: (pieces.flatMap RegexPiece.text ++ '/' :: flags)
  | .space c => [c]

def textOf (tokens : List Token) : Text := tokens.flatMap Token.text

/-- The characters of a word. -/
def isWordChar (a : Alphabet) (c : Char) : Bool := a.isAlnum c || c == '_' || c == '$'

/-- Punctuation of JavaScript but the slash. -/
def jsPunctuation : List Char := "()[]{}.,;:<>=!+-*%&|^~?@#".toList

/-- The plain characters of a literal are none of these. -/
def Avoids (special : List Char) (pieces : List Piece) : Prop :=
  ∀ c, Piece.plain c ∈ pieces → c ∉ '\\' :: special

/-- A piece of a regular expression as it may stand in one. -/
def RegexPiece.WellFormed : RegexPiece → Prop
  | .one piece => Avoids ['\n', '/', '['] [piece]
  | .among pieces => Avoids ['\n', ']'] pieces

/-- The token is one by itself. -/
def Token.WellFormed (a : Alphabet) : Token → Prop
  | .word t => t ≠ [] ∧ ∀ c ∈ t, isWordChar a c = true
  | .punctuation c => c ∈ jsPunctuation
  | .slash => True
  | .quoted quote pieces => (quote = '"' ∨ quote = '\'') ∧ Avoids [quote, '\n'] pieces
  | .template pieces => Avoids ['\x60'] pieces
  | .lineComment t => '\n' ∉ t
  | .blockComment t => ¬ "*/".toList <:+: t
  | .regex pieces flags =>
    pieces ≠ [] ∧ pieces.head? ≠ some (.one (.plain '*')) ∧ (∀ p ∈ pieces, p.WellFormed) ∧
      ∀ c ∈ flags, a.isAlpha c = true
  | .space c => isSpace c = true

/-- The token ends where it should, when `next` follows. -/
def Token.EndsBefore (a : Alphabet) : Token → Char → Prop
  | .slash, next => next ≠ '/' ∧ next ≠ '*'
  | .lineComment _, next => next = '\n'
  | .regex .., next => a.isAlpha next = false
  | _, _ => True

/-- The tokens are those of their text. -/
def Lexed (a : Alphabet) : List Token → Prop
  | [] => True
  | token :: tokens =>
    token.WellFormed a ∧ (∀ next ∈ (textOf tokens).head?, token.EndsBefore a next) ∧
      Lexed a tokens

/-- White space and comments. -/
def Token.isGap : Token → Bool
  | .lineComment _ | .blockComment _ | .space _ => true
  | _ => false

/-- The last token that is no gap, behind the token. -/
def Token.orLast (token : Token) (last : Option Token) : Option Token :=
  if token.isGap then last else some token

/-- A regular expression stands at the start, behind punctuation that is listed or
behind a keyword that is listed. -/
def Token.Placed (last : Option Token) : Token → Prop
  | .regex .. =>
    match last with
    | none => True
    | some (.punctuation c) => c ∈ regexAfterPunctuation
    | some (.word t) => t ∈ regexAfterKeyword
    | some _ => False
  | _ => True

/-- The tokens stand where they may, `last` before them. -/
def Placed : Option Token → List Token → Prop
  | _, [] => True
  | last, token :: tokens => token.Placed last ∧ Placed (token.orLast last) tokens

/-- The open brackets behind the tokens, the innermost first, when they nest. -/
def nest : List Char → List Token → Option (List Char)
  | stack, [] => some stack
  | stack, .punctuation c :: tokens =>
    if (closerOf c).isSome then nest (c :: stack) tokens
    else if isCloser c then
      match stack with
      | [] => none
      | opener :: stack => if closerOf opener = some c then nest stack tokens else none
    else nest stack tokens
  | stack, _ :: tokens => nest stack tokens

/-- The last character and the last word behind a token. -/
def Token.after (a : Alphabet) (seen : Option Char × Text) : Token → Option Char × Text
  | .word t => (t.foldl nextPrevious seen.1, t.foldl (nextWord a) seen.2)
  | .punctuation c => (nextPrevious seen.1 c, nextWord a seen.2 c)
  | .slash => (nextPrevious seen.1 '/', nextWord a seen.2 '/')
  | .quoted quote _ => (some quote, [])
  | .template _ => (some '\x60', [])
  | .lineComment _ => seen
  | .blockComment _ => seen
  | .regex .. => (some '/', [])
  | .space c => if c = '\n' then seen else (seen.1, nextWord a seen.2 c)

/-- A slash is told by what was seen before it: one that divides comes behind no listed
character and no listed word, and a regular expression behind a keyword has that for
the last word. -/
def Token.Told (last : Option Token) (seen : Option Char × Text) : Token → Prop
  | .slash => startsARegex seen.1 seen.2 = false
  | .regex .. => ∀ t, last = some (.word t) → seen.2 ∈ regexAfterKeyword
  | _ => True

/-- Every slash is told. -/
def Told (a : Alphabet) : Option Token → Option Char × Text → List Token → Prop
  | _, _, [] => True
  | last, seen, token :: tokens =>
    token.Told last seen ∧ Told a (token.orLast last) (token.after a seen) tokens

/-- A token that closes a bracket. -/
def Token.closes : Token → Bool
  | .punctuation c => isCloser c
  | _ => false

/-! ## The loop -/

theorem skipString_length (quote : Char) (multiline : Bool) (line : Nat) (s : Text) :
    (skipString quote multiline line s).1.length ≤ s.length := by
  fun_induction skipString quote multiline line s <;> simp only [List.length_cons] at * <;> omega

theorem skipRegex_length (a : Alphabet) (inClass : Bool) (s s' : Text)
    (h : skipRegex a inClass s = some s') : s'.length ≤ s.length := by
  fun_induction skipRegex a inClass s with
  | case1 => cases h
  | case2 => cases h
  | case3 inClass c s ih => exact Nat.le_trans (ih h) (by simp only [List.length_cons]; omega)
  | case4 => cases h
  | case5 inClass s _ _ _ ih => exact Nat.le_trans (ih h) (Nat.le_succ _)
  | case6 inClass s _ _ _ _ ih => exact Nat.le_trans (ih h) (Nat.le_succ _)
  | case7 inClass c s =>
    cases h
    exact Nat.le_trans (List.dropWhile_sublist _).length_le (Nat.le_succ _)
  | case8 inClass c s _ _ _ _ _ _ ih => exact Nat.le_trans (ih h) (Nat.le_succ _)

section Loop

variable {a : Alphabet} {o : Options} {s s' : State} {c : Char} {rest : Text}

theorem scanStep_length (h : scanStep a o s c rest = .inr s') : s'.rest.length ≤ rest.length := by
  unfold scanStep at h
  split at h
  · cases h
    exact Nat.le_refl _
  next hc =>
    split at h
    · cases h
      rw [List.dropWhile_cons_of_pos (by simpa using hc)]
      exact (List.dropWhile_sublist _).length_le
    split at h
    · split at h
      · cases h
      · cases h
        simp only [List.length_drop]
        omega
    split at h
    · have hlen := skipString_length c (o.templateStrings && c == '\x60') s.line rest
      rcases hskip : skipString c (o.templateStrings && c == '\x60') s.line rest
        with ⟨rest', line, closed⟩
      rw [hskip] at h hlen
      dsimp only at h
      split at h <;> cases h
      exact hlen
    split at h
    · cases h
      cases hr : skipRegex a false rest with
      | none => exact Nat.le_refl _
      | some s' => exact skipRegex_length a false rest s' hr
    split at h <;> cases h
    exact Nat.le_refl _

/-- Every round consumes a character, so the length is fuel enough. -/
theorem scanLoop_fuel {n m : Nat} (hn : s.rest.length < n) (hm : s.rest.length < m) :
    scanLoop a o n s = scanLoop a o m s := by
  induction n generalizing m s with
  | zero => exact absurd hn (Nat.not_lt_zero _)
  | succ n ih =>
    cases m with
    | zero => exact absurd hm (Nat.not_lt_zero _)
    | succ m =>
      unfold scanLoop
      cases hs : s.rest with
      | nil => rfl
      | cons c rest =>
        rw [hs, List.length_cons] at hn hm
        dsimp only
        cases hstep : scanStep a o s c rest with
        | inl result => rfl
        | inr s' =>
          have hlen := scanStep_length hstep
          exact ih (by omega) (by omega)

theorem scanFrom_nil (h : s.rest = []) : scanFrom a o s = { openBlocks := s.stack.reverse } := by
  unfold scanFrom scanLoop
  rw [h]

theorem scanFrom_step (h : s.rest = c :: rest) (hstep : scanStep a o s c rest = .inr s') :
    scanFrom a o s = scanFrom a o s' := by
  have hlen := scanStep_length hstep
  unfold scanFrom
  rw [scanLoop, h]
  dsimp only
  rw [hstep]
  exact scanLoop_fuel (by rw [List.length_cons]; omega) (Nat.lt_succ_self _)

end Loop

/-! ## Literals -/

theorem skipString_cons {quote c : Char} {multiline : Bool} {line : Nat} {s : Text} (h : c ≠ '\\') :
    skipString quote multiline line (c :: s) =
      if c = quote then (s, line, true)
      else if c = '\n' then
        if multiline then skipString quote multiline (line + 1) s else (c :: s, line, true)
      else skipString quote multiline line s := by
  cases s <;> simp [skipString, h]

theorem skipRegex_cons {a : Alphabet} {c : Char} {inClass : Bool} {s : Text} (h : c ≠ '\\') :
    skipRegex a inClass (c :: s) =
      if c = '\n' then none
      else if c = '[' then skipRegex a true s
      else if c = ']' then skipRegex a false s
      else if c = '/' ∧ inClass = false then some (s.dropWhile a.isAlpha)
      else skipRegex a inClass s := by
  cases s <;> simp [skipRegex, h]

theorem Avoids.mono {special special' : List Char} {pieces : List Piece}
    (h : Avoids special pieces) (hsub : special' ⊆ special) : Avoids special' pieces := by
  intro c hc hmem
  exact h c hc (List.cons_subset_cons _ hsub hmem)

/-- A literal is skipped as a whole; a line end in it needs `multiline`. -/
theorem skipString_pieces {quote : Char} {multiline : Bool} {pieces : List Piece} {s : Text}
    (hquote : quote ≠ '\\') (h : Avoids [quote] pieces)
    (hline : multiline = true ∨ Avoids ['\n'] pieces) (line : Nat) :
    ∃ line', skipString quote multiline line (pieces.flatMap Piece.text ++ quote :: s) =
      (s, line', true) := by
  induction pieces generalizing line with
  | nil =>
    refine ⟨line, ?_⟩
    rw [List.flatMap_nil, List.nil_append, skipString_cons hquote, if_pos rfl]
  | cons piece pieces ih =>
    have hrest := ih (fun c hc => h c (.tail _ hc))
      (hline.imp_right fun hline c hc => hline c (.tail _ hc))
    rw [List.flatMap_cons]
    cases piece with
    | escaped c => exact hrest line
    | plain c =>
      have hc := h c (.head _)
      rw [List.mem_cons, List.mem_singleton, not_or] at hc
      simp only [Piece.text, List.cons_append, List.nil_append]
      rw [skipString_cons hc.1, if_neg hc.2]
      split
      next heq =>
        -- a line end among the pieces, which only a template has
        rcases hline with hline | hline
        · rw [if_pos hline]
          exact hrest (line + 1)
        · have hno := hline c (.head _)
          rw [heq] at hno
          exact absurd (by decide) hno
      next => exact hrest line

theorem skipRegex_among {a : Alphabet} {pieces : List Piece} {s : Text}
    (h : Avoids ['\n', ']'] pieces) :
    skipRegex a true (pieces.flatMap Piece.text ++ ']' :: s) = skipRegex a false s := by
  induction pieces with
  | nil => rw [List.flatMap_nil, List.nil_append, skipRegex_cons (by decide)]; rfl
  | cons piece pieces ih =>
    have hrest := ih fun c hc => h c (.tail _ hc)
    rw [List.flatMap_cons]
    cases piece with
    | escaped c => exact hrest
    | plain c =>
      have hc := h c (.head _)
      simp only [List.mem_cons, List.not_mem_nil, or_false, not_or] at hc
      simp only [Piece.text, List.cons_append, List.nil_append]
      rw [skipRegex_cons hc.1, if_neg hc.2.1, if_neg hc.2.2]
      split
      · exact hrest
      · rw [if_neg fun hslash => absurd hslash.2 (by decide)]
        exact hrest

theorem skipRegex_piece {a : Alphabet} {piece : RegexPiece} {s : Text} (h : piece.WellFormed) :
    skipRegex a false (piece.text ++ s) = skipRegex a false s := by
  cases piece with
  | one piece =>
    cases piece with
    | escaped c => rfl
    | plain c =>
      have hc := h c (.head _)
      simp only [List.mem_cons, List.not_mem_nil, or_false, not_or] at hc
      simp only [RegexPiece.text, Piece.text, List.cons_append, List.nil_append]
      rw [skipRegex_cons hc.1, if_neg hc.2.1, if_neg hc.2.2.2]
      split
      · rfl
      · rw [if_neg fun hslash => hc.2.2.1 hslash.1]
  | among pieces =>
    simp only [RegexPiece.text, List.cons_append, List.append_assoc, List.nil_append]
    rw [skipRegex_cons (by decide), if_neg (by decide), if_pos rfl]
    exact skipRegex_among h

/-- A regular expression is skipped as a whole, its flags included. -/
theorem skipRegex_pieces {a : Alphabet} {pieces : List RegexPiece} {flags s : Text}
    (h : ∀ p ∈ pieces, p.WellFormed) (hflags : ∀ c ∈ flags, a.isAlpha c = true)
    (hs : ∀ c ∈ s.head?, a.isAlpha c = false) :
    skipRegex a false (pieces.flatMap RegexPiece.text ++ '/' :: (flags ++ s)) = some s := by
  induction pieces with
  | nil =>
    rw [List.flatMap_nil, List.nil_append, skipRegex_cons (by decide), if_neg (by decide),
      if_neg (by decide), if_neg (by decide), if_pos ⟨rfl, rfl⟩,
      List.dropWhile_append_of_pos hflags]
    cases s with
    | nil => rfl
    | cons c s => rw [List.dropWhile_cons_of_neg (by simp [hs c rfl])]
  | cons piece pieces ih =>
    rw [List.flatMap_cons, List.append_assoc, skipRegex_piece (h piece (.head _))]
    exact ih fun p hp => h p (.tail _ hp)

/-- A comment ends at the first `*/`. -/
theorem find_close {t s : Text} (h : ¬ "*/".toList <:+: t) :
    find "*/".toList (t ++ '*' :: '/' :: s) = some t.length := by
  induction t with
  | nil => exact find_of_opening ⟨s, rfl⟩
  | cons c t ih =>
    rw [List.infix_cons_iff, not_or] at h
    have hno : "*/".toList.isPrefixOf (c :: (t ++ '*' :: '/' :: s)) = false := by
      rw [Bool.eq_false_iff]
      intro hpre
      rw [List.isPrefixOf_iff_prefix] at hpre
      cases t with
      | nil =>
        obtain ⟨post, hpost⟩ := hpre
        cases hpost
      | cons d t =>
        obtain ⟨post, hpost⟩ := hpre
        cases hpost
        exact h.1 ⟨t, rfl⟩
    rw [List.cons_append, find, if_neg (by rw [hno]; decide), ih h.2]
    rfl

theorem drop_close (t s : Text) : (t ++ '*' :: '/' :: s).drop (t.length + 2) = s := by
  rw [← List.drop_drop, List.drop_left]
  rfl

/-! ## Tokens scanned -/

theorem closerOf_of_not_mem {c : Char} (h : c ∉ ['(', '[', '{']) : closerOf c = none := by
  unfold closerOf
  split
  · exact absurd (by decide) h
  · exact absurd (by decide) h
  · exact absurd (by decide) h
  · rfl

theorem isCloser_of_not_mem {c : Char} (h : c ∉ [')', ']', '}']) : isCloser c = false := by
  simpa [isCloser, not_or, and_assoc] using h

theorem takeBracket_other {stack : List (Char × Nat)} {line : Nat} {c : Char}
    (h : c ∉ (['(', '[', '{'] ++ [')', ']', '}'])) : takeBracket stack line c = .ok stack := by
  have hopen : c ∉ ['(', '[', '{'] := fun hc => h (List.mem_append_left [')', ']', '}'] hc)
  have hclose : c ∉ [')', ']', '}'] := fun hc => h (List.mem_append_right ['(', '[', '{'] hc)
  unfold takeBracket
  rw [closerOf_of_not_mem hopen, isCloser_of_not_mem hclose]
  rfl

section Tokens

variable {a : Alphabet} {stack : List (Char × Nat)} {line : Nat} {previous : Option Char}
  {word rest : Text} {c : Char}

/-- A character no literal, no comment and no line end starts with. -/
theorem scanStep_plain (h : c ∉ "\n/\"'\x60".toList) :
    scanStep a {} ⟨stack, line, previous, word, c :: rest⟩ c rest =
      match takeBracket stack line c with
      | .error fault => .inl { fault }
      | .ok stack =>
        .inr ⟨stack, line, nextPrevious previous c, nextWord a word c, rest⟩ := by
  have hc : c ≠ '\n' ∧ c ≠ '/' ∧ c ≠ '"' ∧ c ≠ '\'' ∧ c ≠ '\x60' := by
    simpa [not_or] using h
  obtain ⟨hline, hslash, hdouble, hsingle, hback⟩ := hc
  unfold scanStep
  rw [if_neg hline, if_neg (by simp [Ne.symm hslash]), if_neg (by simp [Ne.symm hslash]),
    if_neg (by simp [hdouble, hsingle, hback]), if_neg (by simp [hslash])]

theorem scan_other (h : c ∉ "\n/\"'\x60".toList) (hb : c ∉ (['(', '[', '{'] ++ [')', ']', '}'])) :
    scanFrom a {} ⟨stack, line, previous, word, c :: rest⟩ =
      scanFrom a {} ⟨stack, line, nextPrevious previous c, nextWord a word c, rest⟩ := by
  refine scanFrom_step rfl ?_
  rw [scanStep_plain h, takeBracket_other hb]

/-- No ASCII character but a letter, a digit, `_` and `$` is part of a word. -/
theorem not_mem_of_isWordChar {special : Text} (h : isWordChar a c = true)
    (hspecial : ∀ d ∈ special,
      d.toNat < 128 ∧ d.isAlphanum = false ∧ (d == '_') = false ∧ (d == '$') = false) :
    c ∉ special := by
  intro hc
  obtain ⟨hascii, halnum, hunder, hdollar⟩ := hspecial c hc
  rw [isWordChar, a.ascii c hascii, halnum, hunder, hdollar] at h
  cases h

theorem scan_word {t : Text} (h : ∀ c ∈ t, isWordChar a c = true) :
    scanFrom a {} ⟨stack, line, previous, word, t ++ rest⟩ =
      scanFrom a {}
        ⟨stack, line, t.foldl nextPrevious previous, t.foldl (nextWord a) word, rest⟩ := by
  induction t generalizing previous word with
  | nil => rfl
  | cons c t ih =>
    have hc := h c (.head _)
    rw [List.cons_append, scan_other
      (not_mem_of_isWordChar hc (List.all_iff_forall_prop.mp (by decide)))
      (not_mem_of_isWordChar hc (List.all_iff_forall_prop.mp (by decide))), ih fun d hd => h d (.tail _ hd)]
    rfl

theorem scan_punctuation {opened : List Char} (h : c ∈ jsPunctuation)
    (hnest : nest (stack.map Prod.fst) [.punctuation c] = some opened) :
    ∃ stack', stack'.map Prod.fst = opened ∧
      scanFrom a {} ⟨stack, line, previous, word, c :: rest⟩ =
        scanFrom a {} ⟨stack', line, nextPrevious previous c, nextWord a word c, rest⟩ := by
  have hplain : c ∉ "\n/\"'\x60".toList := by
    have hall : ∀ d ∈ jsPunctuation, d ∉ "\n/\"'\x60".toList :=
      List.all_iff_forall_prop.mp (by decide)
    exact hall c h
  suffices htake : ∃ stack', stack'.map Prod.fst = opened ∧ takeBracket stack line c = .ok stack' by
    obtain ⟨stack', hopened, htake⟩ := htake
    refine ⟨stack', hopened, scanFrom_step rfl ?_⟩
    rw [scanStep_plain hplain, htake]
  unfold nest at hnest
  unfold takeBracket
  split at hnest
  next hopener =>
    rw [if_pos hopener]
    cases hnest
    exact ⟨_, rfl, rfl⟩
  next hopener =>
    rw [if_neg hopener]
    split at hnest
    next hcloser =>
      rw [if_pos hcloser]
      cases stack with
      | nil => cases hnest
      | cons top stack =>
        obtain ⟨opener, openedAt⟩ := top
        simp only [List.map_cons] at hnest
        split at hnest
        next heq =>
          cases hnest
          exact ⟨stack, rfl, if_pos heq⟩
        next => cases hnest
    next hcloser =>
      rw [if_neg hcloser]
      cases hnest
      exact ⟨stack, rfl, rfl⟩

theorem not_isPrefixOf_pair (c : Char) {d : Char} (h : ∀ next ∈ rest.head?, next ≠ d) :
    ¬ [c, d].isPrefixOf (c :: rest) = true := by
  intro hpre
  obtain ⟨post, hpost⟩ := List.isPrefixOf_iff_prefix.mp hpre
  cases hpost
  exact h d rfl rfl

theorem scan_slash (hrest : ∀ next ∈ rest.head?, next ≠ '/' ∧ next ≠ '*')
    (h : startsARegex previous word = false) :
    scanFrom a {} ⟨stack, line, previous, word, '/' :: rest⟩ =
      scanFrom a {} ⟨stack, line, nextPrevious previous '/', nextWord a word '/', rest⟩ := by
  refine scanFrom_step rfl ?_
  have hline := not_isPrefixOf_pair '/' fun next hnext => (hrest next hnext).1
  have hblock := not_isPrefixOf_pair '/' fun next hnext => (hrest next hnext).2
  unfold scanStep
  rw [if_neg (by decide), if_neg fun hp => hline hp.2, if_neg fun hp => hblock hp.2,
    if_neg (by decide), if_neg (by rw [h]; simp), takeBracket_other (by decide)]

theorem quote_cases {quote : Char} (h : quote ∈ "\"'\x60".toList) :
    quote ≠ '\\' ∧ quote ≠ '\n' ∧ '/' ≠ quote ∧
      (quote = '"' ∨ quote = '\'' ∨ quote = '\x60') := by
  have hall : ∀ d ∈ "\"'\x60".toList, d ≠ '\\' ∧ d ≠ '\n' ∧ '/' ≠ d ∧
      (d = '"' ∨ d = '\'' ∨ d = '\x60') := List.all_iff_forall_prop.mp (by decide)
  exact hall quote h

theorem scan_quoted {quote : Char} {pieces : List Piece} {multiline : Bool}
    (hquote : quote ∈ "\"'\x60".toList) (hmulti : multiline = (quote == '\x60'))
    (h : Avoids [quote] pieces) (hline : multiline = true ∨ Avoids ['\n'] pieces) :
    ∃ line', scanFrom a {} ⟨stack, line, previous, word,
        quote :: (pieces.flatMap Piece.text ++ [quote]) ++ rest⟩ =
      scanFrom a {} ⟨stack, line', some quote, [], rest⟩ := by
  obtain ⟨hback, hnewline, hslash, hany⟩ := quote_cases hquote
  obtain ⟨line', hskip⟩ := skipString_pieces (s := rest) hback h hline line
  refine ⟨line', scanFrom_step List.cons_append ?_⟩
  rw [hmulti] at hskip
  unfold scanStep
  rw [if_neg hnewline, if_neg (by simp [hslash]), if_neg (by simp [hslash]),
    if_pos (by simpa using hany)]
  simp only [List.append_assoc, List.cons_append, List.nil_append, Bool.true_and, hskip, if_true]

/-- A line comment ends at a line end. -/
theorem dropWhile_comment {t : Text} (h : '\n' ∉ t) (hrest : ∀ next ∈ rest.head?, next = '\n') :
    ('/' :: '/' :: t ++ rest).dropWhile (· ≠ '\n') = rest := by
  rw [List.dropWhile_append_of_pos]
  · cases rest with
    | nil => rfl
    | cons c rest => rw [List.dropWhile_cons_of_neg (by simp [hrest c rfl])]
  · intro c hc
    simp only [List.mem_cons] at hc
    rcases hc with rfl | rfl | hc
    · decide
    · decide
    · exact decide_eq_true fun heq => h (by rw [← heq]; exact hc)

theorem scan_lineComment {t : Text} (h : '\n' ∉ t) (hrest : ∀ next ∈ rest.head?, next = '\n') :
    scanFrom a {} ⟨stack, line, previous, word, '/' :: '/' :: t ++ rest⟩ =
      scanFrom a {} ⟨stack, line, previous, word, rest⟩ := by
  refine scanFrom_step List.cons_append ?_
  have hdrop := dropWhile_comment h hrest
  unfold scanStep
  rw [if_neg (by decide), if_pos ⟨by decide, rfl⟩]
  exact congrArg (fun rest => Sum.inr (State.mk stack line previous word rest)) hdrop

theorem scan_blockComment {t : Text} (h : ¬ "*/".toList <:+: t) :
    ∃ line', scanFrom a {} ⟨stack, line, previous, word, '/' :: '*' :: (t ++ ['*', '/']) ++ rest⟩ =
      scanFrom a {} ⟨stack, line', previous, word, rest⟩ := by
  have hfind := find_close (s := rest) h
  have hdrop := drop_close t rest
  refine ⟨line + ((t ++ '*' :: '/' :: rest).take t.length).count '\n',
    scanFrom_step List.cons_append ?_⟩
  unfold scanStep
  rw [if_neg (by decide), if_neg (by simp), if_pos ⟨rfl, rfl⟩]
  simp only [List.cons_append, List.append_assoc, List.nil_append, List.drop_succ_cons,
    List.drop_zero, hfind, hdrop]

theorem scan_regex {pieces : List RegexPiece} {flags : Text}
    (hwf : (Token.regex pieces flags).WellFormed a)
    (hrest : ∀ next ∈ rest.head?, a.isAlpha next = false) (h : startsARegex previous word = true) :
    scanFrom a {} ⟨stack, line, previous, word,
        '/' :: (pieces.flatMap RegexPiece.text ++ '/' :: flags) ++ rest⟩ =
      scanFrom a {} ⟨stack, line, some '/', [], rest⟩ := by
  obtain ⟨hne, hstar, hpieces, hflags⟩ := hwf
  have hskip := skipRegex_pieces hpieces hflags hrest
  refine scanFrom_step List.cons_append ?_
  have hassoc : pieces.flatMap RegexPiece.text ++ '/' :: flags ++ rest =
      pieces.flatMap RegexPiece.text ++ '/' :: (flags ++ rest) := List.append_assoc ..
  rw [hassoc]
  have hhead : ∀ next ∈ (pieces.flatMap RegexPiece.text ++ '/' :: (flags ++ rest)).head?,
      next ≠ '/' ∧ next ≠ '*' := by
    cases pieces with
    | nil => exact absurd rfl hne
    | cons piece pieces =>
      intro next hnext
      cases piece with
      | among pieces => cases hnext; decide
      | one piece =>
        cases piece with
        | escaped c => cases hnext; decide
        | plain c =>
          cases hnext
          have hc := hpieces _ (.head _) next (.head _)
          simp only [List.mem_cons, List.not_mem_nil, or_false, not_or] at hc
          exact ⟨hc.2.2.1, fun heq => hstar (by rw [heq]; rfl)⟩
  generalize pieces.flatMap RegexPiece.text ++ '/' :: (flags ++ rest) = s at hskip hhead
  have hline := not_isPrefixOf_pair '/' fun next hnext => (hhead next hnext).1
  have hblock := not_isPrefixOf_pair '/' fun next hnext => (hhead next hnext).2
  unfold scanStep
  rw [if_neg (by decide), if_neg fun hp => hline hp.2, if_neg fun hp => hblock hp.2,
    if_neg (by decide), if_pos ⟨rfl, rfl, h⟩, hskip]
  rfl

theorem not_mem_of_isSpace {special : Text} (h : isSpace c = true)
    (hspecial : ∀ d ∈ special, isSpace d = false) : c ∉ special := by
  intro hmem
  rw [hspecial c hmem] at h
  cases h

theorem scan_space (h : isSpace c = true) :
    ∃ line', scanFrom a {} ⟨stack, line, previous, word, c :: rest⟩ =
      scanFrom a {} ⟨stack, line', ((Token.space c).after a (previous, word)).1,
        ((Token.space c).after a (previous, word)).2, rest⟩ := by
  by_cases hc : c = '\n'
  · refine ⟨line + 1, scanFrom_step rfl ?_⟩
    simp only [scanStep, Token.after, if_pos hc]
  · have hliteral : c ∉ "\n/\"'\x60".toList :=
      List.not_mem_cons_of_ne_of_not_mem hc
        (not_mem_of_isSpace h (List.all_iff_forall_prop.mp (by decide)))
    refine ⟨line, ?_⟩
    rw [scan_other hliteral (not_mem_of_isSpace h (List.all_iff_forall_prop.mp (by decide)))]
    simp only [Token.after, if_neg hc, nextPrevious, if_pos h]

end Tokens

/-! ## Runs over tokens -/

theorem nest_cons (stack : List Char) (token : Token) (tokens : List Token) :
    nest stack (token :: tokens) = (nest stack [token]).bind (nest · tokens) := by
  cases token with
  | punctuation c =>
    simp only [nest]
    split
    · rfl
    split
    · cases stack with
      | nil => rfl
      | cons opener stack =>
        dsimp only
        split <;> rfl
    · rfl
  | _ => rfl

theorem nest_append (stack : List Char) (front tail : List Token) :
    nest stack (front ++ tail) = (nest stack front).bind (nest · tail) := by
  induction front generalizing stack with
  | nil => rfl
  | cons token front ih =>
    rw [List.cons_append, nest_cons, nest_cons stack token front, Option.bind_assoc]
    exact congrArg _ (funext fun opened => ih opened)

theorem nest_other {stack : List Char} {token : Token} (h : ∀ c, token ≠ .punctuation c) :
    nest stack [token] = some stack := by
  cases token with
  | punctuation c => exact absurd rfl (h c)
  | _ => rfl

/-- What the scan knows of the last token. -/
def Behind : Option Token → Option Char → Prop
  | none, previous => previous = none
  | some (.punctuation c), previous => previous = some c
  | some _, _ => True

theorem Behind.after {a : Alphabet} {last : Option Token} {seen : Option Char × Text}
    {token : Token} (h : Behind last seen.1) (hwf : token.WellFormed a) :
    Behind (token.orLast last) (token.after a seen).1 := by
  cases token with
  | punctuation c =>
    have hall : ∀ d ∈ jsPunctuation, isSpace d = false :=
      List.all_iff_forall_prop.mp (by decide)
    show nextPrevious seen.1 c = some c
    rw [nextPrevious, hall c hwf]
    rfl
  | lineComment t => exact h
  | blockComment t => exact h
  | space c =>
    show Behind last (if c = '\n' then seen else (seen.1, nextWord a seen.2 c)).1
    split <;> exact h
  | _ => trivial

/-- A regular expression that stands where it may is told from what was seen. -/
theorem startsARegex_of_placed {last : Option Token} {seen : Option Char × Text}
    {pieces : List RegexPiece} {flags : Text} (hbehind : Behind last seen.1)
    (hplaced : (Token.regex pieces flags).Placed last)
    (htold : (Token.regex pieces flags).Told last seen) : startsARegex seen.1 seen.2 = true := by
  obtain ⟨previous, word⟩ := seen
  unfold startsARegex
  cases previous with
  | none => rfl
  | some d =>
    cases last with
    | none => cases hbehind
    | some token =>
      cases token with
      | punctuation c =>
        cases hbehind
        rw [Bool.or_eq_true]
        exact .inr (decide_eq_true hplaced)
      -- a word that a literal may follow: this is where the last word must be known
      | word t =>
        rw [Bool.or_eq_true]
        exact .inl (decide_eq_true (htold t rfl))
      | _ => cases hplaced

/-- One token, scanned as a whole. -/
theorem scan_token {a : Alphabet} {token : Token} {last : Option Token}
    {stack : List (Char × Nat)} {line : Nat} {previous : Option Char} {word rest : Text}
    {opened : List Char} (hwf : token.WellFormed a)
    (hrest : ∀ next ∈ rest.head?, token.EndsBefore a next) (hplaced : token.Placed last)
    (htold : token.Told last (previous, word)) (hbehind : Behind last previous)
    (hnest : nest (stack.map Prod.fst) [token] = some opened) :
    ∃ stack' line', stack'.map Prod.fst = opened ∧
      scanFrom a {} ⟨stack, line, previous, word, token.text ++ rest⟩ =
        scanFrom a {} ⟨stack', line', (token.after a (previous, word)).1,
          (token.after a (previous, word)).2, rest⟩ := by
  cases token with
  | punctuation c =>
    exact (scan_punctuation hwf hnest).imp fun stack' h => ⟨line, h⟩
  | word t =>
    cases hnest
    exact ⟨stack, line, rfl, scan_word hwf.2⟩
  | slash =>
    cases hnest
    exact ⟨stack, line, rfl, scan_slash hrest htold⟩
  | quoted quote pieces =>
    cases hnest
    obtain ⟨hquote, hpieces⟩ := hwf
    have hmem : quote ∈ "\"'\x60".toList ∧ (quote == '\x60') = false := by
      rcases hquote with rfl | rfl <;> decide
    exact ⟨stack, (scan_quoted hmem.1 hmem.2.symm (hpieces.mono (by simp))
      (.inr (hpieces.mono (by simp)))).imp fun line' hscan => ⟨rfl, hscan⟩⟩
  | template pieces =>
    cases hnest
    have hmulti : true = (('\x60' : Char) == '\x60') := rfl
    exact ⟨stack, (scan_quoted (by decide) hmulti hwf (.inl rfl)).imp
      fun line' hscan => ⟨rfl, hscan⟩⟩
  | lineComment t =>
    cases hnest
    exact ⟨stack, line, rfl, scan_lineComment hwf hrest⟩
  | blockComment t =>
    cases hnest
    exact ⟨stack, (scan_blockComment hwf).imp fun line' hscan => ⟨rfl, hscan⟩⟩
  | regex pieces flags =>
    cases hnest
    have hstarts := @startsARegex_of_placed last (previous, word) pieces flags hbehind hplaced htold
    exact ⟨stack, line, rfl, scan_regex hwf hrest hstarts⟩
  | space c =>
    cases hnest
    exact ⟨stack, (scan_space hwf).imp fun line' hscan => ⟨rfl, hscan⟩⟩

/-- The tokens of a text, scanned from a state on: the brackets left open. -/
theorem scan_tokens {a : Alphabet} {tokens : List Token} {last : Option Token}
    {stack : List (Char × Nat)} {line : Nat} {seen : Option Char × Text}
    {opened : List Char} (hlexed : Lexed a tokens) (hplaced : Placed last tokens)
    (htold : Told a last seen tokens) (hbehind : Behind last seen.1)
    (hnest : nest (stack.map Prod.fst) tokens = some opened) :
    ∃ stack' : List (Char × Nat), stack'.map Prod.fst = opened ∧
      scanFrom a {} ⟨stack, line, seen.1, seen.2, textOf tokens⟩ =
        { openBlocks := stack'.reverse } := by
  -- the stack of the scan spells the brackets that the tokens have opened
  induction tokens generalizing last stack line seen with
  | nil =>
    cases hnest
    exact ⟨stack, rfl, scanFrom_nil rfl⟩
  | cons token tokens ih =>
    rw [nest_cons, Option.bind_eq_some_iff] at hnest
    obtain ⟨between, htoken, hnest⟩ := hnest
    obtain ⟨hwf, hends, hlexed⟩ := hlexed
    obtain ⟨stack', line', hbetween, hscan⟩ :=
      @scan_token a token last stack line seen.1 seen.2 (textOf tokens) between hwf hends
        hplaced.1 htold.1 hbehind htoken
    rw [← hbetween] at hnest
    obtain ⟨stack'', hopened, hrun⟩ :=
      @ih (token.orLast last) stack' line' (token.after a seen) hlexed hplaced.2 htold.2
        (hbehind.after hwf) hnest
    refine ⟨stack'', hopened, ?_⟩
    rw [textOf, List.flatMap_cons]
    exact hscan.trans hrun

/-- The problem is that brackets are left open. -/
theorem bracketProblem_tokens {a : Alphabet} {tokens : List Token} {opened : List Char}
    (hlexed : Lexed a tokens) (hplaced : Placed none tokens)
    (htold : Told a none (none, []) tokens) (hnest : nest [] tokens = some opened) :
    bracketProblem a {} (textOf tokens) = [] ↔ opened = [] := by
  obtain ⟨stack, hopened, hscan⟩ :=
    @scan_tokens a tokens none [] 1 (none, []) opened hlexed hplaced htold rfl hnest
  have hresult : bracketScan a {} (textOf tokens) = { openBlocks := stack.reverse } := hscan
  unfold bracketProblem
  rw [hresult, ← hopened, List.map_eq_nil_iff]
  dsimp only
  rw [if_neg fun h => h rfl, if_neg (by decide)]
  cases hstack : stack.reverse with
  | nil => exact iff_of_true rfl (List.reverse_eq_nil_iff.mp hstack)
  | cons outermost stack' =>
    refine iff_of_false ?_ fun hnil => by rw [hnil] at hstack; cases hstack
    obtain ⟨last, hlast⟩ : ∃ last, (outermost :: stack').getLast? = some last :=
      ⟨_, List.getLast?_cons⟩
    rw [hlast, List.head?_cons]
    exact List.append_ne_nil_of_right_ne_nil _ (by decide)

/-! ## The end of a text -/

theorem Placed.gaps {last : Option Token} {kept : List Token} (h : ∀ t ∈ kept, t.isGap = true) :
    Placed last kept := by
  induction kept with
  | nil => trivial
  | cons token kept ih =>
    have hgap := h token (.head _)
    refine ⟨?_, ?_⟩
    · cases token <;> trivial
    · rw [Token.orLast, if_pos hgap]
      exact ih fun t ht => h t (.tail _ ht)

theorem Placed.append_gaps {last : Option Token} {front tail kept : List Token}
    (h : Placed last (front ++ tail)) (hkept : ∀ t ∈ kept, t.isGap = true) :
    Placed last (front ++ kept) := by
  induction front generalizing last with
  | nil => exact .gaps hkept
  | cons token front ih => exact ⟨h.1, ih h.2⟩

theorem Told.gaps {a : Alphabet} {last : Option Token} {seen : Option Char × Text}
    {kept : List Token} (h : ∀ t ∈ kept, t.isGap = true) : Told a last seen kept := by
  induction kept generalizing last seen with
  | nil => trivial
  | cons token kept ih =>
    have hgap := h token (.head _)
    refine ⟨?_, ih fun t ht => h t (.tail _ ht)⟩
    cases token <;> trivial

theorem Told.append_gaps {a : Alphabet} {last : Option Token} {seen : Option Char × Text}
    {front tail kept : List Token} (h : Told a last seen (front ++ tail))
    (hkept : ∀ t ∈ kept, t.isGap = true) : Told a last seen (front ++ kept) := by
  induction front generalizing last seen with
  | nil => exact .gaps hkept
  | cons token front ih => exact ⟨h.1, ih h.2⟩

theorem nest_gaps {stack : List Char} {kept : List Token} (h : ∀ t ∈ kept, t.isGap = true) :
    nest stack kept = some stack := by
  induction kept with
  | nil => rfl
  | cons token kept ih =>
    have hgap := h token (.head _)
    rw [nest_cons, nest_other fun c heq => by rw [heq] at hgap; cases hgap]
    exact ih fun t ht => h t (.tail _ ht)

/-- Where closers end a text whose brackets nest, a bracket is open before them. -/
theorem nest_nil_closers {tail : List Token}
    (hend : ∀ t ∈ tail, t.isGap = true ∨ t.closes = true) (hcloses : ∃ t ∈ tail, t.closes = true) :
    nest [] tail = none := by
  induction tail with
  | nil =>
    obtain ⟨t, ht, _⟩ := hcloses
    cases ht
  | cons token tail ih =>
    rw [nest_cons]
    -- the first token that closes finds nothing open
    cases htoken : token.closes with
    | true =>
      cases token with
      | punctuation c =>
        have hopener : (closerOf c).isSome = false := by
          have hc : c = ')' ∨ c = ']' ∨ c = '}' := by
            simpa [Token.closes, isCloser, or_assoc] using htoken
          rcases hc with rfl | rfl | rfl <;> rfl
        have hcloser : isCloser c = true := htoken
        simp only [nest, hopener, hcloser, if_true, Bool.false_eq_true, if_false]
        rfl
      | _ => cases htoken
    | false =>
      have hgap : token.isGap = true :=
        (hend token (.head _)).resolve_right (by rw [htoken]; decide)
      rw [nest_other fun c heq => by rw [heq] at hgap; cases hgap]
      refine ih (fun t ht => hend t (.tail _ ht)) ?_
      obtain ⟨t, ht, hc⟩ := hcloses
      rcases List.mem_cons.mp ht with rfl | ht
      · rw [htoken] at hc; cases hc
      · exact ⟨t, ht, hc⟩

/-! ## The verdict -/

/-- No alarm for the text, and one when closers at its end are missing; `kept` is what
stays of the white space and the comments there. -/
def Balanced (a : Alphabet) (tokens : List Token) : Prop :=
  bracketProblem a {} (textOf tokens) = [] ∧
    ∀ front tail kept, tokens = front ++ tail →
      (∀ t ∈ tail, t.isGap = true ∨ t.closes = true) → (∃ t ∈ tail, t.closes = true) →
      (∀ t ∈ kept, t.isGap = true) → Lexed a (front ++ kept) →
      bracketProblem a {} (textOf (front ++ kept)) ≠ []

/-- A text whose brackets nest and whose slashes are told raises no alarm, and it does
when closers at its end are missing. -/
theorem brackets_balanced (a : Alphabet) (tokens : List Token) (hlexed : Lexed a tokens)
    (hplaced : Placed none tokens) (hnest : nest [] tokens = some [])
    (htold : Told a none (none, []) tokens) : Balanced a tokens := by
  refine ⟨(bracketProblem_tokens hlexed hplaced htold hnest).mpr rfl, ?_⟩
  intro front tail kept htokens hend hcloses hkept hlexed'
  subst htokens
  rw [nest_append, Option.bind_eq_some_iff] at hnest
  obtain ⟨opened, hfront, htail⟩ := hnest
  -- the closers that are missing had brackets to close
  have hopened : opened ≠ [] := by
    intro hnil
    rw [hnil, nest_nil_closers hend hcloses] at htail
    cases htail
  have hnest' : nest [] (front ++ kept) = some opened := by
    rw [nest_append, hfront]
    exact nest_gaps hkept
  intro hno
  exact hopened ((bracketProblem_tokens hlexed' (hplaced.append_gaps hkept)
    (htold.append_gaps hkept) hnest').mp hno)

/-- The letters and digits of ASCII. -/
def asciiAlphabet : Alphabet where
  isAlnum := Char.isAlphanum
  isAlpha := Char.isAlpha
  ascii _ _ := rfl

/-- `(/[(]/,a/2)`. -/
def told : List Token :=
  [.punctuation '(', .regex [.among [.plain '(']] [], .punctuation ',', .word ['a'], .slash,
    .word ['2'], .punctuation ')']

theorem regex_wellFormed : (Token.regex [.among [.plain '(']] []).WellFormed asciiAlphabet := by
  refine ⟨by decide, by decide, ?_, nofun⟩
  intro p hp
  rw [List.mem_singleton.mp hp]
  intro c hc
  cases List.mem_singleton.mp hc
  decide

theorem brackets_balanced_told : Balanced asciiAlphabet told :=
  brackets_balanced asciiAlphabet told
    ⟨(by decide : '(' ∈ jsPunctuation), fun _ _ => trivial,
      regex_wellFormed, (by rintro _ ⟨⟩; rfl),
      (by decide : ',' ∈ jsPunctuation), fun _ _ => trivial,
      ⟨by decide, List.all_iff_forall_prop.mp (by decide)⟩, fun _ _ => trivial,
      trivial, (by rintro _ ⟨⟩; exact ⟨by decide, by decide⟩),
      ⟨by decide, List.all_iff_forall_prop.mp (by decide)⟩, fun _ _ => trivial,
      (by decide : ')' ∈ jsPunctuation), nofun, trivial⟩
    ⟨trivial, (by decide : '(' ∈ regexAfterPunctuation), trivial, trivial, trivial, trivial,
      trivial, trivial⟩
    rfl ⟨trivial, nofun, trivial, trivial, rfl, trivial, trivial, trivial⟩

/-- `return /[(]/`: behind the blank, no word is known. -/
theorem blank_forgets_keyword :
    ¬ ∀ (a : Alphabet) (tokens : List Token), Lexed a tokens → Placed none tokens →
      nest [] tokens = some [] → Balanced a tokens := by
  intro h
  have hbalanced := h asciiAlphabet
    [.word "return".toList, .space ' ', .regex [.among [.plain '(']] []]
    ⟨⟨by decide, List.all_iff_forall_prop.mp (by decide)⟩, fun _ _ => trivial,
      (by decide : isSpace ' ' = true), fun _ _ => trivial, regex_wellFormed, nofun, trivial⟩
    ⟨trivial, trivial, (by decide : "return".toList ∈ regexAfterKeyword), trivial⟩ rfl
  exact absurd hbalanced.1 (by decide)

end Shamsu.Chat.Brackets
