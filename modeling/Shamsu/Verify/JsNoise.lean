import Shamsu.Py.Text

/-!
# JavaScript without its comments and literals

`_strip_js_noise` in `shamsu/verify/wiring.py`: comments are blanked first and literals in what is
left, each with one regular expression.

Comments are looked for in literals too, and a literal with what looks like one loses the rest of
its line. `strip_eq_codeOf`: where no literal has such a text, nor an escaped line break, exactly
the comments and the literals are blanked.
-/

namespace Shamsu.Verify.JsNoise

open Shamsu.Py

/-! ## Blanking -/

/-- `re.sub(r"[^\n]", " ", match.group(0))`. -/
def blank (t : Text) : Text := t.map fun c => if c = '\n' then '\n' else ' '

/-- `sub(blank, text)`, where `skip` is what a match at the start of a text leaves of it. -/
def blankAll (skip : Text → Option Text) : Nat → Text → Text
  | _, [] => []
  | 0, s => s
  | fuel + 1, c :: s =>
    match skip (c :: s) with
    | some rest => blank ((c :: s).take ((c :: s).length - rest.length)) ++ blankAll skip fuel rest
    | none => c :: blankAll skip fuel s

/-- What is behind the first `*/`. -/
def afterClose : Text → Option Text
  | [] => none
  | c :: t => if c = '*' ∧ t.head? = some '/' then some t.tail else afterClose t

/-- `_JS_NOISE`. -/
def commentRest (s : Text) : Option Text :=
  if s.take 2 = ['/', '*'] then afterClose (s.drop 2)
  else if s.take 2 = ['/', '/'] then some ((s.drop 2).dropWhile (· != '\n'))
  else none

def isQuote (c : Char) : Bool := c == '\'' || c == '"' || c == '\x60'

/-- What is behind the quote that closes a literal; `escaped` after a backslash. -/
def bodyRest (quote : Char) : Bool → Text → Option Text
  | _, [] => none
  | true, c :: t => if c = '\n' then none else bodyRest quote false t
  | false, c :: t =>
    if c = '\\' then bodyRest quote true t
    else if c = quote then some t
    else if c = '\n' ∧ quote ≠ '\x60' then none
    else bodyRest quote false t

/-- `_JS_LITERAL`. -/
def literalRest : Text → Option Text
  | [] => none
  | c :: t => if isQuote c then bodyRest c false t else none

/-- `_strip_js_noise`. -/
def stripJsNoise (text : Text) : Text :=
  let code := blankAll commentRest text.length text
  blankAll literalRest code.length code

/-! ## What JavaScript reads -/

/-- A character of the code, a comment, or a literal with its quote. -/
inductive Piece
  | code (c : Char)
  | line (t : Text)
  | block (t : Text)
  | literal (quote : Char) (body : Text)
  deriving DecidableEq, Repr

def Piece.text : Piece → Text
  | .code c => [c]
  | .line t => '/' :: '/' :: t
  | .block t => '/' :: '*' :: (t ++ ['*', '/'])
  | .literal quote body => quote :: (body ++ [quote])

def textOf (ps : List Piece) : Text := ps.flatMap Piece.text

/-- What is between the quotes of a literal: a backslash takes the character behind it, and only a
template goes over a line break. -/
def IsBody (quote : Char) : Bool → Text → Prop
  | escaped, [] => escaped = false
  | true, _ :: t => IsBody quote false t
  | false, c :: t =>
    if c = '\\' then IsBody quote true t
    else c ≠ quote ∧ (c = '\n' → quote = '\x60') ∧ IsBody quote false t

/-- No escaped line break. -/
def Unbroken : Bool → Text → Prop
  | _, [] => True
  | true, c :: t => c ≠ '\n' ∧ Unbroken false t
  | false, c :: t => Unbroken (decide (c = '\\')) t

/-- The pieces are those that JavaScript reads in their text. -/
def Reads : List Piece → Prop
  | [] => True
  | .code c :: ps => isQuote c = false ∧
    (c = '/' → ∀ d ∈ (textOf ps).head?, d ≠ '/' ∧ d ≠ '*') ∧ Reads ps
  | .line t :: ps => '\n' ∉ t ∧ (∀ d ∈ (textOf ps).head?, d = '\n') ∧ Reads ps
  | .block t :: ps => ¬ ['*', '/'] <:+: t ∧ Reads ps
  | .literal quote body :: ps => isQuote quote = true ∧ IsBody quote false body ∧ Reads ps

/-- A literal with nothing that looks like the start of a comment and no escaped line break. -/
def Piece.Clean : Piece → Prop
  | .literal _ body => ¬ ['/', '/'] <:+: body ∧ ¬ ['/', '*'] <:+: body ∧ Unbroken false body
  | _ => True

/-- A piece without its comments. -/
def Piece.uncommented : Piece → Text
  | .line t => blank (Piece.line t).text
  | .block t => blank (Piece.block t).text
  | p => p.text

/-- A piece without its comments and literals. -/
def Piece.bare : Piece → Text
  | .code c => [c]
  | p => blank p.text

/-- The text with exactly the comments and the literals blanked. -/
def codeOf (ps : List Piece) : Text := ps.flatMap Piece.bare

/-! ## One match -/

theorem not_quote_of_blank {t : Text} : ∀ c ∈ blank t, isQuote c = false := by
  intro c hc
  obtain ⟨d, -, rfl⟩ := List.mem_map.mp hc
  show isQuote (if d = '\n' then '\n' else ' ') = false
  split <;> rfl

/-- Where nothing matches in a piece it stays. -/
theorem blankAll_pass {skip : Text → Option Text} {u rest : Text} {fuel : Nat}
    (hfuel : u.length ≤ fuel) (h : ∀ a c b, u = a ++ c :: b → skip (c :: (b ++ rest)) = none) :
    blankAll skip fuel (u ++ rest) = u ++ blankAll skip (fuel - u.length) rest := by
  induction u generalizing fuel with
  | nil => rfl
  | cons c u ih =>
    rw [List.length_cons] at hfuel
    obtain ⟨fuel, rfl⟩ : ∃ n, fuel = n + 1 := ⟨fuel - 1, by omega⟩
    have hrest := ih (Nat.le_of_succ_le_succ hfuel) fun a d b hu =>
      h (c :: a) d b (congrArg (c :: ·) hu)
    have hnone := h [] c u rfl
    have hless : fuel + 1 - (c :: u).length = fuel - u.length := by
      rw [List.length_cons]
      omega
    show blankAll skip (fuel + 1) (c :: (u ++ rest)) = _
    rw [blankAll, hnone, hrest, hless]
    rfl

/-- A match is blanked. -/
theorem blankAll_match {skip : Text → Option Text} {u rest : Text} {fuel : Nat} (hu : u ≠ [])
    (hfuel : u.length ≤ fuel) (h : skip (u ++ rest) = some rest) :
    blankAll skip fuel (u ++ rest) = blank u ++ blankAll skip (fuel - 1) rest := by
  obtain ⟨c, u, rfl⟩ := List.exists_cons_of_ne_nil hu
  rw [List.length_cons] at hfuel
  obtain ⟨fuel, rfl⟩ : ∃ n, fuel = n + 1 := ⟨fuel - 1, by omega⟩
  show blankAll skip (fuel + 1) (c :: (u ++ rest)) = _
  have hlen : (c :: (u ++ rest)).length - rest.length = (c :: u).length := by
    simp only [List.length_cons, List.length_append]
    omega
  rw [blankAll, show skip (c :: (u ++ rest)) = some rest from h]
  show blank ((c :: (u ++ rest)).take ((c :: (u ++ rest)).length - rest.length)) ++ _ = _
  rw [hlen, ← List.cons_append, List.take_left]
  rfl

theorem commentRest_none {s : Text} (hblock : s.take 2 ≠ ['/', '*'])
    (hline : s.take 2 ≠ ['/', '/']) : commentRest s = none := by
  unfold commentRest
  rw [if_neg hblock, if_neg hline]

/-- What does not start with a slash starts no comment. -/
theorem commentRest_of_ne {c : Char} (hc : c ≠ '/') (s : Text) : commentRest (c :: s) = none := by
  apply commentRest_none
  · intro h
    exact hc (List.cons.inj h).1
  · intro h
    exact hc (List.cons.inj h).1

theorem commentRest_line {t rest : Text} (ht : '\n' ∉ t) (hrest : ∀ d ∈ rest.head?, d = '\n') :
    commentRest ((Piece.line t).text ++ rest) = some rest := by
  have hall : ∀ c ∈ t, (c != '\n') = true := by
    intro c hc
    exact bne_iff_ne.mpr (ne_of_mem_of_not_mem hc ht)
  show (if ['/', '/'] = ['/', '*'] then _ else some ((t ++ rest).dropWhile (· != '\n'))) = _
  rw [if_neg (by decide), List.dropWhile_append_of_pos hall]
  cases rest with
  | nil => rfl
  | cons d rest =>
    rw [hrest d rfl]
    rfl

/-- The first `*/` is the one that closes the comment. -/
theorem afterClose_append {t rest : Text} (ht : ¬ ['*', '/'] <:+: t) :
    afterClose (t ++ '*' :: '/' :: rest) = some rest := by
  induction t with
  | nil =>
    show afterClose ('*' :: '/' :: rest) = _
    rw [afterClose, if_pos ⟨rfl, rfl⟩]
    rfl
  | cons c t ih =>
    have hmore := ih fun h => ht (h.trans (List.suffix_cons c t).isInfix)
    show afterClose (c :: (t ++ '*' :: '/' :: rest)) = _
    rw [afterClose, if_neg, hmore]
    intro hclose
    obtain ⟨rfl, hslash⟩ := hclose
    cases t with
    | nil => exact absurd (Option.some.inj hslash) (by decide)
    | cons d t =>
      obtain rfl : d = '/' := Option.some.inj hslash
      exact ht ⟨[], t, rfl⟩

theorem commentRest_block {t rest : Text} (ht : ¬ ['*', '/'] <:+: t) :
    commentRest ((Piece.block t).text ++ rest) = some rest := by
  show (if ['/', '*'] = ['/', '*'] then afterClose ((t ++ ['*', '/']) ++ rest) else _) = _
  rw [if_pos rfl, List.append_assoc]
  exact afterClose_append ht

theorem literalRest_of_not_quote {c : Char} (hc : isQuote c = false) (s : Text) :
    literalRest (c :: s) = none := by
  rw [literalRest, if_neg (by rw [hc]; decide)]

/-- The body of a literal is read to its quote. -/
theorem bodyRest_append {quote : Char} (hquote : quote ≠ '\\') {escaped : Bool} {body : Text}
    (hbody : IsBody quote escaped body) (hunbroken : Unbroken escaped body) (rest : Text) :
    bodyRest quote escaped (body ++ quote :: rest) = some rest := by
  induction body generalizing escaped with
  | nil =>
    obtain rfl : escaped = false := hbody
    show bodyRest quote false (quote :: rest) = _
    rw [bodyRest, if_neg hquote, if_pos rfl]
  | cons c body ih =>
    show bodyRest quote escaped (c :: (body ++ quote :: rest)) = _
    cases escaped with
    | true =>
      obtain ⟨hline, hmore⟩ := hunbroken
      rw [bodyRest, if_neg hline]
      exact ih hbody hmore
    | false =>
      have hmore : Unbroken (decide (c = '\\')) body := hunbroken
      rw [IsBody] at hbody
      by_cases hc : c = '\\'
      · rw [if_pos hc] at hbody
        rw [decide_eq_true hc] at hmore
        rw [bodyRest, if_pos hc]
        exact ih hbody hmore
      · rw [if_neg hc] at hbody
        obtain ⟨hne, hline, hbody⟩ := hbody
        rw [decide_eq_false hc] at hmore
        rw [bodyRest, if_neg hc, if_neg hne, if_neg fun h => h.2 (hline h.1)]
        exact ih hbody hmore

theorem literalRest_literal {quote : Char} {body : Text} (hquote : isQuote quote = true)
    (hbody : IsBody quote false body) (hunbroken : Unbroken false body) (rest : Text) :
    literalRest ((Piece.literal quote body).text ++ rest) = some rest := by
  have hne : quote ≠ '\\' := by
    intro h
    subst h
    exact absurd hquote (by decide)
  show (if isQuote quote then bodyRest quote false ((body ++ [quote]) ++ rest) else none) = _
  rw [if_pos hquote, List.append_assoc]
  exact bodyRest_append hne hbody hunbroken rest

/-- In a clean literal no comment starts. -/
theorem commentRest_in_literal {quote : Char} {body : Text} (hquote : isQuote quote = true)
    (hclean : (Piece.literal quote body).Clean) (rest : Text) {a : Text} {c : Char} {b : Text}
    (h : (Piece.literal quote body).text = a ++ c :: b) :
    commentRest (c :: (b ++ rest)) = none := by
  have hslash : quote ≠ '/' ∧ quote ≠ '*' := by
    constructor
    all_goals
      intro hq
      subst hq
      exact absurd hquote (by decide)
  obtain ⟨hline, hblock, -⟩ := hclean
  by_cases hc : c = '/'
  case neg => exact commentRest_of_ne hc _
  subst hc
  -- the slash is in the body, and so is what would make it open a comment
  have hno : ∀ d, d ≠ quote → (b ++ rest).head? = some d → ['/', d] <:+: body ∨ b = [] := by
    intro d hd hhead
    cases b with
    | nil => exact .inr rfl
    | cons e b =>
      obtain rfl : e = d := Option.some.inj hhead
      refine .inl ?_
      cases a with
      | nil => exact absurd (List.cons.inj h).1 hslash.1
      | cons q a =>
        have hbody : body ++ [quote] = a ++ ('/' :: e :: b) := (List.cons.inj h).2
        cases b using List.reverseRecOn with
        | nil =>
          have hlast : body ++ [quote] = (a ++ ['/']) ++ [e] := by
            rw [hbody, List.append_assoc]
            rfl
          exact absurd (List.cons.inj (List.append_inj' hlast rfl).2).1.symm hd
        | append_singleton b x =>
          have hlast : body ++ [quote] = (a ++ '/' :: e :: b) ++ [x] := by
            rw [hbody, List.append_assoc]
            rfl
          exact ⟨a, b, by rw [(List.append_inj' hlast rfl).1, List.append_assoc]; rfl⟩
  have hb : b ≠ [] := by
    intro hnil
    subst hnil
    have hlast : (quote :: body) ++ [quote] = a ++ ['/'] := h
    exact hslash.1 (List.cons.inj (List.append_inj' hlast rfl).2).1
  have htwo : ∀ d, ('/' :: (b ++ rest)).take 2 = ['/', d] → (b ++ rest).head? = some d := by
    intro d hd
    cases hs : b ++ rest with
    | nil =>
      rw [hs] at hd
      exact absurd (List.cons.inj hd).2 (by simp)
    | cons e s =>
      rw [hs] at hd
      exact congrArg some (List.cons.inj (List.cons.inj hd).2).1
  apply commentRest_none
  · intro hd
    rcases hno '*' hslash.2.symm (htwo '*' hd) with h | h
    · exact hblock h
    · exact hb h
  · intro hd
    rcases hno '/' hslash.1.symm (htwo '/' hd) with h | h
    · exact hline h
    · exact hb h

/-! ## The two passes -/

theorem textOf_cons (p : Piece) (ps : List Piece) : textOf (p :: ps) = p.text ++ textOf ps :=
  List.flatMap_cons

theorem Piece.text_ne_nil (p : Piece) : p.text ≠ [] := by
  cases p <;> exact List.cons_ne_nil _ _

/-- The first pass blanks the comments. -/
theorem uncommented_of_reads {ps : List Piece} (h : Reads ps) (hclean : ∀ p ∈ ps, p.Clean)
    {fuel : Nat} (hfuel : (textOf ps).length ≤ fuel) :
    blankAll commentRest fuel (textOf ps) = ps.flatMap Piece.uncommented := by
  induction ps generalizing fuel with
  | nil => rw [show textOf [] = [] from rfl, blankAll]; rfl
  | cons p ps ih =>
    obtain ⟨hp, hps⟩ := List.forall_mem_cons.mp hclean
    have hlen := List.length_pos_iff.mpr p.text_ne_nil
    rw [textOf_cons, List.length_append] at hfuel
    rw [textOf_cons, List.flatMap_cons]
    cases p with
    | code c =>
      obtain ⟨-, hslash, hreads⟩ := h
      rw [blankAll_pass (by omega), ih hreads hps (by omega)]
      · rfl
      -- one character starts a comment only with the one behind it
      intro a d b hsplit
      obtain ⟨rfl, rfl, rfl⟩ : a = [] ∧ c = d ∧ b = [] := by
        cases a with
        | nil => exact ⟨rfl, (List.cons.inj hsplit).1, (List.cons.inj hsplit).2.symm⟩
        | cons e a => exact absurd (List.cons.inj hsplit).2 (by simp)
      show commentRest (c :: textOf ps) = none
      by_cases hc : c = '/'
      case neg => exact commentRest_of_ne hc _
      have hnext := hslash hc
      cases hs : textOf ps with
      | nil => exact commentRest_none (by simp) (by simp)
      | cons e s =>
        rw [hs] at hnext
        obtain ⟨hline, hblock⟩ := hnext e rfl
        apply commentRest_none
        · intro heq
          exact hblock (List.cons.inj (List.cons.inj heq).2).1
        · intro heq
          exact hline (List.cons.inj (List.cons.inj heq).2).1
    | line t =>
      obtain ⟨ht, hnext, hreads⟩ := h
      rw [blankAll_match (Piece.text_ne_nil _) (by omega) (commentRest_line ht hnext),
        ih hreads hps (by omega)]
      rfl
    | block t =>
      obtain ⟨ht, hreads⟩ := h
      rw [blankAll_match (Piece.text_ne_nil _) (by omega) (commentRest_block ht),
        ih hreads hps (by omega)]
      rfl
    | literal quote body =>
      obtain ⟨hquote, -, hreads⟩ := h
      rw [blankAll_pass (by omega) fun a c b => commentRest_in_literal hquote hp _,
        ih hreads hps (by omega)]
      rfl

/-- In a piece without a quote nothing is blanked by the second pass. -/
theorem literalRest_in_unquoted {u : Text} (hu : ∀ c ∈ u, isQuote c = false) (rest : Text)
    {a : Text} {c : Char} {b : Text} (h : u = a ++ c :: b) :
    literalRest (c :: (b ++ rest)) = none := by
  refine literalRest_of_not_quote (hu c ?_) _
  rw [h]
  exact List.mem_append_right a List.mem_cons_self

/-- The second pass blanks the literals. -/
theorem bare_of_reads {ps : List Piece} (h : Reads ps) (hclean : ∀ p ∈ ps, p.Clean)
    {fuel : Nat} (hfuel : (ps.flatMap Piece.uncommented).length ≤ fuel) :
    blankAll literalRest fuel (ps.flatMap Piece.uncommented) = codeOf ps := by
  induction ps generalizing fuel with
  | nil => rw [show ([] : List Piece).flatMap Piece.uncommented = [] from rfl, blankAll]; rfl
  | cons p ps ih =>
    obtain ⟨hp, hps⟩ := List.forall_mem_cons.mp hclean
    rw [List.flatMap_cons, List.length_append] at hfuel
    rw [List.flatMap_cons, codeOf, List.flatMap_cons]
    have hpass : (∀ c ∈ p.uncommented, isQuote c = false) → p.uncommented = p.bare → Reads ps →
        blankAll literalRest fuel (p.uncommented ++ ps.flatMap Piece.uncommented) =
          p.bare ++ codeOf ps := by
      intro hunquoted hbare hreads
      rw [blankAll_pass (by omega) fun a c b => literalRest_in_unquoted hunquoted _,
        ih hreads hps (by omega), hbare]
    cases p with
    | code c => exact hpass (List.forall_mem_singleton.mpr h.1) rfl h.2.2
    | line t => exact hpass not_quote_of_blank rfl h.2.2
    | block t => exact hpass not_quote_of_blank rfl h.2
    | literal quote body =>
      obtain ⟨hquote, hbody, hreads⟩ := h
      have hlen := List.length_pos_iff.mpr (Piece.text_ne_nil (.literal quote body))
      have huncommented : (Piece.literal quote body).uncommented =
        (Piece.literal quote body).text := rfl
      rw [huncommented] at hfuel
      rw [huncommented, blankAll_match (Piece.text_ne_nil _) (by omega)
        (literalRest_literal hquote hbody hp.2.2 _), ih hreads hps (by omega)]
      rfl

/-- **Exactly the comments and the literals are blanked**, where the literals are clean. -/
theorem strip_eq_codeOf {ps : List Piece} (h : Reads ps) (hclean : ∀ p ∈ ps, p.Clean) :
    stripJsNoise (textOf ps) = codeOf ps := by
  show blankAll literalRest (blankAll commentRest (textOf ps).length (textOf ps)).length
    (blankAll commentRest (textOf ps).length (textOf ps)) = _
  rw [uncommented_of_reads h hclean (Nat.le_refl _)]
  exact bare_of_reads h hclean (Nat.le_refl _)

end Shamsu.Verify.JsNoise
