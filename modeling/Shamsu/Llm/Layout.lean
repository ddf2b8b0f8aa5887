import Shamsu.Py.Text

/-!
# Decoding an escaped layout

`_decode_escaped_layout` of `shamsu/llm/output.py`: a payload that came with `\n` in the place of
its line breaks is decoded, but for the escapes inside the quoted literals of the source that it
carries. What the decoder takes for a literal is decided by the quotes alone, in any language.

`decodes_iff` says exactly which source texts survive one layer of escaping: those whose literals
hold no line break and no doubled backslash, and which have no escape of their own outside them.
-/

namespace Shamsu.Llm.Layout

open Shamsu.Py

def isQuote (c : Char) : Bool := c == '\'' || c == '"' || c == '\x60'

/-- The quote after a character inside a literal. -/
def quoteAfter (quote : Char) (escaped : Bool) (c : Char) : Option Char :=
  if escaped then some quote
  else if c = '\\' then some quote
  else if c = quote then none
  else some quote

@[simp] theorem quoteAfter_slash (quote : Char) (escaped : Bool) :
    quoteAfter quote escaped '\\' = some quote := by
  cases escaped with
  | false => rfl
  | true => rfl

/-- Whether the character after it is escaped. -/
def escapedAfter (escaped : Bool) (c : Char) : Bool := !escaped && c == '\\'

/-- The loop of `_decode_escaped_layout`, from the quote it is in. -/
def decodeFrom : Option Char → Bool → Text → Text
  | _, _, [] => []
  | some q, _, '\\' :: '\\' :: rest => '\\' :: decodeFrom (some q) false rest
  | some q, escaped, c :: rest =>
    c :: decodeFrom (quoteAfter q escaped c) (escapedAfter escaped c) rest
  | none, escaped, '\\' :: 'r' :: '\\' :: 'n' :: rest => '\n' :: decodeFrom none escaped rest
  | none, escaped, '\\' :: 'n' :: rest => '\n' :: decodeFrom none escaped rest
  | none, escaped, '\\' :: 't' :: rest => '\t' :: decodeFrom none escaped rest
  | none, escaped, c :: rest =>
    c :: decodeFrom (if isQuote c then some c else none) escaped rest

section

-- the equations of the loop, made once for the theorems below
attribute [local simp] decodeFrom

end

def decodeEscapedLayout (value : Text) : Text := decodeFrom none false value

/-- One layer of escaping: each newline is a backslash and an `n`. -/
def escapeNewlines : Text → Text
  | [] => []
  | c :: t => if c = '\n' then '\\' :: 'n' :: escapeNewlines t else c :: escapeNewlines t

/-! ## What survives -/

/-- What behind a backslash outside of literals is decoded, in a text that is yet to be escaped. -/
def IsEscape : Text → Prop
  | 'n' :: _ => True
  | 't' :: _ => True
  | 'r' :: '\n' :: _ => True
  | 'r' :: '\\' :: 'n' :: _ => True
  | _ => False

/-- A text of which the decoder changes nothing but the line breaks: there is none inside a
literal, nor a doubled backslash, and outside there is nothing that reads as an escape. -/
def Survives (quote : Option Char) (escaped : Bool) : Text → Prop
  | [] => True
  | c :: t =>
    match quote with
    | some q =>
      c ≠ '\n' ∧ ¬ (c = '\\' ∧ t.head? = some '\\') ∧
        Survives (quoteAfter q escaped c) (escapedAfter escaped c) t
    | none =>
      if isQuote c then Survives (some c) escaped t
      else ¬ (c = '\\' ∧ IsEscape t) ∧ Survives none escaped t

@[simp] theorem escapeNewlines_newline (t : Text) :
    escapeNewlines ('\n' :: t) = '\\' :: 'n' :: escapeNewlines t := rfl

theorem escapeNewlines_cons {c : Char} (h : c ≠ '\n') (t : Text) :
    escapeNewlines (c :: t) = c :: escapeNewlines t := if_neg h

section Decode

variable {q c d : Char} {escaped : Bool} {t : Text}

theorem decode_pair : decodeFrom (some q) escaped ('\\' :: '\\' :: t) =
    '\\' :: decodeFrom (some q) false t := by
  rw [decodeFrom]

theorem decode_inside (h : ¬ (c = '\\' ∧ t.head? = some '\\')) :
    decodeFrom (some q) escaped (c :: t) =
      c :: decodeFrom (quoteAfter q escaped c) (escapedAfter escaped c) t := by
  rw [decodeFrom]
  intro rest hc ht
  exact h ⟨hc, by rw [ht]; rfl⟩

theorem decode_newline :
    decodeFrom none escaped ('\\' :: 'n' :: t) = '\n' :: decodeFrom none escaped t := by
  rw [decodeFrom]

theorem decode_plain (hslash : c ≠ '\\') :
    decodeFrom none escaped (c :: t) =
      c :: decodeFrom (if isQuote c then some c else none) escaped t := by
  rw [decodeFrom]
  · intro rest hc _
    exact hslash hc
  · intro rest hc _
    exact hslash hc
  · intro rest hc _
    exact hslash hc

/-- Only a backslash may come from elsewhere. -/
theorem escapeNewlines_eq_cons {rest : Text} (hd : d ≠ '\\') (h : escapeNewlines t = d :: rest) :
    ∃ t', t = d :: t' ∧ escapeNewlines t' = rest := by
  cases t with
  | nil => cases h
  | cons c t =>
    by_cases hc : c = '\n'
    · rw [hc, escapeNewlines_newline] at h
      exact absurd (List.cons.inj h).1.symm hd
    · rw [escapeNewlines_cons hc] at h
      obtain ⟨hhead, htail⟩ := List.cons.inj h
      exact ⟨t, by rw [hhead], htail⟩

/-- A backslash outside of literals that begins no escape is itself. -/
theorem decode_backslash (h : ¬ IsEscape t) :
    decodeFrom none escaped ('\\' :: escapeNewlines t) =
      '\\' :: decodeFrom none escaped (escapeNewlines t) := by
  rw [decodeFrom, if_neg (by decide)]
  · intro rest _ ht
    obtain ⟨t, rfl, hafter⟩ := escapeNewlines_eq_cons (by decide) ht
    cases t with
    | nil => cases hafter
    | cons c t =>
      by_cases hc : c = '\n'
      · rw [hc] at h
        exact h trivial
      · rw [escapeNewlines_cons hc] at hafter
        obtain ⟨hslash, hafter⟩ := List.cons.inj hafter
        obtain ⟨t, rfl, _⟩ := escapeNewlines_eq_cons (by decide) hafter
        rw [hslash] at h
        exact h trivial
  · intro rest _ ht
    obtain ⟨t, rfl, _⟩ := escapeNewlines_eq_cons (by decide) ht
    exact h trivial
  · intro rest _ ht
    obtain ⟨t, rfl, _⟩ := escapeNewlines_eq_cons (by decide) ht
    exact h trivial

/-- One that does is not. -/
theorem decode_escape (h : IsEscape t) {rest : Text} :
    decodeFrom none escaped ('\\' :: escapeNewlines t) ≠ '\\' :: rest := by
  intro heq
  unfold IsEscape at h
  split at h
  · rw [escapeNewlines_cons (by decide), decodeFrom] at heq
    exact absurd (List.cons.inj heq).1 (by decide)
  · rw [escapeNewlines_cons (by decide), decodeFrom] at heq
    exact absurd (List.cons.inj heq).1 (by decide)
  · rw [escapeNewlines_cons (by decide), escapeNewlines_newline, decodeFrom] at heq
    exact absurd (List.cons.inj heq).1 (by decide)
  · rw [escapeNewlines_cons (by decide), escapeNewlines_cons (by decide),
      escapeNewlines_cons (by decide), decodeFrom] at heq
    exact absurd (List.cons.inj heq).1 (by decide)
  · exact h

end Decode

theorem head_replicate {a b x : Char} {k : Nat} {l rest : Text}
    (h : x :: rest = List.replicate k a ++ b :: l) : x = a ∨ x = b := by
  cases k with
  | zero => exact .inr (List.cons.inj h).1
  | succ k => exact .inl (List.cons.inj h).1

/-- Inside a literal no backslash is added: a text with more of them in front does not come back. -/
theorem decode_short {q : Char} (n : Nat) : ∀ {t : Text}, t.length ≤ n → ∀ k,
    decodeFrom (some q) false (escapeNewlines t) ≠ List.replicate (k + 1) '\\' ++ t := by
  induction n with
  | zero =>
    intro t hlen k heq
    have hnil : t = [] := List.eq_nil_of_length_eq_zero (Nat.le_zero.mp hlen)
    subst hnil
    cases heq
  | succ n ih =>
    intro t hlen k heq
    rw [List.replicate_succ, List.cons_append] at heq
    cases t with
    | nil => cases heq
    | cons c t =>
      by_cases hnewline : c = '\n'
      · -- the `n` of the escape stands where a backslash or the line break would have to
        rw [hnewline, escapeNewlines_newline, decode_inside (by intro h; cases h.2)] at heq
        have htail := (List.cons.inj heq).2
        rw [quoteAfter_slash, decode_inside (by intro h; exact absurd h.1 (by decide))] at htail
        rcases head_replicate htail with hn | hn
        · exact absurd hn (by decide)
        · exact absurd hn (by decide)
      · rw [escapeNewlines_cons hnewline] at heq
        by_cases hslash : c = '\\'
        · subst hslash
          cases t with
          | nil =>
            have hlength := congrArg List.length heq
            rw [List.length_cons, List.length_append, List.length_replicate] at hlength
            exact absurd hlength (by show ¬ (1 = k + 1 + 1); omega)
          | cons d t =>
            by_cases hd : d = '\\'
            · -- the pair is one backslash, so there is one more to be made up for
              subst hd
              rw [escapeNewlines_cons (by decide), decode_pair] at heq
              refine ih (t := t) (by simp only [List.length_cons] at hlen; omega) (k + 1)
                ((List.cons.inj heq).2.trans ?_)
              rw [List.replicate_succ', List.replicate_succ', List.append_assoc,
                List.append_assoc]
              rfl
            · by_cases hbreak : d = '\n'
              · -- the backslash pairs with the one of the escape, and the `n` is left over
                rw [hbreak, escapeNewlines_newline, decode_pair,
                  decode_inside (by intro h; exact absurd h.1 (by decide))] at heq
                rcases head_replicate (List.cons.inj heq).2 with hn | hn
                · exact absurd hn (by decide)
                · exact absurd hn (by decide)
              · rw [escapeNewlines_cons hbreak, decode_inside (by
                  intro h
                  exact hd (Option.some.inj h.2)), quoteAfter_slash, decode_inside (by
                  intro h
                  exact hd h.1)] at heq
                rcases head_replicate (List.cons.inj heq).2 with hn | hn
                · exact hd hn
                · exact hd hn
        · rw [decode_inside (by intro h; exact hslash h.1)] at heq
          exact hslash (List.cons.inj heq).1

/-- Inside a literal. -/
theorem decode_some_iff {q c : Char} {escaped : Bool} {t : Text}
    (ih : ∀ quote escaped, decodeFrom quote escaped (escapeNewlines t) = t ↔
      Survives quote escaped t) :
    decodeFrom (some q) escaped (escapeNewlines (c :: t)) = c :: t ↔
      Survives (some q) escaped (c :: t) := by
  by_cases hnewline : c = '\n'
  · -- the two characters of the escape stay
    subst hnewline
    rw [escapeNewlines_newline, decode_inside (by intro h; cases h.2)]
    apply iff_of_false
    · intro heq
      exact absurd (List.cons.inj heq).1 (by decide)
    · intro hsurvives
      exact hsurvives.1 rfl
  · rw [escapeNewlines_cons hnewline]
    by_cases hpair : c = '\\' ∧ t.head? = some '\\'
    · -- a pair loses one of its backslashes, and none is added behind it
      obtain ⟨hc, ht⟩ := hpair
      obtain ⟨rest, rfl⟩ : ∃ rest, t = '\\' :: rest := by
        cases t with
        | nil => cases ht
        | cons d rest => exact ⟨rest, by rw [Option.some.inj ht]⟩
      rw [hc, escapeNewlines_cons (by decide), decode_pair]
      apply iff_of_false
      · intro heq
        exact decode_short rest.length (Nat.le_refl _) 0 (List.cons.inj heq).2
      · intro hsurvives
        exact hsurvives.2.1 ⟨rfl, rfl⟩
    · by_cases hbreak : c = '\\' ∧ t.head? = some '\n'
      · -- a continued line: its backslash pairs with the one of the escape
        obtain ⟨hc, ht⟩ := hbreak
        obtain ⟨rest, rfl⟩ : ∃ rest, t = '\n' :: rest := by
          cases t with
          | nil => cases ht
          | cons d rest => exact ⟨rest, by rw [Option.some.inj ht]⟩
        rw [hc, escapeNewlines_newline, decode_pair,
          decode_inside (by intro h; exact absurd h.1 (by decide))]
        apply iff_of_false
        · intro heq
          exact absurd (List.cons.inj (List.cons.inj heq).2).1 (by decide)
        · intro hsurvives
          have hrest := hsurvives.2.2
          rw [quoteAfter_slash] at hrest
          exact hrest.1 rfl
      · have hinside : ¬ (c = '\\' ∧ (escapeNewlines t).head? = some '\\') := by
          intro h
          cases t with
          | nil => cases h.2
          | cons d t =>
            by_cases hd : d = '\n'
            · exact hbreak ⟨h.1, by rw [hd]; rfl⟩
            · rw [escapeNewlines_cons hd] at h
              exact hpair h
        rw [decode_inside hinside, List.cons_eq_cons]
        constructor
        · intro heq
          exact ⟨hnewline, hpair, (ih _ _).mp heq.2⟩
        · intro hsurvives
          exact ⟨rfl, (ih _ _).mpr hsurvives.2.2⟩

/-- Outside of literals. -/
theorem decode_none_iff {c : Char} {escaped : Bool} {t : Text}
    (ih : ∀ quote escaped, decodeFrom quote escaped (escapeNewlines t) = t ↔
      Survives quote escaped t) :
    decodeFrom none escaped (escapeNewlines (c :: t)) = c :: t ↔
      Survives none escaped (c :: t) := by
  have hunquoted : ∀ c, isQuote c = false →
      (Survives none escaped (c :: t) ↔
        ¬ (c = '\\' ∧ IsEscape t) ∧ Survives none escaped t) := by
    intro c hc
    rw [Survives, if_neg (by rw [hc]; decide)]
  by_cases hnewline : c = '\n'
  · subst hnewline
    rw [escapeNewlines_newline, decode_newline, hunquoted '\n' (by decide), List.cons_eq_cons, ih]
    constructor
    · intro h
      exact ⟨fun hslash => absurd hslash.1 (by decide), h.2⟩
    · intro h
      exact ⟨rfl, h.2⟩
  · rw [escapeNewlines_cons hnewline]
    by_cases hslash : c = '\\'
    · subst hslash
      rw [hunquoted '\\' (by decide)]
      -- behind a backslash it depends on what it would be the start of
      by_cases hescape : IsEscape t
      · exact iff_of_false (decode_escape hescape) fun h => h.1 ⟨rfl, hescape⟩
      · rw [decode_backslash hescape, List.cons_eq_cons, ih]
        constructor
        · intro h
          exact ⟨fun hboth => hescape hboth.2, h.2⟩
        · intro h
          exact ⟨rfl, h.2⟩
    · rw [decode_plain hslash, List.cons_eq_cons, ih]
      cases hquote : isQuote c with
      | true =>
        rw [Survives, if_pos rfl, if_pos hquote]
        exact and_iff_right rfl
      | false =>
        rw [hunquoted c hquote, if_neg (by decide)]
        constructor
        · intro h
          exact ⟨fun hboth => hslash hboth.1, h.2⟩
        · intro h
          exact ⟨rfl, h.2⟩

theorem decodeFrom_iff {quote : Option Char} {escaped : Bool} {t : Text} :
    decodeFrom quote escaped (escapeNewlines t) = t ↔ Survives quote escaped t := by
  induction t generalizing quote escaped with
  | nil =>
    cases quote with
    | none => exact iff_of_true rfl trivial
    | some q => exact iff_of_true rfl trivial
  | cons c t ih =>
    cases quote with
    | none => exact decode_none_iff fun quote escaped => ih
    | some q => exact decode_some_iff fun quote escaped => ih

/-- **One layer is undone** for the texts that survive, and for no others. -/
theorem decodes_iff (source : Text) :
    decodeEscapedLayout (escapeNewlines source) = source ↔ Survives none false source :=
  decodeFrom_iff

theorem apostrophe_keeps_layout : ¬ ∀ source : Text, '\n' ∈ source →
    decodeEscapedLayout (escapeNewlines source) = source := by
  intro h
  exact absurd (h "# don't\nx = 1\n".toList (by decide)) (by decide)

end Shamsu.Llm.Layout
