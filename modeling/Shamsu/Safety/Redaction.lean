import Shamsu.Lib.Choices
import Shamsu.Lib.Substitute
import Shamsu.Py.Text

/-!
# What is taken for a secret

`SECRET_PATTERNS` and `redact` of `shamsu/safety/commands.py`. A part of a pattern gives what
can be left after it, in the order in which the ways are tried; the patterns are read with
`IGNORECASE`.

Each pattern begins with two characters of its own: `heads` are all of these, and a text
without one of them at any place is left as it is.
-/

namespace Shamsu.Safety.Redaction

open Shamsu.Lib Shamsu.Py

/-! ## Parts of a pattern -/

abbrev Part := Text → List Text

/-- A character as `IGNORECASE` compares it: four others are letters to it. -/
def fold (c : Char) : Char :=
  if 'A' ≤ c ∧ c ≤ 'Z' then Char.ofNat (c.toNat + 32)
  else if c = '\u0130' ∨ c = '\u0131' then 'i'
  else if c = '\u212a' then 'k'
  else if c = '\u017f' then 's'
  else c

/-- Just these characters, in either case. -/
def wordFrom : Text → Part
  | [], s => [s]
  | _ :: _, [] => []
  | p :: word, c :: s => if fold c = fold p then wordFrom word s else []

def word (w : String) : Part := wordFrom w.toList

def oneOf (p : Char → Bool) : Part
  | [] => []
  | c :: s => if p c then [s] else []

/-- `p*` and `p*?`. -/
def many (p : Char → Bool) : Part := fun s => (greedy p s).map Prod.snd

def fewest (p : Char → Bool) : Part := fun s => (lazily p s).map Prod.snd

/-- One part after the other. -/
def sequence : List Part → Part
  | [], s => [s]
  | part :: parts, s => (part s).flatMap (sequence parts)

def either (parts : List Part) : Part := fun s => parts.flatMap fun part => part s

def optional (part : Part) : Part := fun s => part s ++ [s]

/-- `p{n}` and `p{n,}`. -/
def times (n : Nat) (p : Char → Bool) : Part := sequence (List.replicate n (oneOf p))

def atLeast (n : Nat) (p : Char → Bool) : Part := sequence [times n p, many p]

/-! ## `SECRET_PATTERNS` -/

/-- `[a-zA-Z0-9]`. -/
def isAlnum (c : Char) : Bool :=
  ('0' ≤ c && c ≤ '9') || ('a' ≤ fold c && fold c ≤ 'z')

/-- `.`. -/
def isAny (c : Char) : Bool := c != '\n'

def notDash (c : Char) : Bool := c != '-'

def notAt (c : Char) : Bool := c != '@'

def isQuote (c : Char) : Bool := c == '\'' || c == '"'

/-- `[^\s'\";,)]`. -/
def isValueChar (c : Char) : Bool :=
  !isSpace c && c != '\'' && c != '"' && c != ';' && c != ',' && c != ')'

/-- `name\s*=\s*['\"][^'\"]+`. -/
def assigned (name : String) : Part :=
  sequence [word name, many isSpace, word "=", many isSpace, oneOf isQuote,
    atLeast 1 fun c => !isQuote c]

/-- `"name"\s*:\s*"[^"]+"`. -/
def quoted (name : String) : Part :=
  sequence [wordFrom ('"' :: (name.toList ++ ['"'])), many isSpace, word ":", many isSpace, word "\"",
    atLeast 1 (· != '"'), word "\""]

/-- What comes after the scheme: `[^@]*:[^@]*@`. -/
def credentials : List Part := [many notAt, word ":", many notAt, word "@"]

/-- `-----BEGIN.*PRIVATE KEY`. -/
def keyBegin : List Part := [word "-----BEGIN", many isAny, word "PRIVATE KEY"]

/-- `-` or `_`, if there is one. -/
def dash : Part := optional (oneOf fun c => c == '-' || c == '_')

/-- The names of an assignment without quotes. -/
def secretNames : List (List Part) :=
  [[word "api", dash, word "key"], [word "secret", dash, word "key"],
    [word "access", dash, word "token"], [word "refresh", dash, word "token"],
    [word "client", dash, word "secret"], [word "password"], [word "passwd"], [word "secret"],
    [word "token"]]

def secretPatterns : List Part :=
  [sequence [word "AKIA", times 16 isAlnum],
    sequence [word "sk-", atLeast 32 isAlnum],
    sequence [word "ghp_", times 36 isAlnum],
    sequence (keyBegin ++ [many notDash, word "-----", oneOf fun _ => true, fewest fun _ => true,
      word "-----END", many isAny, word "PRIVATE KEY", many notDash, word "-----"]),
    sequence keyBegin,
    assigned "password", quoted "password", assigned "api_key", quoted "api_key",
    assigned "secret", quoted "secret", assigned "token", quoted "token",
    assigned "SECRET_KEY", quoted "SECRET_KEY",
    sequence [word "authorization", many isSpace, word ":", many isSpace,
      either [word "Bearer", word "Basic", word "Token"], atLeast 1 isSpace,
      atLeast 1 fun c => !isSpace c],
    quoted "authorization",
    sequence (word "postgresql://" :: credentials),
    sequence (word "mysql://" :: credentials),
    sequence (word "mongodb" :: optional (word "+srv") :: word "://" :: credentials),
    sequence [either (secretNames.map sequence), many isSpace, oneOf fun c => c == '=' || c == ':',
      many isSpace, atLeast 4 isValueChar]]

def redacted : Text := "[REDACTED]".toList

/-- A match at the beginning of a text. -/
def first (pattern : Part) : Text → Option Text := fun s => (pattern s).head?

/-- `redact`. -/
def redact (text : Text) : Text := substituteAll redacted (secretPatterns.map first) text

/-! ## What a pattern begins with -/

/-- Nothing is put in front. -/
def Shortens (part : Part) : Prop := ∀ s, ∀ rest ∈ part s, rest.length ≤ s.length

@[simp] theorem shortens_wordFrom (w : Text) : Shortens (wordFrom w) := by
  intro s rest h
  induction w generalizing s with
  | nil => rw [List.mem_singleton.mp h]
  | cons p w ih =>
    cases s with
    | nil => cases h
    | cons c s =>
      rw [wordFrom] at h
      split at h
      · exact Nat.le_succ_of_le (ih s h)
      · cases h

@[simp] theorem shortens_word (w : String) : Shortens (word w) := shortens_wordFrom _

@[simp] theorem shortens_oneOf (p : Char → Bool) : Shortens (oneOf p) := by
  intro s rest h
  cases s with
  | nil => cases h
  | cons c s =>
    rw [oneOf] at h
    split at h
    · rw [List.mem_singleton.mp h]
      exact Nat.le_succ _
    · cases h

@[simp] theorem shortens_many (p : Char → Bool) : Shortens (many p) := by
  intro s rest h
  obtain ⟨way, hway, rfl⟩ := List.mem_map.mp h
  rw [(mem_greedy hway).1, List.length_append]
  exact Nat.le_add_left _ _

@[simp] theorem shortens_fewest (p : Char → Bool) : Shortens (fewest p) := by
  intro s rest h
  obtain ⟨way, hway, rfl⟩ := List.mem_map.mp h
  rw [(mem_lazily_iff.mp hway).1, List.length_append]
  exact Nat.le_add_left _ _

theorem shortens_sequence {parts : List Part} (h : ∀ part ∈ parts, Shortens part) :
    Shortens (sequence parts) := by
  induction parts with
  | nil =>
    intro s rest hrest
    rw [List.mem_singleton.mp hrest]
  | cons part parts ih =>
    obtain ⟨hpart, hparts⟩ := List.forall_mem_cons.mp h
    intro s rest hrest
    obtain ⟨mid, hmid, hafter⟩ := List.mem_flatMap.mp hrest
    exact (ih hparts mid rest hafter).trans (hpart s mid hmid)

theorem shortens_either {parts : List Part} (h : ∀ part ∈ parts, Shortens part) :
    Shortens (either parts) := by
  intro s rest hrest
  obtain ⟨part, hpart, hrest⟩ := List.mem_flatMap.mp hrest
  exact h part hpart s rest hrest

theorem shortens_optional {part : Part} (h : Shortens part) :
    Shortens (optional part) := by
  intro s rest hrest
  rcases List.mem_append.mp hrest with hrest | hrest
  · exact h s rest hrest
  · rw [List.mem_singleton.mp hrest]

@[simp] theorem shortens_dash : Shortens dash := shortens_optional (shortens_oneOf _)

@[simp] theorem shortens_times (n : Nat) (p : Char → Bool) : Shortens (times n p) := by
  refine shortens_sequence fun part hpart => ?_
  rw [List.eq_of_mem_replicate hpart]
  exact shortens_oneOf p

@[simp] theorem shortens_atLeast (n : Nat) (p : Char → Bool) : Shortens (atLeast n p) :=
  shortens_sequence (by simp)

/-- The first two characters of the patterns. -/
def heads : List (Char × Char) :=
  [('a', 'k'), ('s', 'k'), ('g', 'h'), ('-', '-'), ('p', 'a'), ('"', 'p'), ('a', 'p'), ('"', 'a'),
    ('s', 'e'), ('"', 's'), ('t', 'o'), ('"', 't'), ('a', 'u'), ('p', 'o'), ('m', 'y'), ('m', 'o'),
    ('a', 'c'), ('r', 'e'), ('c', 'l')]

/-- A text begins with one of them. -/
def Headed (s : Text) : Prop :=
  ∃ c d t, s = c :: d :: t ∧ (fold c, fold d) ∈ heads

/-- A pattern takes one of them, and maybe more. -/
def Starts (part : Part) : Prop :=
  ∀ s, ∀ rest ∈ part s, Headed s ∧ rest.length < s.length

theorem wordFrom_two {p q : Char} {w s rest : Text} (h : rest ∈ wordFrom (p :: q :: w) s) :
    ∃ c d t, s = c :: d :: t ∧ fold c = fold p ∧ fold d = fold q ∧ rest ∈ wordFrom w t := by
  cases s with
  | nil => cases h
  | cons c s =>
    rw [wordFrom] at h
    split at h
    next hc =>
      cases s with
      | nil => cases h
      | cons d s =>
        rw [wordFrom] at h
        split at h
        next hd => exact ⟨c, d, s, rfl, hc, hd, h⟩
        next => cases h
    next => cases h

/-- A pattern that begins with a word. -/
theorem starts_sequence {p q : Char} {w : Text} {parts : List Part}
    (hhead : (fold p, fold q) ∈ heads) (hparts : ∀ part ∈ parts, Shortens part) :
    Starts (sequence (wordFrom (p :: q :: w) :: parts)) := by
  intro s rest hrest
  obtain ⟨mid, hmid, hafter⟩ := List.mem_flatMap.mp hrest
  obtain ⟨c, d, u, rfl, hc, hd, hword⟩ := wordFrom_two hmid
  have hless := (shortens_sequence hparts mid rest hafter).trans (shortens_wordFrom w u mid hword)
  refine ⟨⟨c, d, u, rfl, by rwa [hc, hd]⟩, ?_⟩
  simp only [List.length_cons]
  omega

theorem starts_either {alternatives parts : List Part} (h : ∀ part ∈ alternatives, Starts part)
    (hparts : ∀ part ∈ parts, Shortens part) :
    Starts (sequence (either alternatives :: parts)) := by
  intro s rest hrest
  obtain ⟨mid, hmid, hafter⟩ := List.mem_flatMap.mp hrest
  obtain ⟨part, hpart, hword⟩ := List.mem_flatMap.mp hmid
  obtain ⟨hhead, hless⟩ := h part hpart s mid hword
  exact ⟨hhead, (shortens_sequence hparts mid rest hafter).trans_lt hless⟩

theorem starts_assigned {name : String} {p q : Char} {w : Text} (hname : name.toList = p :: q :: w)
    (hhead : (fold p, fold q) ∈ heads) : Starts (assigned name) := by
  unfold assigned word
  rw [hname]
  exact starts_sequence hhead (by simp)

theorem starts_quoted {name : String} {p : Char} {w : Text} (hname : name.toList = p :: w)
    (hhead : (fold '"', fold p) ∈ heads) : Starts (quoted name) := by
  unfold quoted
  rw [hname]
  exact starts_sequence hhead (by simp)

theorem shortens_credentials : ∀ part ∈ credentials, Shortens part := by
  simp [credentials]

theorem starts_secretNames : ∀ part ∈ secretNames.map sequence, Starts part := by
  intro part hmem
  simp only [secretNames, List.map_cons, List.map_nil, List.mem_cons, List.not_mem_nil,
    or_false] at hmem
  rcases hmem with rfl | rfl | rfl | rfl | rfl | rfl | rfl | rfl | rfl <;>
    exact starts_sequence (by decide) (by simp)

theorem starts_secretPatterns : ∀ pattern ∈ secretPatterns, Starts pattern := by
  have hcredentials := shortens_credentials
  intro pattern hmem
  simp only [secretPatterns, List.mem_cons, List.not_mem_nil, or_false] at hmem
  rcases hmem with rfl | rfl | rfl | rfl | rfl | rfl | rfl | rfl | rfl | rfl | rfl | rfl | rfl |
    rfl | rfl | rfl | rfl | rfl | rfl | rfl | rfl
  iterate 5
    · exact starts_sequence (by decide) (by simp)
  iterate 5
    · exact starts_assigned rfl (by decide)
    · exact starts_quoted rfl (by decide)
  · refine starts_sequence (by decide) ?_
    simpa using shortens_either (by simp)
  · exact starts_quoted rfl (by decide)
  · exact starts_sequence (by decide) hcredentials
  · exact starts_sequence (by decide) hcredentials
  · exact starts_sequence (by decide) (by
      simpa [shortens_optional (shortens_word "+srv")] using hcredentials)
  · exact starts_either starts_secretNames (by simp)

theorem first_shrinks {m : Text → Option Text} (h : m ∈ secretPatterns.map first) : Shrinks m := by
  obtain ⟨pattern, hpattern, rfl⟩ := List.mem_map.mp h
  intro s rest hrest
  exact (starts_secretPatterns pattern hpattern s rest (List.mem_of_head? hrest)).2

/-- No pattern matches where none of the heads is. -/
theorem first_none {m : Text → Option Text} (h : m ∈ secretPatterns.map first) {s : Text}
    (hs : ¬ Headed s) : m s = none := by
  obtain ⟨pattern, hpattern, rfl⟩ := List.mem_map.mp h
  cases hmatch : first pattern s with
  | none => rfl
  | some rest =>
    exact absurd (starts_secretPatterns pattern hpattern s rest (List.mem_of_head? hmatch)).1 hs

end Shamsu.Safety.Redaction
