import Shamsu.Llm.Output
import Shamsu.Patch.Unified
import Shamsu.Py.Search

/-!
# The phases of a plan document

`shamsu/agents/plan_anchor.py`: `plan_phases` reads the headings that name a step, with the items
below them, and numbers them in document order. `_contract_from_plan` of `simple_chat.py` starts
the phase that a request matches, where it is the only one.

A request that is a number matches by position, but also by its digits anywhere in a heading:
`every_phase_addressed_iff` says which plans can be addressed by number.

`str.lower` and the word characters of `\w` are arguments.
-/

namespace Shamsu.Chat.PlanPhases

open Shamsu.Py Shamsu.Patch

/-! ## Headings and items -/

/-- A character of a pattern, read with `IGNORECASE`. -/
def caseless (p c : Char) : Bool := Llm.ignoresCase p c || (p == 's' && c == '\u017f')

/-- What is left of a text after a word. -/
def afterWord : Text → Text → Option Text
  | [], s => some s
  | _ :: _, [] => none
  | p :: word, c :: s => if caseless p c then afterWord word s else none

def stepWords : List Text :=
  ["phase".toList, "step".toList, "milestone".toList, "stage".toList, "part".toList, "task".toList]

/-- `\s+\w`, for the text behind the word. -/
def namesStep (isAlnum : Char → Bool) (s : Text) : Bool :=
  match s with
  | [] => false
  | c :: _ =>
    isSpace c &&
      match s.dropWhile isSpace with
      | [] => false
      | d :: _ => isAlnum d || d == '_'

/-- What is left of a line after `^\s{0,3}#{1,n}`. -/
def afterMarks (n : Nat) (line : Text) : Option Text :=
  let rest := line.dropWhile isSpace
  let marks := (rest.takeWhile (· == '#')).length
  if (line.takeWhile isSpace).length ≤ 3 ∧ 1 ≤ marks ∧ marks ≤ n then some (rest.drop marks)
  else none

/-- The group of `_STEP_HEADING`. -/
def stepHeading (isAlnum : Char → Bool) (line : Text) : Option Text :=
  (afterMarks 4 line).bind fun rest =>
    let title := rest.dropWhile isSpace
    if stepWords.any fun word => ((afterWord word title).map (namesStep isAlnum)).getD false then
      some title
    else none

/-- `_ANY_HEADING.match(line)`. -/
def isHeading (line : Text) : Bool :=
  match afterMarks 6 line with
  | some (c :: _) => isSpace c
  | _ => false

/-- What is left of a line after `\d+[.)]` or a bullet. -/
def afterBullet (s : Text) : Option Text :=
  match s.dropWhile isDigit with
  | [] => none
  | c :: rest =>
    if s.takeWhile isDigit ≠ [] then if c = '.' ∨ c = ')' then some rest else none
    else if c = '-' ∨ c = '*' ∨ c = '+' then some rest
    else none

/-- The group of `_PHASE_STEP`. -/
def phaseStep (line : Text) : Option Text :=
  if (line.takeWhile isSpace).length ≤ 3 then
    (afterBullet (line.dropWhile isSpace)).bind fun rest =>
      let item := rest.dropWhile isSpace
      if rest.takeWhile isSpace ≠ [] ∧ item ≠ [] then some item else none
  else none

/-- `" ".join(s.split())`. -/
def oneLine (s : Text) : Text := join ' ' (words s)

/-! ## Phases -/

structure PlanPhase where
  index : Nat
  heading : Text
  steps : List Text
  deriving DecidableEq, Repr

/-- `" ".join(heading.group(1).split()).rstrip("#").strip()`. -/
def titleOf (group : Text) : Text := strip ((oneLine group).rdropWhile (· == '#'))

/-- `" ".join(item.group(1).replace("**", "").split())`. -/
def itemOf (group : Text) : Text := oneLine (replace "**".toList [] group)

/-- What `plan_phases` has read: the phases that are closed, and the one that is open. -/
structure Reading where
  phases : List PlanPhase
  current : Option Text
  steps : List Text

/-- `close`. -/
def Reading.close (r : Reading) : List PlanPhase :=
  match r.current with
  | some heading => r.phases ++ [⟨r.phases.length + 1, heading, r.steps⟩]
  | none => r.phases

def Reading.line (isAlnum : Char → Bool) (r : Reading) (line : Text) : Reading :=
  match stepHeading isAlnum line with
  | some group => ⟨r.close, some (titleOf group), []⟩
  | none =>
    if r.current = none then r
    else if isHeading line then ⟨r.close, none, []⟩
    else
      match phaseStep line with
      | some group => { r with steps := r.steps ++ [itemOf group] }
      | none => r

/-- `plan_phases`, of the text of the plan. -/
def planPhases (isAlnum : Char → Bool) (text : Text) : List PlanPhase :=
  ((splitlines text).foldl (Reading.line isAlnum) ⟨[], none, []⟩).close

/-! ## Requests -/

/-- The characters of `str.isdigit` that are no decimal digits. -/
def digitForms : List (Nat × Nat) :=
  [(0xb2, 0xb3), (0xb9, 0xb9), (0x1369, 0x1371), (0x19da, 0x19da), (0x2070, 0x2070),
    (0x2074, 0x2079), (0x2080, 0x2089), (0x2460, 0x2468), (0x2474, 0x247c), (0x2488, 0x2490),
    (0x24ea, 0x24ea), (0x24f5, 0x24fd), (0x24ff, 0x24ff), (0x2776, 0x277e), (0x2780, 0x2788),
    (0x278a, 0x2792), (0x10a40, 0x10a43), (0x10e60, 0x10e68), (0x11052, 0x1105a),
    (0x1f100, 0x1f10a)]

def isDigitForm (c : Char) : Bool :=
  isDigit c || digitForms.any fun r => r.1 ≤ c.toNat && c.toNat ≤ r.2

/-- `s.isdigit()`. -/
def isDigits (s : Text) : Bool := !s.isEmpty && s.all isDigitForm

/-- `int(s)`, for a text that is `isDigits`: `none` is the `ValueError`, of a digit that is not
decimal or of too many digits. -/
def intOf (s : Text) : Option Nat :=
  if s.all isDigit && decide (s.length ≤ maxIntDigits) then some (digitsValue s) else none

/-- `s.removeprefix(word)`. -/
def removePrefix (word s : Text) : Text := if word.isPrefixOf s then s.drop word.length else s

def isTrim (c : Char) : Bool := c == ' ' || c == ':' || c == '.' || c == '#'

/-- `s.strip(" :.#")`. -/
def trim (s : Text) : Text := (s.rdropWhile isTrim).dropWhile isTrim

def bareOf (probe : Text) : Text :=
  trim (removePrefix "step".toList (removePrefix "phase".toList probe))

/-- `PlanPhase.matches`: `none` is a request that raises. -/
def PlanPhase.matches (lower : Text → Text) (p : PlanPhase) (wanted : Text) : Option Bool :=
  let probe := lower (strip (oneLine wanted))
  let named := (find probe (lower p.heading)).isSome
  if probe = [] then some false
  else if isDigits (bareOf probe) then
    (intOf (bareOf probe)).map fun n => decide (n = p.index) || named
  else some named

/-- The phases that a request matches. -/
def matched (lower : Text → Text) (wanted : Text) : List PlanPhase → Option (List PlanPhase)
  | [] => some []
  | p :: ps =>
    (p.matches lower wanted).bind fun hit =>
      (matched lower wanted ps).map fun rest => if hit then p :: rest else rest

/-- The phase that `_contract_from_plan` goes on with: the only one that matches. -/
def phaseFor (lower : Text → Text) (phases : List PlanPhase) (wanted : Text) : Option PlanPhase :=
  match matched lower (strip wanted) phases with
  | some [p] => some p
  | _ => none

/-- The requests for phase `k` that a person makes. -/
def requests (k : Nat) : List Text :=
  [Nat.toDigits 10 k, "phase ".toList ++ Nat.toDigits 10 k]

/-- Whether both start the phase at position `k`. -/
def Addressed (lower : Text → Text) (phases : List PlanPhase) (k : Nat) : Prop :=
  ∀ wanted ∈ requests k, ∃ p, phases[k - 1]? = some p ∧ phaseFor lower phases wanted = some p

/-- `str.lower` leaves an ASCII text without capitals as it is. -/
def KeepsSmall (lower : Text → Text) : Prop :=
  ∀ s : Text, (∀ c ∈ s, c.toNat < 128 ∧ c.isUpper = false) → lower s = s

/-- The number of phase `k` can be read, and is written in no other heading. -/
def Unmentioned (lower : Text → Text) (phases : List PlanPhase) (k : Nat) : Prop :=
  Countable k ∧ ∀ p ∈ phases, p.index ≠ k → ¬ Nat.toDigits 10 k <:+: lower p.heading

/-! ## Positions -/

/-- Phases that are numbered by their position, from `m` on. -/
def Numbered (m : Nat) (phases : List PlanPhase) : Prop :=
  phases.map (·.index) = List.range' m phases.length

section Positions

variable {isAlnum : Char → Bool} {lower : Text → Text} {phases : List PlanPhase} {m : Nat}

theorem Numbered.snoc (h : Numbered 1 phases) (heading : Text) (steps : List Text) :
    Numbered 1 (phases ++ [⟨phases.length + 1, heading, steps⟩]) := by
  unfold Numbered at h ⊢
  rw [List.map_append, h, List.length_append, List.map_singleton, List.length_singleton,
    List.range'_1_concat, Nat.add_comm 1]

theorem Reading.close_numbered {r : Reading} (h : Numbered 1 r.phases) : Numbered 1 r.close := by
  unfold Reading.close
  cases r.current with
  | none => exact h
  | some heading => exact h.snoc heading r.steps

/-- One line keeps the numbers in order. -/
theorem Reading.line_numbered {r : Reading} (h : Numbered 1 r.phases) (line : Text) :
    Numbered 1 (r.line isAlnum line).phases := by
  unfold Reading.line
  cases stepHeading isAlnum line with
  | some group => exact r.close_numbered h
  | none =>
    by_cases hcurrent : r.current = none
    · rw [if_pos hcurrent]
      exact h
    · rw [if_neg hcurrent]
      cases isHeading line with
      | true => exact r.close_numbered h
      | false =>
        cases phaseStep line with
        | some group => exact h
        | none => exact h

/-- The phases of a document are numbered by their position. -/
theorem planPhases_numbered (text : Text) : Numbered 1 (planPhases isAlnum text) := by
  have hrun : ∀ (lines : List Text) (r : Reading), Numbered 1 r.phases →
      Numbered 1 (lines.foldl (Reading.line isAlnum) r).phases := by
    intro lines
    induction lines with
    | nil => exact fun _ h => h
    | cons line lines ih => exact fun r h => ih _ (r.line_numbered h line)
  exact Reading.close_numbered (hrun _ _ rfl)

theorem Numbered.tail {p : PlanPhase} (h : Numbered m (p :: phases)) :
    p.index = m ∧ Numbered (m + 1) phases := by
  unfold Numbered at h
  rw [List.map_cons, List.length_cons, List.range'_succ] at h
  exact List.cons.inj h

theorem Numbered.le (h : Numbered m phases) : ∀ p ∈ phases, m ≤ p.index := by
  intro p hp
  have hmem : p.index ∈ List.range' m phases.length := by
    rw [← h]
    exact List.mem_map_of_mem hp
  exact (List.mem_range'_1.mp hmem).1

/-- The phase at a position is the only one with its number. -/
theorem Numbered.filter (h : Numbered m phases) {i : Nat} {p : PlanPhase}
    (hp : phases[i]? = some p) : p.index = m + i ∧
      phases.filter (fun q => decide (q.index = m + i)) = [p] := by
  induction phases generalizing m i with
  | nil => cases hp
  | cons q phases ih =>
    obtain ⟨hq, htail⟩ := h.tail
    cases i with
    | zero =>
      have heq : q = p := Option.some.inj hp
      have hnone : phases.filter (fun q => decide (q.index = m + 0)) = [] := by
        apply List.filter_eq_nil_iff.mpr
        intro x hx hindex
        have hle := htail.le x hx
        have heq := of_decide_eq_true hindex
        omega
      rw [List.filter_cons_of_pos (by rw [hq]; exact decide_eq_true rfl), hnone, ← heq]
      exact ⟨hq, rfl⟩
    | succ i =>
      rw [List.filter_cons_of_neg (by rw [hq, decide_eq_true_eq]; omega)]
      have hnext := ih htail hp
      rwa [Nat.add_assoc, Nat.add_comm 1 i] at hnext

/-- A test that the phase at a position passes is passed by no other one exactly when those with
another number fail it. -/
theorem Numbered.filter_eq_singleton (h : Numbered m phases) {i : Nat} {p : PlanPhase}
    (hp : phases[i]? = some p) {hit : PlanPhase → Bool}
    (hhit : ∀ q, q.index = m + i → hit q = true) :
    phases.filter hit = [p] ↔ ∀ q ∈ phases, q.index ≠ m + i → hit q = false := by
  obtain ⟨hindex, hfilter⟩ := h.filter hp
  constructor
  · intro heq q hq hne
    cases hq' : hit q with
    | false => rfl
    | true =>
      have hmem : q ∈ phases.filter hit := List.mem_filter.mpr ⟨hq, hq'⟩
      rw [heq, List.mem_singleton] at hmem
      rw [hmem] at hne
      exact absurd hindex hne
  · intro hothers
    rw [← hfilter]
    apply List.filter_congr
    intro q hq
    by_cases hne : q.index = m + i
    · rw [hhit q hne, decide_eq_true hne]
    · rw [hothers q hq hne, decide_eq_false hne]

end Positions

/-! ## A number as a request -/

section Requests

variable {lower : Text → Text} {phases : List PlanPhase} {k : Nat}

/-- The digits of a number, and the number as a word. -/
theorem digits_space {c : Char} (hc : c ∈ Nat.toDigits 10 k) : isSpace c = false := by
  have hdigit := isDigit_of_mem hc
  simp only [Char.isDigit, Bool.and_eq_true, decide_eq_true_eq] at hdigit
  have hlow : 48 ≤ c.toNat := hdigit.1
  have hhigh : c.toNat ≤ 57 := hdigit.2
  simp only [isSpace, Bool.or_eq_false_iff, Bool.and_eq_false_iff, decide_eq_false_iff_not,
    beq_eq_false_iff_ne]
  omega

theorem digits_trim {c : Char} (hc : c ∈ Nat.toDigits 10 k) : isTrim c = false := by
  have hdigit := isDigit_of_mem hc
  cases htrim : isTrim c with
  | false => rfl
  | true =>
    simp only [isTrim, Bool.or_eq_true, beq_iff_eq] at htrim
    rcases htrim with ((rfl | rfl) | rfl) | rfl
    · cases hdigit
    · cases hdigit
    · cases hdigit
    · cases hdigit

theorem rdropWhile_digits {trimmed : Char → Bool} (h : ∀ c ∈ Nat.toDigits 10 k, trimmed c = false)
    (before : Text) :
    (before ++ Nat.toDigits 10 k).rdropWhile trimmed = before ++ Nat.toDigits 10 k := by
  apply List.rdropWhile_eq_self_iff.mpr
  intro hne
  rw [List.getLast_append_of_ne_nil hne Nat.toDigits_ne_nil, h _ (List.getLast_mem _)]
  exact Bool.false_ne_true

theorem dropWhile_digits {trimmed : Char → Bool}
    (h : ∀ c ∈ Nat.toDigits 10 k, trimmed c = false) :
    (Nat.toDigits 10 k).dropWhile trimmed = Nat.toDigits 10 k := by
  cases hd : Nat.toDigits 10 k with
  | nil => rfl
  | cons c cs =>
    apply List.dropWhile_cons_of_neg
    rw [h c (by rw [hd]; exact List.mem_cons_self)]
    exact Bool.false_ne_true

theorem words_digits : words (Nat.toDigits 10 k) = [Nat.toDigits 10 k] := by
  unfold words
  rw [List.splitOnP_eq_singleton fun c hc => digits_space hc]
  apply List.filter_eq_self.mpr
  intro word hword
  rw [List.mem_singleton.mp hword, Bool.not_eq_true', List.isEmpty_eq_false_iff]
  exact Nat.toDigits_ne_nil

theorem words_phase :
    words ("phase ".toList ++ Nat.toDigits 10 k) = ["phase".toList, Nat.toDigits 10 k] := by
  have hall : ("phase".toList.all fun c => !isSpace c) = true := rfl
  have hphase : ∀ c ∈ "phase".toList, isSpace c = false := by
    intro c hc
    simpa using List.all_eq_true.mp hall c hc
  have hdigits := words_digits (k := k)
  unfold words at hdigits ⊢
  rw [show "phase ".toList ++ Nat.toDigits 10 k = "phase".toList ++ ' ' :: Nat.toDigits 10 k from rfl,
    List.splitOnP_append_cons_of_forall_mem hphase _ rfl, List.filter_cons_of_pos rfl,
    hdigits]

theorem removePrefix_digits {c : Char} (hc : c.isDigit = false) (word : Text) :
    removePrefix (c :: word) (Nat.toDigits 10 k) = Nat.toDigits 10 k := by
  unfold removePrefix
  apply if_neg
  cases hd : Nat.toDigits 10 k with
  | nil => exact Bool.false_ne_true
  | cons d ds =>
    intro hprefix
    rw [List.isPrefixOf_cons_cons, Bool.and_eq_true, beq_iff_eq] at hprefix
    have hdigit : d.isDigit = true := isDigit_of_mem (by rw [hd]; exact List.mem_cons_self)
    rw [← hprefix.1, hc] at hdigit
    cases hdigit

theorem bareOf_digits : bareOf (Nat.toDigits 10 k) = Nat.toDigits 10 k := by
  unfold bareOf trim
  rw [show "phase".toList = 'p' :: "hase".toList from rfl,
    show "step".toList = 's' :: "tep".toList from rfl, removePrefix_digits rfl,
    removePrefix_digits rfl]
  have hend := rdropWhile_digits (k := k) (fun c hc => digits_trim hc) []
  rw [List.nil_append] at hend
  rw [hend, dropWhile_digits fun c hc => digits_trim hc]

theorem bareOf_phase : bareOf ("phase ".toList ++ Nat.toDigits 10 k) = Nat.toDigits 10 k := by
  have hphase : removePrefix "phase".toList ("phase ".toList ++ Nat.toDigits 10 k) =
      [' '] ++ Nat.toDigits 10 k := rfl
  have hstep : removePrefix "step".toList ([' '] ++ Nat.toDigits 10 k) =
      [' '] ++ Nat.toDigits 10 k := rfl
  unfold bareOf trim
  rw [hphase, hstep, rdropWhile_digits fun c hc => digits_trim hc, List.singleton_append,
    List.dropWhile_cons_of_pos rfl, dropWhile_digits fun c hc => digits_trim hc]

theorem isDigits_digits : isDigits (Nat.toDigits 10 k) = true := by
  unfold isDigits
  rw [Bool.and_eq_true, Bool.not_eq_true', List.isEmpty_eq_false_iff]
  refine ⟨Nat.toDigits_ne_nil, List.all_eq_true.mpr ?_⟩
  intro c hc
  unfold isDigitForm
  rw [isDigit_toDigits c hc, Bool.true_or]

theorem intOf_digits :
    intOf (Nat.toDigits 10 k) = if (Nat.toDigits 10 k).length ≤ maxIntDigits then some k else none := by
  unfold intOf
  rw [List.all_eq_true.mpr isDigit_toDigits, Bool.true_and, digitsValue_toDigits]
  simp only [decide_eq_true_eq]

theorem digits_small {c : Char} (hc : c ∈ Nat.toDigits 10 k) :
    c.toNat < 128 ∧ c.isUpper = false := by
  have hdigit := isDigit_of_mem hc
  simp only [Char.isDigit, Bool.and_eq_true, decide_eq_true_eq] at hdigit
  have hlow : 48 ≤ c.toNat := hdigit.1
  have hhigh : c.toNat ≤ 57 := hdigit.2
  refine ⟨by omega, ?_⟩
  cases hupper : c.isUpper with
  | false => rfl
  | true =>
    simp only [Char.isUpper, decide_eq_true_eq] at hupper
    have : 65 ≤ c.toNat := hupper.1
    omega

/-- A request that stays as it is, up to its number. -/
structure Asks (lower : Text → Text) (k : Nat) (wanted : Text) : Prop where
  probe : lower (strip (oneLine (strip wanted))) = wanted
  bare : bareOf wanted = Nat.toDigits 10 k
  contains : Nat.toDigits 10 k <:+: wanted

theorem asks_of_mem (hlower : KeepsSmall lower) {wanted : Text} (h : wanted ∈ requests k) :
    Asks lower k wanted := by
  have hspace : ∀ c ∈ Nat.toDigits 10 k, isSpace c = false := fun c hc => digits_space hc
  have hcases : wanted = Nat.toDigits 10 k ∨ wanted = "phase ".toList ++ Nat.toDigits 10 k := by
    simpa [requests] using h
  rcases hcases with rfl | rfl
  · have hstrip : strip (Nat.toDigits 10 k) = Nat.toDigits 10 k := by
      have hend := rdropWhile_digits hspace []
      rw [List.nil_append] at hend
      unfold strip lstrip rstrip
      rw [hend, dropWhile_digits hspace]
    refine ⟨?_, bareOf_digits, List.infix_rfl⟩
    unfold oneLine
    rw [hstrip, words_digits, join_singleton, hstrip, hlower _ fun c hc => digits_small hc]
  · have hstrip : strip ("phase ".toList ++ Nat.toDigits 10 k) =
        "phase ".toList ++ Nat.toDigits 10 k := by
      unfold strip lstrip rstrip
      rw [rdropWhile_digits hspace]
      rfl
    refine ⟨?_, bareOf_phase, (List.suffix_append _ _).isInfix⟩
    unfold oneLine
    rw [hstrip, words_phase, join_cons_cons, join_singleton]
    refine (congrArg lower hstrip).trans (hlower _ ?_)
    intro c hc
    rcases List.mem_append.mp hc with hphase | hdigit
    · have hall : ("phase ".toList.all fun c => decide (c.toNat < 128) && !c.isUpper) = true := rfl
      simpa using List.all_eq_true.mp hall c hphase
    · exact digits_small hdigit

/-- What matches a number: the phase at its position, and those that mention the request. -/
theorem matches_number {wanted : Text} (h : Asks lower k wanted) (p : PlanPhase) :
    p.matches lower (strip wanted) =
      (if (Nat.toDigits 10 k).length ≤ maxIntDigits then some k else none).map fun n =>
        decide (n = p.index) || (find wanted (lower p.heading)).isSome := by
  have hne : wanted ≠ [] := by
    intro hnil
    have hcontains := h.contains
    rw [hnil, List.infix_nil] at hcontains
    exact Nat.toDigits_ne_nil hcontains
  unfold PlanPhase.matches
  rw [h.probe, if_neg hne, h.bare, isDigits_digits, if_pos rfl, intOf_digits]

theorem matched_number {wanted : Text} (h : Asks lower k wanted) (hk : Countable k) :
    matched lower (strip wanted) phases =
      some (phases.filter fun p => decide (k = p.index) || (find wanted (lower p.heading)).isSome) := by
  induction phases with
  | nil => rfl
  | cons p phases ih =>
    rw [matched, matches_number h, if_pos (show _ ≤ maxIntDigits from hk), ih, List.filter_cons]
    rfl

/-- A number of too many digits raises. -/
theorem matched_long {wanted : Text} (h : Asks lower k wanted) (hk : ¬ Countable k)
    (hne : phases ≠ []) : matched lower (strip wanted) phases = none := by
  cases phases with
  | nil => exact absurd rfl hne
  | cons p phases =>
    rw [matched, matches_number h, if_neg (show ¬ _ ≤ maxIntDigits from hk)]
    rfl

theorem phaseFor_iff {wanted : Text} {p : PlanPhase} :
    phaseFor lower phases wanted = some p ↔ matched lower (strip wanted) phases = some [p] := by
  unfold phaseFor
  split
  next q hq => rw [hq, Option.some_inj, Option.some_inj, List.singleton_inj]
  next hq =>
    constructor
    · intro h
      cases h
    · intro h
      exact absurd h (hq p)

end Requests

/-! ## Every phase by its number -/

/-- One number, in phases that are numbered by position. -/
theorem addressed_iff {lower : Text → Text} (hlower : KeepsSmall lower) {phases : List PlanPhase}
    (hnum : Numbered 1 phases) {k : Nat} (hfirst : 1 ≤ k) (hlast : k ≤ phases.length) :
    Addressed lower phases k ↔ Unmentioned lower phases k := by
  have hlt : k - 1 < phases.length := by omega
  have hpos : 1 + (k - 1) = k := by omega
  have hp : phases[k - 1]? = some phases[k - 1] := List.getElem?_eq_getElem hlt
  have hne : phases ≠ [] := List.ne_nil_of_length_pos (by omega)
  constructor
  · intro h
    have hmem : Nat.toDigits 10 k ∈ requests k := List.mem_cons_self
    have hasks := asks_of_mem hlower hmem
    obtain ⟨p, hp, hphase⟩ := h _ hmem
    rw [phaseFor_iff] at hphase
    have hk : Countable k := by
      -- `int` would raise, for each phase
      by_contra hlong
      rw [matched_long hasks hlong hne] at hphase
      cases hphase
    refine ⟨hk, ?_⟩
    rw [matched_number hasks hk, Option.some_inj, hnum.filter_eq_singleton hp] at hphase
    · intro q hq hindex hmention
      have hmiss := hphase q hq (by rwa [hpos])
      rw [find_isSome.mpr hmention, Bool.or_true] at hmiss
      cases hmiss
    · intro q hq
      rw [decide_eq_true (by omega), Bool.true_or]
  · intro h wanted hmem
    have hasks := asks_of_mem hlower hmem
    -- the phase at the position matches, and no other one mentions the number
    refine ⟨_, hp, ?_⟩
    rw [phaseFor_iff, matched_number hasks h.1, Option.some_inj, hnum.filter_eq_singleton hp]
    · intro q hq hindex
      rw [hpos] at hindex
      rw [decide_eq_false (Ne.symm hindex), Bool.false_or, ← Bool.not_eq_true, find_isSome]
      intro hmention
      exact h.2 q hq hindex (hasks.contains.trans hmention)
    · intro q hq
      rw [decide_eq_true (by omega), Bool.true_or]

/-- **A phase can be started by its number exactly when no other heading has its digits.** -/
theorem every_phase_addressed_iff {lower : Text → Text} (hlower : KeepsSmall lower)
    (isAlnum : Char → Bool) (text : Text) {k : Nat} (hfirst : 1 ≤ k)
    (hlast : k ≤ (planPhases isAlnum text).length) :
    Addressed lower (planPhases isAlnum text) k ↔
      Unmentioned lower (planPhases isAlnum text) k :=
  addressed_iff hlower (planPhases_numbered text) hfirst hlast

/-- A plan that skips the first number. -/
def skippedPlan : Text := "# Phase 2: A\n# Phase 3: B\n".toList

theorem skippedPlan_phases : planPhases Char.isAlphanum skippedPlan =
    [⟨1, "Phase 2: A".toList, []⟩, ⟨2, "Phase 3: B".toList, []⟩] := by
  decide

theorem map_toLower_keepsSmall : KeepsSmall (List.map Char.toLower) := by
  intro s hs
  refine (List.map_congr_left fun c hc => ?_).trans (List.map_id s)
  have hupper := (hs c hc).2
  simp only [Char.isUpper, decide_eq_false_iff_not] at hupper
  exact dif_neg hupper

theorem every_phase_addressed_skipped :
    (1 ≤ 1 ∧ 1 ≤ (planPhases Char.isAlphanum skippedPlan).length) ∧
      (Addressed (List.map Char.toLower) (planPhases Char.isAlphanum skippedPlan) 1 ↔
        Unmentioned (List.map Char.toLower) (planPhases Char.isAlphanum skippedPlan) 1) := by
  have hlast : 1 ≤ (planPhases Char.isAlphanum skippedPlan).length := by
    rw [skippedPlan_phases]
    decide
  exact ⟨⟨Nat.le_refl 1, hlast⟩,
    every_phase_addressed_iff map_toLower_keepsSmall Char.isAlphanum skippedPlan (Nat.le_refl 1)
      hlast⟩

/-- The second phase of a plan that starts with "Phase 2" cannot be started as phase 2. -/
theorem skipped_number_not_addressed : ¬ ∀ (lower : Text → Text), KeepsSmall lower →
    ∀ (isAlnum : Char → Bool) (text : Text) (k : Nat), 1 ≤ k →
      k ≤ (planPhases isAlnum text).length → Addressed lower (planPhases isAlnum text) k := by
  intro h
  have haddressed := h _ map_toLower_keepsSmall Char.isAlphanum skippedPlan 2 (by omega) (by
    rw [skippedPlan_phases]
    decide)
  have hnum : Numbered 1 (planPhases Char.isAlphanum skippedPlan) := planPhases_numbered _
  rw [skippedPlan_phases] at haddressed hnum
  have hclear := (addressed_iff map_toLower_keepsSmall hnum (by omega) (by decide)).mp haddressed
  have hmention : Nat.toDigits 10 2 <:+: List.map Char.toLower "Phase 2: A".toList :=
    ⟨"phase ".toList, ": a".toList, by decide⟩
  exact hclear.2 ⟨1, "Phase 2: A".toList, []⟩ List.mem_cons_self (by decide) hmention

end Shamsu.Chat.PlanPhases
