import Shamsu.Py.Strip
import Shamsu.Tools.EditText

/-!
# The gutter of a read

A read has a number and a bar before every line. What a model copies out of a read
into a patch carries them, and they are taken off again, when every line that is not
blank has them.

White space in the pattern takes line ends with it. So a copy comes back as it was in
the file exactly when no line but the last lost the blank behind its bar, and a text
is left alone exactly when some line of it has no gutter of its own
(`gutter_round_trip`).
-/

namespace Shamsu.Chat

open Shamsu.Py Shamsu.Tools

/-! ## The read -/

/-- `str(number).rjust(width)` and the bar. -/
def gutterOf (width number : Nat) : Text :=
  List.replicate (width - (Nat.toDigits 10 number).length) ' ' ++ (Nat.toDigits 10 number ++ ['|'])

/-- A line of a read, with its number. -/
def numberedLine (width : Nat) (entry : Nat × Text) : Text := gutterOf width entry.1 ++ ' ' :: entry.2

/-- The lines of a body, with their numbers. -/
def entries (first : Nat) (body : Text) : List (Nat × Text) :=
  ((lines body).zipIdx first).map Prod.swap

/-- `len(str(first + body.count("\n")))`. -/
def gutterWidth (first : Nat) (body : Text) : Nat :=
  (Nat.toDigits 10 (first + body.count '\n')).length

/-- What `_number_the_lines` looks at of a read. -/
structure ReadData where
  ok : Bool
  outlined : Bool
  unchanged : Bool
  content : Text
  startLine : Option Nat
  lineNumbers : Bool
  deriving DecidableEq, Repr

/-- `int(data.get("start_line") or 1)`. -/
def ReadData.first (r : ReadData) : Nat :=
  match r.startLine with
  | some (n + 1) => n + 1
  | _ => 1

/-- `_number_the_lines`. -/
def numberTheLines (r : ReadData) : ReadData :=
  if r.ok = false ∨ r.outlined ∨ r.unchanged ∨ r.content = [] then r
  else
    { r with
      content := join '\n'
        ((entries r.first r.content).map (numberedLine (gutterWidth r.first r.content)))
      lineNumbers := true }

/-! ## The patch -/

/-- `\s?` behind the bar: what follows it, and whether that is the start of a line. -/
def afterBar : Text → Text × Bool
  | [] => ([], false)
  -- the white space may be the line end, which then is gone
  | c :: rest => if isSpace c then (rest, c == '\n') else (c :: rest, false)

/-- A match of `_NUMBERED_LINE` from the start of a line. -/
def gutterMatch (s : Text) : Option (Text × Bool) :=
  if (lstrip s).takeWhile isDigit = [] then none
  else
    match lstrip ((lstrip s).dropWhile isDigit) with
    | '|' :: rest => some (afterBar rest)
    | _ => none

/-- `_NUMBERED_LINE.sub("", s)`, as far as `fuel` goes. -/
def subFuel : Nat → Bool → Text → Text
  | _, _, [] => []
  | 0, _, s => s
  | fuel + 1, lineStart, c :: s =>
    match if lineStart then gutterMatch (c :: s) else none with
    | some (rest, lineStart) => subFuel fuel lineStart rest
    | none => c :: subFuel fuel (c == '\n') s

/-- `_NUMBERED_LINE.sub("", s)`, from the start of a line or not. -/
def subGutters (lineStart : Bool) (s : Text) : Text := subFuel s.length lineStart s

/-- `[line for line in value.split("\n") if line.strip()]`. -/
def filledLines (value : Text) : List Text := (lines value).filter fun line => strip line ≠ []

/-- Every line that is not blank has a gutter, and there is one. -/
def isNumberedText (value : Text) : Bool :=
  filledLines value ≠ [] && (filledLines value).all fun line => (gutterMatch line).isSome

/-- What becomes of a string of the patch. -/
def stripNumbers (value : Text) : Text :=
  if value ≠ [] && isNumberedText value then subGutters true value else value

/-- The strings of a patch, where they are strings. -/
structure PatchArguments where
  oldString : Option Text
  newString : Option Text
  deriving DecidableEq, Repr

/-- `_strip_line_numbers`. -/
def stripLineNumbers (arguments : PatchArguments) : PatchArguments :=
  { oldString := arguments.oldString.map stripNumbers
    newString := arguments.newString.map stripNumbers }

/-! ## Matches -/

theorem space_of_digit {c : Char} (h : c.isDigit = true) : isSpace c = false := by
  simp only [Char.isDigit, Bool.and_eq_true, decide_eq_true_eq] at h
  have hlow : 48 ≤ c.toNat := h.1
  have hhigh : c.toNat ≤ 57 := h.2
  simp only [isSpace, Bool.or_eq_false_iff, Bool.and_eq_false_iff, decide_eq_false_iff_not,
    beq_eq_false_iff_ne]
  omega

theorem isDigit_of_ascii {c : Char} (h : c.isDigit = true) : isDigit c = true := by
  simp only [Char.isDigit, Bool.and_eq_true, decide_eq_true_eq] at h
  have hlow : 48 ≤ c.toNat := h.1
  have hhigh : c.toNat ≤ 57 := h.2
  have hzero : (decide (0x30 ≤ c.toNat) && decide (c.toNat < 0x30 + 10)) = true := by
    simp only [Bool.and_eq_true, decide_eq_true_eq]
    omega
  simp only [isDigit, digitValue, digitZeros, List.findSome?_cons, hzero]
  rfl

theorem lstrip_of_head {c : Char} {s : Text} (h : isSpace c = false) : lstrip (c :: s) = c :: s :=
  List.dropWhile_cons_of_neg (by simp [h])

theorem afterBar_split (s : Text) : ∃ taken, s = taken ++ (afterBar s).1 := by
  cases s with
  | nil => exact ⟨[], rfl⟩
  | cons c s =>
    rw [afterBar]
    split
    · exact ⟨[c], rfl⟩
    · exact ⟨[], rfl⟩

/-- A match takes something off the front. -/
theorem gutterMatch_split {s rest : Text} {b : Bool} (h : gutterMatch s = some (rest, b)) :
    ∃ c taken, s = c :: (taken ++ rest) := by
  unfold gutterMatch at h
  split at h
  · cases h
  · have hend : lstrip ((lstrip s).dropWhile isDigit) <:+ s :=
      (List.dropWhile_suffix _).trans ((List.dropWhile_suffix _).trans (List.dropWhile_suffix _))
    obtain ⟨front, hfront⟩ := hend
    split at h
    next more heq =>
      obtain ⟨taken, htaken⟩ := afterBar_split more
      rw [Option.some.inj h] at htaken
      rw [heq, htaken] at hfront
      cases front with
      | nil => exact ⟨'|', taken, hfront.symm⟩
      | cons c front => exact ⟨c, front ++ '|' :: taken, by rw [← hfront]; simp⟩
    next => cases h

theorem gutterMatch_shorter {s rest : Text} {b : Bool} (h : gutterMatch s = some (rest, b)) :
    rest.length < s.length := by
  obtain ⟨c, taken, rfl⟩ := gutterMatch_split h
  rw [List.length_cons, List.length_append]
  omega

/-- What a gutter matches: the number, the bar, and a white space character. -/
theorem gutterMatch_gutter (width n : Nat) (rest : Text) :
    gutterMatch (gutterOf width n ++ rest) = some (afterBar rest) := by
  have hdigits : ∀ c ∈ Nat.toDigits 10 n, c.isDigit = true := fun c hc =>
    Nat.isDigit_of_mem_toDigits (by omega) (by omega) hc
  have hpad : ∀ c ∈ List.replicate (width - (Nat.toDigits 10 n).length) ' ', isSpace c = true := by
    intro c hc
    rw [List.eq_of_mem_replicate hc]
    rfl
  have hstrip : lstrip (gutterOf width n ++ rest) = Nat.toDigits 10 n ++ '|' :: rest := by
    rw [gutterOf, List.append_assoc, List.append_assoc, lstrip_append hpad]
    cases hd : Nat.toDigits 10 n with
    | nil => exact absurd hd Nat.toDigits_ne_nil
    | cons d ds => exact lstrip_of_head (space_of_digit (hdigits d (by rw [hd]; simp)))
  have htake : (Nat.toDigits 10 n ++ '|' :: rest).takeWhile isDigit ≠ [] := by
    cases hd : Nat.toDigits 10 n with
    | nil => exact absurd hd Nat.toDigits_ne_nil
    | cons d ds =>
      rw [List.cons_append, List.takeWhile_cons_of_pos
        (isDigit_of_ascii (hdigits d (by rw [hd]; simp)))]
      exact List.cons_ne_nil _ _
  have hdrop : (Nat.toDigits 10 n ++ '|' :: rest).dropWhile isDigit = '|' :: rest := by
    rw [List.dropWhile_append_of_pos fun c hc => isDigit_of_ascii (hdigits c hc)]
    exact List.dropWhile_cons_of_neg (by decide)
  rw [gutterMatch, hstrip, if_neg htake, hdrop, lstrip_of_head (by decide)]
  rfl

/-! ## The substitution -/

theorem subFuel_enough : ∀ (n m : Nat) (b : Bool) (s : Text), s.length ≤ n → s.length ≤ m →
    subFuel n b s = subFuel m b s := by
  intro n
  induction n with
  | zero =>
    intro m b s hn _
    rw [List.eq_nil_of_length_eq_zero (Nat.le_zero.mp hn), subFuel, subFuel]
  | succ n ih =>
    intro m b s hn hm
    cases s with
    | nil => rw [subFuel, subFuel]
    | cons c s =>
      cases m with
      | zero => exact absurd hm (by simp)
      | succ m =>
        rw [List.length_cons] at hn hm
        rw [subFuel, subFuel]
        cases hmatch : if b = true then gutterMatch (c :: s) else none with
        | none => exact congrArg (c :: ·) (ih m _ s (by omega) (by omega))
        | some found =>
          obtain ⟨rest, b'⟩ := found
          have hlt : rest.length < (c :: s).length := by
            split at hmatch
            · exact gutterMatch_shorter hmatch
            · cases hmatch
          rw [List.length_cons] at hlt
          exact ih m b' rest (by omega) (by omega)

theorem subGutters_nil (b : Bool) : subGutters b [] = [] := rfl

theorem subGutters_match {s rest : Text} {b : Bool} (h : gutterMatch s = some (rest, b)) :
    subGutters true s = subGutters b rest := by
  have hlt := gutterMatch_shorter h
  cases s with
  | nil => cases hlt
  | cons c s =>
    rw [List.length_cons] at hlt
    rw [subGutters, List.length_cons, subFuel]
    simp only [if_true, h]
    exact subFuel_enough _ _ b rest (by omega) (Nat.le_refl _)

theorem subGutters_cons (c : Char) (s : Text) :
    subGutters false (c :: s) = c :: subGutters (c == '\n') s := by
  rw [subGutters, List.length_cons, subFuel]
  rfl

theorem subGutters_line {line : Text} (h : '\n' ∉ line) (rest : Text) :
    subGutters false (line ++ rest) = line ++ subGutters false rest := by
  induction line with
  | nil => rfl
  | cons c line ih =>
    rw [List.mem_cons, not_or] at h
    rw [List.cons_append, subGutters_cons, beq_eq_false_iff_ne.mpr (Ne.symm h.1), ih h.2]
    rfl

/-- Nothing is put in. -/
theorem subFuel_sublist : ∀ (n : Nat) (b : Bool) (s : Text), (subFuel n b s).Sublist s := by
  intro n
  induction n with
  | zero =>
    intro b s
    cases s <;> exact List.Sublist.refl _
  | succ n ih =>
    intro b s
    cases s with
    | nil => exact List.Sublist.refl _
    | cons c s =>
      rw [subFuel]
      cases hmatch : if b = true then gutterMatch (c :: s) else none with
      | none => exact (ih _ s).cons_cons c
      | some found =>
        obtain ⟨rest, b'⟩ := found
        split at hmatch
        · obtain ⟨first, taken, hs⟩ := gutterMatch_split hmatch
          rw [hs]
          exact (ih b' rest).trans ((List.sublist_append_right _ _).cons _)
        · cases hmatch

theorem subGutters_sublist (b : Bool) (s : Text) : (subGutters b s).Sublist s :=
  subFuel_sublist _ b s

/-! ## Texts that look numbered -/

theorem isSome_gutterMatch_append {line : Text} (h : (gutterMatch line).isSome = true)
    (rest : Text) : (gutterMatch (line ++ rest)).isSome = true := by
  -- where a part of the match is not empty, it ends where it did
  have hdrop : ∀ (p : Char → Bool) (u : Text), u.dropWhile p ≠ [] →
      (u ++ rest).dropWhile p = u.dropWhile p ++ rest := by
    intro p u hne
    rw [List.dropWhile_append, if_neg (by simpa using hne)]
  unfold gutterMatch at h
  split at h
  · cases h
  next hdigits =>
    have hline : lstrip line ≠ [] := by
      intro hnil
      rw [hnil] at hdigits
      exact hdigits rfl
    have hwhole : lstrip (line ++ rest) = lstrip line ++ rest := hdrop isSpace line hline
    have htake : (lstrip line ++ rest).takeWhile isDigit ≠ [] := by
      cases hl : lstrip line with
      | nil => exact absurd hl hline
      | cons c more =>
        rw [hl] at hdigits
        rw [List.cons_append, List.takeWhile_cons]
        rw [List.takeWhile_cons] at hdigits
        split
        · exact List.cons_ne_nil _ _
        next hc => rw [if_neg hc] at hdigits; exact absurd rfl hdigits
    have hmore : ∀ bar : Char, ∀ more : Text,
        lstrip ((lstrip line).dropWhile isDigit) = bar :: more →
        lstrip ((lstrip (line ++ rest)).dropWhile isDigit) = bar :: (more ++ rest) := by
      intro bar more heq
      have hrest : (lstrip line).dropWhile isDigit ≠ [] := by
        intro hnil
        rw [hnil] at heq
        cases heq
      have hend : lstrip ((lstrip line).dropWhile isDigit ++ rest) =
          lstrip ((lstrip line).dropWhile isDigit) ++ rest := by
        refine hdrop isSpace _ fun hnil => ?_
        rw [lstrip, hnil] at heq
        cases heq
      rw [hwhole, hdrop isDigit _ hrest, hend, heq, List.cons_append]
    rw [gutterMatch, if_neg]
    · split at h
      next more heq =>
        rw [hmore _ _ heq]
        rfl
      next => cases h
    · rwa [hwhole]

theorem gutterMatch_spaces {w : Text} (h : ∀ c ∈ w, isSpace c = true) (s : Text) :
    gutterMatch (w ++ s) = gutterMatch s := by
  rw [gutterMatch, gutterMatch, lstrip_append h]

/-- A match starts at the first line that is not blank. -/
theorem isSome_gutterMatch_filled : ∀ (ls : List Text) (line : Text) (more : List Text),
    ls.filter (fun line => strip line ≠ []) = line :: more →
    (gutterMatch line).isSome = true → (gutterMatch (join '\n' ls)).isSome = true
  | [], _, _, h, _ => by cases h
  | first :: ls, line, more, h, hline => by
    by_cases hblank : strip first = []
    · rw [List.filter_cons_of_neg (by simpa using hblank)] at h
      have ih := isSome_gutterMatch_filled ls line more h hline
      cases ls with
      | nil => cases h
      | cons second ls =>
        have hspace : ∀ c ∈ first ++ ['\n'], isSpace c = true := by
          intro c hc
          rcases List.mem_append.mp hc with hc | hc
          · exact space_of_blank hblank c hc
          · rw [List.mem_singleton.mp hc]
            rfl
        rw [join_cons_cons, List.append_cons, gutterMatch_spaces hspace]
        exact ih
    · rw [List.filter_cons_of_pos (by simpa using hblank)] at h
      cases h
      cases ls with
      | nil => rwa [join_singleton]
      | cons second ls =>
        rw [join_cons_cons]
        exact isSome_gutterMatch_append hline _

/-- A text that looks numbered is changed. -/
theorem stripNumbers_eq_self (value : Text) :
    stripNumbers value = value ↔ isNumberedText value = false := by
  constructor
  · intro hsame
    by_contra hnumbered
    rw [Bool.not_eq_false] at hnumbered
    have hne : value ≠ [] := by
      intro he
      subst he
      exact absurd hnumbered (by decide)
    rw [stripNumbers, hnumbered, if_pos (by simp [hne])] at hsame
    simp only [isNumberedText, Bool.and_eq_true, decide_eq_true_eq] at hnumbered
    obtain ⟨hfilled, hall⟩ := hnumbered
    obtain ⟨line, more, heq⟩ := List.exists_cons_of_ne_nil hfilled
    rw [heq, List.all_cons, Bool.and_eq_true] at hall
    have hmatch := isSome_gutterMatch_filled (lines value) line more heq hall.1
    rw [join_lines] at hmatch
    obtain ⟨⟨rest, b⟩, hmatch⟩ := Option.isSome_iff_exists.mp hmatch
    have hlt := gutterMatch_shorter hmatch
    have hle := (subGutters_sublist b rest).length_le
    rw [← subGutters_match hmatch, hsame] at hle
    omega
  · intro h
    rw [stripNumbers, h, Bool.and_false]
    rfl

/-! ## Copies of a read -/

/-- A line of a read, without some of the white space it ends with. -/
def Copied (width : Nat) (copy : Text) (entry : Nat × Text) : Prop :=
  ∃ w, numberedLine width entry = copy ++ w ∧ ∀ c ∈ w, isSpace c = true

/-- Every line of the copy but the last has more than its gutter. -/
def KeepsBlanks (width : Nat) : List Text → List (Nat × Text) → Prop
  | copy :: next :: copies, entry :: block =>
    copy ≠ gutterOf width entry.1 ∧ KeepsBlanks width (next :: copies) block
  | _, _ => True

/-- The line without some of the white space it ends with. -/
def Trimmed (got line : Text) : Prop := ∃ w, line = got ++ w ∧ ∀ c ∈ w, isSpace c = true

variable {width : Nat}

theorem gutterOf_ends (width n : Nat) : ∃ front, gutterOf width n = front ++ ['|'] :=
  ⟨_, (List.append_assoc _ _ _).symm⟩

/-- What is left of the line: the gutter alone, or the gutter and some of the line. -/
theorem Copied.cases {copy : Text} {entry : Nat × Text} (h : Copied width copy entry) :
    (copy = gutterOf width entry.1 ∧ Trimmed [] entry.2) ∨
      ∃ got, copy = gutterOf width entry.1 ++ ' ' :: got ∧ Trimmed got entry.2 := by
  obtain ⟨w, heq, hw⟩ := h
  rcases List.append_eq_append_iff.mp heq with ⟨tail, hcopy, htail⟩ | ⟨tail, hgutter, htail⟩
  · cases tail with
    | nil =>
      rw [List.append_nil] at hcopy
      rw [List.nil_append] at htail
      exact .inl ⟨hcopy, entry.2, rfl, fun c hc => hw c (htail ▸ List.mem_cons_of_mem _ hc)⟩
    | cons c got =>
      rw [List.cons_append, List.cons.injEq] at htail
      rw [← htail.1] at hcopy
      exact .inr ⟨got, hcopy, w, htail.2, hw⟩
  · rcases List.eq_nil_or_concat tail with rfl | ⟨front, last, rfl⟩
    · rw [List.append_nil] at hgutter
      rw [List.nil_append] at htail
      exact .inl ⟨hgutter.symm, entry.2, rfl, fun c hc => hw c (htail ▸ List.mem_cons_of_mem _ hc)⟩
    · -- the gutter ends in a bar, which is no white space
      obtain ⟨front', hbar⟩ := gutterOf_ends width entry.1
      rw [hbar, List.concat_eq_append, ← List.append_assoc] at hgutter
      have hlast := (List.append_inj' hgutter rfl).2
      have hspace := hw last (by rw [htail]; simp)
      rw [← List.singleton_inj.mp hlast] at hspace
      exact absurd hspace (by decide)

theorem sub_gutter (n : Nat) (rest : Text) :
    subGutters true (gutterOf width n ++ rest) = subGutters (afterBar rest).2 (afterBar rest).1 :=
  subGutters_match (gutterMatch_gutter width n rest)

theorem sub_kept {got : Text} (hgot : '\n' ∉ got) (n : Nat) (rest : Text) :
    subGutters true (gutterOf width n ++ ' ' :: (got ++ rest)) = got ++ subGutters false rest := by
  rw [sub_gutter]
  exact subGutters_line hgot rest

theorem newline_not_mem_trimmed {got line : Text} (h : Trimmed got line) (hline : '\n' ∉ line) :
    '\n' ∉ got := by
  obtain ⟨w, rfl, -⟩ := h
  exact fun hc => hline (List.mem_append_left w hc)

/-- A copy whose lines keep a blank behind their bars comes back line by line. -/
theorem sub_copies {copies : List Text} {block : List (Nat × Text)}
    (hcopy : List.Forall₂ (Copied width) copies block)
    (hblock : ∀ entry ∈ block, '\n' ∉ entry.2) (h : KeepsBlanks width copies block) :
    ∃ got, List.Forall₂ Trimmed got (block.map Prod.snd) ∧
      (copies = block.map (numberedLine width) → got = block.map Prod.snd) ∧
      subGutters true (join '\n' copies) = join '\n' got := by
  induction hcopy with
  | nil => exact ⟨[], .nil, fun _ => rfl, rfl⟩
  | @cons copy entry copies block hhead htail ih =>
    have hline := hblock entry List.mem_cons_self
    cases htail with
    | nil =>
      rw [join_singleton]
      rcases hhead.cases with ⟨rfl, htrim⟩ | ⟨got, rfl, htrim⟩
      · refine ⟨[[]], .cons htrim .nil, fun heq => ?_, ?_⟩
        · have hlen := congrArg List.length (List.cons.inj heq).1
          rw [numberedLine, List.length_append, List.length_cons] at hlen
          omega
        · have hbare := @sub_gutter width entry.1 []
          rw [List.append_nil] at hbare
          rw [hbare]
          rfl
      · refine ⟨[got], .cons htrim .nil, fun heq => ?_, ?_⟩
        · have hgot := List.append_cancel_left (List.cons.inj heq).1
          rw [(List.cons.inj hgot).2]
          rfl
        · have hkept := @sub_kept width got (newline_not_mem_trimmed htrim hline) entry.1 []
          rw [List.append_nil] at hkept
          rw [hkept, join_singleton, subGutters_nil, List.append_nil]
    | @cons next entry' copies block hnext hrest =>
      obtain ⟨hkeep, hmore⟩ := h
      obtain ⟨gots, htrims, hfull, hsub⟩ :=
        ih (fun e he => hblock e (List.mem_cons_of_mem _ he)) hmore
      rcases hhead.cases with ⟨rfl, -⟩ | ⟨got, rfl, htrim⟩
      · exact absurd rfl hkeep
      · refine ⟨got :: gots, .cons htrim htrims, fun heq => ?_, ?_⟩
        · obtain ⟨hfirst, hothers⟩ := List.cons.inj heq
          have hgot := List.append_cancel_left hfirst
          rw [(List.cons.inj hgot).2, hfull hothers]
          rfl
        · cases htrims with
          | cons _ _ =>
            rw [join_cons_cons, join_cons_cons, List.append_assoc, List.cons_append,
              sub_kept (newline_not_mem_trimmed htrim hline), subGutters_cons, ← hsub]
            rfl

theorem newline_not_mem_gutter (width n : Nat) : '\n' ∉ gutterOf width n := by
  intro h
  rcases List.mem_append.mp h with h | h
  · exact absurd (List.eq_of_mem_replicate h) (by decide)
  · rcases List.mem_append.mp h with h | h
    · exact absurd (Nat.isDigit_of_mem_toDigits (by omega) (by omega) h) (by decide)
    · exact absurd (List.mem_singleton.mp h) (by decide)

theorem newline_not_mem_copied {copy : Text} {entry : Nat × Text} (h : Copied width copy entry)
    (hline : '\n' ∉ entry.2) : '\n' ∉ copy := by
  obtain ⟨w, heq, -⟩ := h
  intro hc
  have hmem : '\n' ∈ numberedLine width entry := heq ▸ List.mem_append_left w hc
  rcases List.mem_append.mp hmem with hmem | hmem
  · exact newline_not_mem_gutter width entry.1 hmem
  · exact hline ((List.mem_cons.mp hmem).resolve_left (by decide))

theorem ne_gutter (width n : Nat) (got : Text) :
    gutterOf width n ++ ' ' :: got ≠ gutterOf width n := by
  intro h
  exact List.cons_ne_nil _ _ (List.append_right_eq_self.mp h)

/-- A line end is lost with every bar at the end of a line that is not the last. -/
theorem count_sub_copies {copies : List Text} {block : List (Nat × Text)}
    (hcopy : List.Forall₂ (Copied width) copies block)
    (hblock : ∀ entry ∈ block, '\n' ∉ entry.2) (hne : copies ≠ []) :
    (subGutters true (join '\n' copies)).count '\n' + 1 ≤ copies.length ∧
      (¬ KeepsBlanks width copies block →
        (subGutters true (join '\n' copies)).count '\n' + 1 < copies.length) := by
  induction hcopy with
  | nil => exact absurd rfl hne
  | @cons copy entry copies block hhead htail ih =>
    have hline := hblock entry List.mem_cons_self
    cases htail with
    | nil =>
      have hle := (subGutters_sublist true copy).count_le '\n'
      rw [List.count_eq_zero_of_not_mem (newline_not_mem_copied hhead hline)] at hle
      rw [join_singleton, Nat.le_zero.mp hle]
      exact ⟨Nat.le_refl _, fun h => absurd trivial h⟩
    | @cons next entry' copies block hnext hrest =>
      obtain ⟨hle, hlt⟩ :=
        ih (fun e he => hblock e (List.mem_cons_of_mem _ he)) (List.cons_ne_nil _ _)
      rw [join_cons_cons, List.length_cons]
      rcases hhead.cases with ⟨rfl, -⟩ | ⟨got, rfl, htrim⟩
      · have hbare : subGutters true (gutterOf width entry.1 ++ '\n' :: join '\n' (next :: copies)) =
            subGutters true (join '\n' (next :: copies)) := sub_gutter _ _
        rw [hbare]
        exact ⟨by omega, fun _ => by omega⟩
      · have hgot := newline_not_mem_trimmed htrim hline
        rw [List.append_assoc, List.cons_append, sub_kept hgot, subGutters_cons, List.count_append,
          List.count_cons, List.count_eq_zero_of_not_mem hgot]
        refine ⟨by simpa using hle, fun hbare => ?_⟩
        have := hlt fun hkeep => hbare ⟨ne_gutter _ _ _, hkeep⟩
        simpa using this

/-! ## The round trip -/

/-- The copy comes back as the lines of the block: up to the white space they end with,
and exactly when nothing was dropped. -/
def RoundTrips (width : Nat) (copies : List Text) (block : List (Nat × Text)) : Prop :=
  (lines (stripNumbers (join '\n' copies))).map rstrip = block.map (fun e => rstrip e.2) ∧
    (copies = block.map (numberedLine width) →
      lines (stripNumbers (join '\n' copies)) = block.map Prod.snd)

theorem lines_join {ls : List Text} (h : ∀ line ∈ ls, '\n' ∉ line) (hne : ls ≠ []) :
    lines (join '\n' ls) = ls := List.splitOn_intercalate '\n' h hne

theorem length_le_count_join (ls : List Text) : ls.length ≤ (join '\n' ls).count '\n' + 1 := by
  induction ls with
  | nil => exact Nat.zero_le _
  | cons first ls ih =>
    cases ls with
    | nil => rw [join_singleton]; exact Nat.le_add_left 1 _
    | cons second ls =>
      rw [join_cons_cons, List.count_append, List.count_cons_self, List.length_cons]
      omega

theorem Copied.opens {copy : Text} {entry : Nat × Text} (h : Copied width copy entry) :
    ∃ rest, copy = gutterOf width entry.1 ++ rest := by
  rcases h.cases with ⟨heq, -⟩ | ⟨got, heq, -⟩
  · exact ⟨[], heq.trans (List.append_nil _).symm⟩
  · exact ⟨_, heq⟩

/-- Copied lines are not blank and carry their gutters. -/
theorem isNumberedText_copies {copies : List Text} {block : List (Nat × Text)}
    (hcopy : List.Forall₂ (Copied width) copies block)
    (hblock : ∀ entry ∈ block, '\n' ∉ entry.2) (hne : copies ≠ []) :
    isNumberedText (join '\n' copies) = true := by
  have hopens : ∀ copy ∈ copies, '\n' ∉ copy ∧ ∃ n rest, copy = gutterOf width n ++ rest := by
    clear hne
    induction hcopy with
    | nil => simp
    | @cons copy entry copies block hhead htail ih =>
      intro c hc
      rcases List.mem_cons.mp hc with rfl | hc
      · obtain ⟨rest, heq⟩ := hhead.opens
        exact ⟨newline_not_mem_copied hhead (hblock entry List.mem_cons_self), _, rest, heq⟩
      · exact ih (fun e he => hblock e (List.mem_cons_of_mem _ he)) c hc
  have hfilled : filledLines (join '\n' copies) = copies := by
    rw [filledLines, lines_join (fun c hc => (hopens c hc).1) hne, List.filter_eq_self]
    intro copy hc
    obtain ⟨-, n, rest, rfl⟩ := hopens copy hc
    obtain ⟨front, hbar⟩ := gutterOf_ends width n
    rw [decide_eq_true_eq]
    intro hblank
    have hspace := space_of_blank hblank '|' (by rw [hbar]; simp)
    exact absurd hspace (by decide)
  rw [isNumberedText, hfilled, Bool.and_eq_true, decide_eq_true_eq, List.all_eq_true]
  refine ⟨hne, fun copy hc => ?_⟩
  obtain ⟨-, n, rest, rfl⟩ := hopens copy hc
  rw [gutterMatch_gutter]
  rfl

theorem stripNumbers_copies {copies : List Text} {block : List (Nat × Text)}
    (hcopy : List.Forall₂ (Copied width) copies block)
    (hblock : ∀ entry ∈ block, '\n' ∉ entry.2) (hne : copies ≠ []) :
    stripNumbers (join '\n' copies) = subGutters true (join '\n' copies) := by
  have hnumbered := isNumberedText_copies hcopy hblock hne
  have hjoin : join '\n' copies ≠ [] := by
    intro hnil
    rw [hnil] at hnumbered
    exact absurd hnumbered (by decide)
  rw [stripNumbers, hnumbered, if_pos (by simp [hjoin])]

theorem rstrip_trimmed {got line : Text} (h : Trimmed got line) : rstrip got = rstrip line := by
  obtain ⟨w, rfl, hw⟩ := h
  rw [rstrip_append, if_pos (rstrip_spaces hw)]

theorem map_rstrip_trimmed {got ls : List Text} (h : List.Forall₂ Trimmed got ls) :
    got.map rstrip = ls.map rstrip := by
  induction h with
  | nil => rfl
  | cons htrim _ ih => rw [List.map_cons, List.map_cons, rstrip_trimmed htrim, ih]

theorem roundTrips_iff {copies : List Text} {block : List (Nat × Text)}
    (hcopy : List.Forall₂ (Copied width) copies block)
    (hblock : ∀ entry ∈ block, '\n' ∉ entry.2) (hne : block ≠ []) :
    RoundTrips width copies block ↔ KeepsBlanks width copies block := by
  have hlen : copies.length = block.length := hcopy.length_eq
  have hcopies : copies ≠ [] := by
    intro heq
    subst heq
    exact hne (List.eq_nil_of_length_eq_zero hlen.symm)
  rw [RoundTrips, stripNumbers_copies hcopy hblock hcopies]
  constructor
  · intro h
    obtain ⟨hlines, -⟩ := h
    by_contra hbare
    -- a bare bar has taken a line end, so that a line is missing
    have hlt := (count_sub_copies hcopy hblock hcopies).2 hbare
    have hle := length_le_count_join (lines (subGutters true (join '\n' copies)))
    have hsame := congrArg List.length hlines
    rw [List.length_map, List.length_map] at hsame
    rw [join_lines] at hle
    omega
  · intro hkeep
    obtain ⟨got, htrims, hfull, hsub⟩ := sub_copies hcopy hblock hkeep
    have hgot : ∀ line ∈ got, '\n' ∉ line := by
      intro line hl
      obtain ⟨i, hi, rfl⟩ := List.getElem_of_mem hl
      have htrim := (List.forall₂_iff_get.mp htrims).2 i hi (htrims.length_eq ▸ hi)
      refine newline_not_mem_trimmed htrim ?_
      simp only [List.get_eq_getElem, List.getElem_map]
      exact hblock _ (List.getElem_mem _)
    have hgotne : got ≠ [] := by
      intro heq
      subst heq
      have := htrims.length_eq
      rw [List.length_map] at this
      exact hne (List.eq_nil_of_length_eq_zero this.symm)
    rw [hsub, lines_join hgot hgotne]
    refine ⟨?_, hfull⟩
    rw [map_rstrip_trimmed htrims, List.map_map]
    rfl

theorem newline_not_mem_entries {first : Nat} {body : Text} {entry : Nat × Text}
    (h : entry ∈ entries first body) : '\n' ∉ entry.2 := by
  obtain ⟨p, hp, rfl⟩ := List.mem_map.mp h
  obtain ⟨line, i⟩ := p
  exact newline_not_mem_lines body line (List.fst_mem_of_mem_zipIdx hp)

/-- The lines of a read are the lines of the file with their numbers. -/
theorem lines_numberTheLines {r : ReadData}
    (h : r.ok = true ∧ r.outlined = false ∧ r.unchanged = false ∧ r.content ≠ []) :
    lines (numberTheLines r).content =
      (entries r.first r.content).map (numberedLine (gutterWidth r.first r.content)) := by
  obtain ⟨hok, hout, hun, hne⟩ := h
  rw [numberTheLines, if_neg (by simp [hok, hout, hun, hne])]
  refine lines_join (fun line hl => ?_) ?_
  · obtain ⟨entry, he, rfl⟩ := List.mem_map.mp hl
    intro hc
    rcases List.mem_append.mp hc with hc | hc
    · exact newline_not_mem_gutter _ _ hc
    · exact newline_not_mem_entries he ((List.mem_cons.mp hc).resolve_left (by decide))
  · have := lines_ne_nil r.content
    simpa [entries, List.zipIdx_eq_nil_iff] using this

/-- A block of a read comes back as it is in the file exactly when no line but the last
lost the blank behind its bar; and a patch is left alone exactly when neither text looks
numbered. -/
theorem gutter_round_trip (first : Nat) (body : Text) (block : List (Nat × Text))
    (copies : List Text) (hblock : block <:+: entries first body) (hne : block ≠ [])
    (hcopy : List.Forall₂ (Copied (gutterWidth first body)) copies block)
    (arguments : PatchArguments) :
    (RoundTrips (gutterWidth first body) copies block ↔
      KeepsBlanks (gutterWidth first body) copies block) ∧
    (stripLineNumbers arguments = arguments ↔
      (∀ old ∈ arguments.oldString, isNumberedText old = false) ∧
        ∀ new ∈ arguments.newString, isNumberedText new = false) := by
  refine ⟨roundTrips_iff hcopy (fun e he => newline_not_mem_entries (hblock.subset he)) hne, ?_⟩
  have hpart : ∀ value : Option Text, value.map stripNumbers = value ↔
      ∀ t ∈ value, isNumberedText t = false := by
    intro value
    cases value with
    | none => simp
    | some t => simp [stripNumbers_eq_self]
  obtain ⟨old, new⟩ := arguments
  rw [stripLineNumbers, PatchArguments.mk.injEq, hpart, hpart]

/-- Three lines, the second empty, copied with their blanks. -/
theorem gutter_round_trip_whole :
    RoundTrips 1 ["1| a".toList, "2| ".toList, "3| b".toList] (entries 1 "a\n\nb".toList) :=
  (gutter_round_trip 1 "a\n\nb".toList (entries 1 "a\n\nb".toList) _ List.infix_rfl (by decide)
    (.cons ⟨[], rfl, nofun⟩ (.cons ⟨[], rfl, nofun⟩ (.cons ⟨[], rfl, nofun⟩ .nil)))
    { oldString := none, newString := none }).1.mpr ⟨by decide, by decide, trivial⟩

/-- The same lines without the blank at the end of the second. -/
theorem gutter_eats_line :
    ¬ ∀ (first : Nat) (body : Text) (block : List (Nat × Text)) (copies : List Text),
      block <:+: entries first body → block ≠ [] →
      List.Forall₂ (Copied (gutterWidth first body)) copies block →
      RoundTrips (gutterWidth first body) copies block := by
  intro h
  have htrip := h 1 "a\n\nb".toList (entries 1 "a\n\nb".toList)
    ["1| a".toList, "2|".toList, "3| b".toList] List.infix_rfl (by decide)
    (.cons ⟨[], rfl, nofun⟩ (.cons ⟨[' '], rfl, by simp [isSpace]⟩ (.cons ⟨[], rfl, nofun⟩ .nil)))
  exact absurd htrip.1 (by decide)

end Shamsu.Chat
