import Shamsu.Llm.RawFence
import Shamsu.Patch.Unified
import Shamsu.Py.Search
import Shamsu.Py.SourceLines
import Shamsu.Safety.Commands

/-!
# Diffs as a model writes them

`shamsu/patch/sanitize.py`: `sanitize_model_diff` takes the reasoning out, unwraps a fenced block,
drops lines that are fences, what comes before the first header, and labels of context.

`sanitize_keeps`: a bare diff without fences, whose end is no white space, reads the same
afterwards, and a second time changes only a text whose lines had a fenced block that the text had
not. `sanitize_takes_out`: a line of context that is a fence is lost.
-/

namespace Shamsu.Patch

open Shamsu.Lib Shamsu.Py Shamsu.Llm Shamsu.Safety

def fence : Text := "```".toList

/-- `(?:diff|patch)?[ \t]*\n`. -/
def afterFenceLine (s : Text) : Option Text :=
  match (((afterTag "diff".toList s).or (afterTag "patch".toList s)).getD s).dropWhile
    isBlankChar with
  | '\n' :: body => some body
  | _ => none

/-- The body of a match of `_FENCED_BLOCK_RE` that starts here. -/
def fencedHere (s : Text) : Option Text := do
  let line ← afterTag fence s
  let body ← afterFenceLine line
  let stop ← find fence body
  some (body.take stop)

/-- The body of the first one. -/
def fencedBody : Text → Option Text
  | [] => none
  | c :: s => (fencedHere (c :: s)).or (fencedBody s)

/-- `(?:-\d+)?`. -/
def afterRange (c : Text) : Text :=
  match c with
  | '-' :: e => if (e.dropWhile isDigit).length < e.length then e.dropWhile isDigit else c
  | _ => c

/-- `\s+\d+(?:-\d+)?\)\s*$`. -/
def isRangeEnd (a : Text) : Bool :=
  let b := a.dropWhile isSpace
  let c := b.dropWhile isDigit
  decide (b.length < a.length) && decide (c.length < b.length) &&
    match afterRange c with
    | ')' :: rest => rest.all isSpace
    | _ => false

/-- `\(lines` before it: without case an `s` may be a long one. -/
def isLineRange (t : Text) : Bool :=
  (afterTag "(lines".toList t).any isRangeEnd || (afterTag "(line\u017f".toList t).any isRangeEnd

/-- `_SYNTHETIC_FILE_CONTEXT_RE.match`: white space, a name and white space before the range. -/
def isSyntheticContext (line : Text) : Bool :=
  match afterTag " # file:".toList line with
  | none => false
  | some rest =>
    (List.range (rest.length + 1)).any fun n =>
      decide (3 ≤ n) && (rest.take n).head?.any isSpace && (rest.take n).getLast?.any isSpace &&
        isLineRange (rest.drop n)

/-- What a diff starts with. -/
def isDiffStart (line : Text) : Bool :=
  ["diff --git ", "--- ", "*** ", "Index: "].any fun s => s.toList.isPrefixOf line

/-- `strip_reasoning(raw).strip()`. -/
def visibleText (raw : Text) : Text := strip (strip (stripThinkSpans raw))

/-- The text that is looked at: the block in a fence, or all of it. -/
def diffText (raw : Text) : Text :=
  match fencedBody (visibleText raw) with
  | some body => strip body
  | none => visibleText raw

def isFenceLine (line : Text) : Bool := fence.isPrefixOf (strip line)

/-- The lines of it that stay. -/
def keptLines (text : Text) : List Text :=
  let lines := (splitlines text).filter fun line => !isFenceLine line
  let lines := if lines.any isDiffStart then
    lines.dropWhile fun line => !isDiffStart line else lines
  lines.filter fun line => !isSyntheticContext line

/-- `cleaned`. -/
def cleanedText (raw : Text) : Text := strip (join '\n' (keptLines (diffText raw)))

/-- `sanitize_model_diff`. -/
def sanitizeModelDiff (raw : Text) : Text :=
  if cleanedText raw = [] then [] else cleanedText raw ++ ['\n']

theorem last_strip {s t : Text} {c : Char} (h : strip s = t ++ [c]) : isSpace c = false := by
  rw [Bool.eq_false_iff]
  intro hc
  have hpad := @strip_pad [] [c] nofun (fun d hd => List.mem_singleton.mp hd ▸ hc) t
  rw [List.nil_append, ← h, strip_strip, h] at hpad
  have hlen := congrArg List.length hpad
  have := length_strip_le t
  rw [List.length_append, List.length_singleton] at hlen
  omega

/-! ## Reasoning -/

section Tags

theorem afterTag_append {tag : Text} : ∀ {s r : Text}, afterTag tag s = some r → ∀ x : Text,
    afterTag tag (s ++ x) = some (r ++ x) := by
  induction tag with
  | nil =>
    intro s r h x
    cases h
    rfl
  | cons p tag ih =>
    intro s r h x
    cases s with
    | nil => cases h
    | cons c s =>
      unfold afterTag at h
      rw [List.cons_append, afterTag]
      split at h
      next hc =>
        rw [if_pos hc]
        exact ih h x
      · cases h

theorem afterTag_spec {tag : Text} : ∀ {s r : Text}, afterTag tag s = some r →
    ∃ x, s = x ++ r ∧ x.length = tag.length := by
  induction tag with
  | nil =>
    intro s r h
    cases h
    exact ⟨[], rfl, rfl⟩
  | cons p tag ih =>
    intro s r h
    cases s with
    | nil => cases h
    | cons c s =>
      unfold afterTag at h
      split at h
      · obtain ⟨x, rfl, hlen⟩ := ih h
        exact ⟨c :: x, rfl, congrArg (· + 1) hlen⟩
      · cases h

theorem ignoresCase_space {p c : Char} (hp : isSpace p = false) (hc : isSpace c = true) :
    ignoresCase p c = false := by
  rw [Bool.eq_false_iff]
  intro h
  simp only [ignoresCase, Bool.or_eq_true, Bool.and_eq_true, beq_iff_eq, decide_eq_true_eq] at h
  rcases h with ((rfl | ⟨⟨hlow, hhigh⟩, hcase⟩) | ⟨_, rfl | rfl⟩) | ⟨_, rfl⟩
  · rw [hp] at hc
    cases hc
  · have hlow' : 97 ≤ p.toNat := hlow
    have hhigh' : p.toNat ≤ 122 := hhigh
    simp only [isSpace, Bool.or_eq_true, Bool.and_eq_true, decide_eq_true_eq, beq_iff_eq] at hc
    omega
  all_goals exact absurd hc (by decide)

/-- A tag without white space does not go on into white space. -/
theorem afterTag_space {tag : Text} : ∀ {u v : Text}, (tag.all fun p => !isSpace p) = true →
    (∀ c ∈ v.head?, isSpace c = true) → afterTag tag (u ++ v) = (afterTag tag u).map (· ++ v) := by
  induction tag with
  | nil => exact fun _ _ => rfl
  | cons p tag ih =>
    intro u v htag hv
    rw [List.all_cons, Bool.and_eq_true, Bool.not_eq_true'] at htag
    cases u with
    | nil =>
      cases v with
      | nil => rfl
      | cons c v =>
        have hno : afterTag (p :: tag) (c :: v) = none := by
          rw [afterTag, ignoresCase_space htag.1 (hv c rfl), if_neg Bool.false_ne_true]
        exact hno
    | cons c u =>
      rw [List.cons_append, afterTag, afterTag]
      split
      · exact ih htag.2 hv
      · rfl

theorem hasThink_suffix {u x : Text} (h : hasThink (u ++ x) = false) : hasThink x = false := by
  induction u with
  | nil => exact h
  | cons c u ih => exact ih (hasThink_cons h).2

theorem hasThink_prefix {x v : Text} (h : hasThink (x ++ v) = false) : hasThink x = false := by
  induction x with
  | nil => rfl
  | cons c x ih =>
    obtain ⟨hnone, hrest⟩ := hasThink_cons h
    rw [hasThink, ih hrest, Bool.or_false, Option.isSome_eq_false_iff, Option.isNone_iff_eq_none]
    cases htag : afterTag openTag (c :: x) with
    | none => rfl
    | some r =>
      have hlonger := afterTag_append htag v
      cases hnone.symm.trans hlonger

theorem hasThink_infix {a b : Text} (h : hasThink b = false) (hab : a <:+: b) :
    hasThink a = false := by
  obtain ⟨u, v, rfl⟩ := hab
  rw [List.append_assoc] at h
  exact hasThink_prefix (hasThink_suffix h)

theorem hasThink_break {u v : Text} (hu : hasThink u = false) (hv : hasThink v = false) :
    hasThink (u ++ '\n' :: v) = false := by
  have hcut : ∀ t, afterTag openTag t = none → afterTag openTag (t ++ '\n' :: v) = none := by
    intro t ht
    rw [afterTag_space (by decide) (by rintro c ⟨⟩; rfl), ht]
    rfl
  induction u with
  | nil =>
    have hnone := hcut [] rfl
    rw [List.nil_append] at hnone
    rw [List.nil_append, hasThink, hv, hnone]
    rfl
  | cons c u ih =>
    obtain ⟨hnone, hrest⟩ := hasThink_cons hu
    have hnone' := hcut (c :: u) hnone
    rw [List.cons_append] at hnone'
    rw [List.cons_append, hasThink, ih hrest, hnone']
    rfl

theorem hasThink_join {l : List Text} (h : ∀ line ∈ l, hasThink line = false) :
    hasThink (join '\n' l) = false := by
  induction l with
  | nil => rfl
  | cons a l ih =>
    cases l with
    | nil =>
      rw [join_singleton]
      exact h a List.mem_cons_self
    | cons b l =>
      rw [join_cons_cons]
      exact hasThink_break (h a List.mem_cons_self)
        (ih fun line hline => h line (List.mem_cons_of_mem a hline))

theorem stripDangling_start (s : Text) : stripDangling s <+: s := by
  induction s with
  | nil => exact List.prefix_rfl
  | cons c s ih =>
    rw [stripDangling]
    split
    · exact List.nil_prefix
    · exact (List.prefix_cons_inj c).mpr ih

/-- What is left has no reasoning. -/
theorem hasThink_stripDangling (s : Text) : hasThink (stripDangling s) = false := by
  induction s with
  | nil => rfl
  | cons c s ih =>
    rw [stripDangling]
    split
    · rfl
    next hno =>
      rw [hasThink, ih, Bool.or_false]
      rw [Bool.eq_false_iff]
      intro hsome
      obtain ⟨r, hr⟩ := Option.isSome_iff_exists.mp hsome
      obtain ⟨x, hx⟩ := (List.prefix_cons_inj c).mpr (stripDangling_start s)
      have := afterTag_append hr x
      rw [hx] at this
      exact hno (Option.isSome_iff_exists.mpr ⟨_, this⟩)

end Tags

/-! ## Lines -/

section Lines

theorem keptLines_sublist (text : Text) : (keptLines text).Sublist (splitlines text) := by
  unfold keptLines
  dsimp only
  have hfence : ((splitlines text).filter fun line => !isFenceLine line).Sublist
      (splitlines text) := List.filter_sublist
  refine List.filter_sublist.trans (List.Sublist.trans ?_ hfence)
  split
  · exact (List.dropWhile_suffix _).sublist
  · exact List.Sublist.refl _

/-- What lines take in a text. -/
def weight (l : List Text) : Nat := (l.map fun line => line.length + 1).sum

theorem length_join_lt (l : List Text) : l = [] ∨ (join '\n' l).length + 1 = weight l := by
  induction l with
  | nil => exact Or.inl rfl
  | cons a l ih =>
    right
    cases l with
    | nil => simp [join_singleton, weight]
    | cons b l =>
      have hrest := ih.resolve_left (List.cons_ne_nil b l)
      rw [join_cons_cons, List.length_append, List.length_cons]
      simp only [weight, List.map_cons, List.sum_cons] at hrest ⊢
      omega

theorem weight_splitlinesFrom (s : Text) : ∀ acc : Text,
    weight (splitlinesFrom acc s) ≤ acc.length + s.length + 1 := by
  intro acc
  induction acc, s using splitlinesFrom.induct with
  | case1 acc hacc => simp [splitlinesFrom, hacc, weight]
  | case2 acc hacc => simp [splitlinesFrom, hacc, weight]
  | case3 acc s ih =>
    rw [splitlinesFrom]
    simp only [weight, List.map_cons, List.sum_cons, List.length_reverse, List.length_cons] at ih ⊢
    simp only [List.length_nil] at ih
    omega
  | case4 acc c s hne hbreak ih =>
    rw [splitlinesFrom, if_pos hbreak]
    · simp only [weight, List.map_cons, List.sum_cons, List.length_reverse,
        List.length_cons] at ih ⊢
      simp only [List.length_nil] at ih
      omega
    · exact hne
  | case5 acc c s hne hbreak ih =>
    rw [splitlinesFrom, if_neg hbreak]
    · rw [List.length_cons] at ih
      rw [List.length_cons]
      omega
    · exact hne

theorem weight_sublist {a b : List Text} (h : a.Sublist b) : weight a ≤ weight b := by
  unfold weight
  induction h with
  | slnil => exact Nat.le_refl _
  | cons line h ih =>
    rw [List.map_cons, List.sum_cons]
    omega
  | cons_cons line h ih =>
    rw [List.map_cons, List.sum_cons, List.map_cons, List.sum_cons]
    omega

/-- Cleaning makes nothing longer. -/
theorem length_keptLines_le (text : Text) : (join '\n' (keptLines text)).length ≤ text.length := by
  rcases length_join_lt (keptLines text) with hnil | hlen
  · rw [hnil]
    exact Nat.zero_le _
  · have hle := weight_sublist (keptLines_sublist text)
    have hw := weight_splitlinesFrom text []
    rw [List.length_nil] at hw
    unfold splitlines at hle
    omega

theorem plain_keptLines {text line : Text} (h : line ∈ keptLines text) : IsPlain line :=
  isPlain_splitlines ((keptLines_sublist text).subset h)

theorem isDiffStart_head {line : Text} (h : isDiffStart line = true) :
    ∃ c t, line = c :: t ∧ isSpace c = false ∧ c ≠ '`' := by
  obtain ⟨s, hs, hp⟩ := List.any_eq_true.mp h
  obtain ⟨t, rfl⟩ := List.isPrefixOf_iff_prefix.mp hp
  simp only [List.mem_cons, List.not_mem_nil, or_false] at hs
  rcases hs with rfl | rfl | rfl | rfl
  · exact ⟨'d', _, rfl, by decide, by decide⟩
  · exact ⟨'-', _, rfl, by decide, by decide⟩
  · exact ⟨'*', _, rfl, by decide, by decide⟩
  · exact ⟨'I', _, rfl, by decide, by decide⟩

theorem isDiffStart_append {line : Text} (h : isDiffStart line = true) (x : Text) :
    isDiffStart (line ++ x) = true := by
  obtain ⟨s, hs, hp⟩ := List.any_eq_true.mp h
  refine List.any_eq_true.mpr ⟨s, hs, ?_⟩
  rw [List.isPrefixOf_iff_prefix] at hp ⊢
  exact hp.trans (List.prefix_append _ _)

/-- A label starts with a blank. -/
theorem isSyntheticContext_head {line : Text} (h : isSyntheticContext line = true) :
    ∃ c t, line = c :: t ∧ isSpace c = true := by
  unfold isSyntheticContext at h
  split at h
  · cases h
  next rest htag =>
    cases line with
    | nil => cases htag
    | cons c t =>
      refine ⟨c, t, rfl, ?_⟩
      have hc : ignoresCase ' ' c = true := by
        by_contra hno
        have hlit : " # file:".toList = ' ' :: "# file:".toList := rfl
        rw [hlit, afterTag, if_neg hno] at htag
        cases htag
      have heq : c = ' ' := by
        unfold ignoresCase at hc
        simpa using hc
      rw [heq]
      decide

/-- The first of the lines that stay is a header, if one of them is. -/
theorem keptLines_start {text line : Text} (h : line ∈ keptLines text)
    (hstart : isDiffStart line = true) :
    ∃ first more, keptLines text = first :: more ∧ isDiffStart first = true := by
  unfold keptLines at h ⊢
  dsimp only at h ⊢
  generalize (splitlines text).filter (fun line => !isFenceLine line) = l at h ⊢
  have hany : l.any isDiffStart = true := by
    refine List.any_eq_true.mpr ⟨line, ?_, hstart⟩
    have hmem := List.mem_of_mem_filter h
    split at hmem
    · exact (List.dropWhile_suffix _).subset hmem
    · exact hmem
  rw [if_pos hany]
  cases hdrop : l.dropWhile fun line => !isDiffStart line with
  | nil =>
    obtain ⟨first, hfirst, hs⟩ := List.any_eq_true.mp hany
    have := List.dropWhile_eq_nil_iff.mp hdrop first hfirst
    rw [hs] at this
    cases this
  | cons first more =>
    have hfirst : isDiffStart first = true := by
      have := List.head?_dropWhile_not (fun line => !isDiffStart line) l
      rw [hdrop] at this
      simpa using this
    have hlabel : isSyntheticContext first = false := by
      rw [Bool.eq_false_iff]
      intro hl
      obtain ⟨c, t, rfl, hc⟩ := isSyntheticContext_head hl
      obtain ⟨c', t', heq, hc', _⟩ := isDiffStart_head hfirst
      rw [(List.cons.inj heq).1, hc'] at hc
      cases hc
    refine ⟨first, more.filter fun line => !isSyntheticContext line, ?_, hfirst⟩
    rw [List.filter_cons_of_pos (by rw [hlabel]; rfl)]

theorem of_mem_keptLines {text line : Text} (h : line ∈ keptLines text) :
    isFenceLine line = false ∧ isSyntheticContext line = false := by
  unfold keptLines at h
  dsimp only at h
  obtain ⟨hmem, hlabel⟩ := List.mem_filter.mp h
  have hlines : line ∈ (splitlines text).filter fun line => !isFenceLine line := by
    split at hmem
    · exact (List.dropWhile_suffix _).subset hmem
    · exact hmem
  have hfence := (List.mem_filter.mp hlines).2
  exact ⟨by simpa using hfence, by simpa using hlabel⟩

/-- Lines that all stay. -/
theorem keptLines_all {text first : Text} {more : List Text}
    (hlines : splitlines text = first :: more)
    (hstart : (∃ line ∈ splitlines text, isDiffStart line = true) → isDiffStart first = true)
    (hkeep : ∀ line ∈ splitlines text, isFenceLine line = false ∧ isSyntheticContext line = false) :
    keptLines text = splitlines text := by
  unfold keptLines
  dsimp only
  have hfence : ((splitlines text).filter fun line => !isFenceLine line) = splitlines text :=
    List.filter_eq_self.mpr fun line hline => by rw [(hkeep line hline).1]; rfl
  rw [hfence]
  have hdrop : (if (splitlines text).any isDiffStart then
      (splitlines text).dropWhile fun line => !isDiffStart line else splitlines text) =
        splitlines text := by
    split
    next hany =>
      obtain ⟨line, hline, hs⟩ := List.any_eq_true.mp hany
      have hfirst := hstart ⟨line, hline, hs⟩
      rw [hlines, List.dropWhile_cons_of_neg (by rw [hfirst]; decide)]
    · rfl
  rw [hdrop]
  exact List.filter_eq_self.mpr fun line hline => by rw [(hkeep line hline).2]; rfl

end Lines

/-! ## Lines of a stripped text -/

section Stripped

/-- A part of a line in a text of lines. -/
theorem mem_of_join {l : Text} (hl : '\n' ∉ l) : ∀ {lines : List Text} {p q : Text},
    lines ≠ [] → join '\n' lines = p ++ (l ++ q) →
    ∃ w w', w ++ (l ++ w') ∈ lines ∧ w <:+ p ∧ w' <+: q := by
  intro lines
  induction lines with
  | nil => exact fun hne _ => absurd rfl hne
  | cons a lines ih =>
    intro p q _ h
    cases lines with
    | nil =>
      rw [join_singleton] at h
      exact ⟨p, q, h ▸ List.mem_cons_self, List.suffix_rfl, List.prefix_rfl⟩
    | cons b lines =>
      rw [join_cons_cons] at h
      rcases List.append_eq_append_iff.mp h with ⟨t, hp, hrest⟩ | ⟨t, ha, hrest⟩
      · cases t with
        | nil =>
          -- the part would start at a line break
          cases l with
          | nil =>
            refine ⟨a, [], ?_, by rw [hp, List.append_nil], List.nil_prefix⟩
            rw [List.append_nil, List.append_nil]
            exact List.mem_cons_self
          | cons c l => exact absurd (List.mem_cons.mpr (Or.inl (List.cons.inj hrest).1)) hl
        | cons d t =>
          obtain ⟨w, w', hmem, hw, hw'⟩ := ih (List.cons_ne_nil b lines) (List.cons.inj hrest).2
          refine ⟨w, w', List.mem_cons_of_mem a hmem, hw.trans ?_, hw'⟩
          rw [hp]
          exact (List.suffix_cons d t).trans (List.suffix_append _ _)
      · rcases List.append_eq_append_iff.mp hrest with ⟨u, ht, hq⟩ | ⟨u, hlu, hq⟩
        · refine ⟨p, u, ?_, List.suffix_rfl, ?_⟩
          · rw [← ht, ← ha]
            exact List.mem_cons_self
          · rw [hq]
            exact List.prefix_append _ _
        · cases u with
          | nil =>
            refine ⟨p, [], ?_, List.suffix_rfl, List.nil_prefix⟩
            rw [List.append_nil] at hlu
            rw [List.append_nil, hlu, ← ha]
            exact List.mem_cons_self
          | cons c u =>
            refine absurd ?_ hl
            rw [hlu]
            exact List.mem_append_right _ (List.mem_cons.mpr (Or.inl (List.cons.inj hq).1))

theorem prefix_line {s a b : Text} (hs : '\n' ∉ s) (h : s <+: a ++ '\n' :: b) : s <+: a := by
  rcases List.prefix_or_prefix_of_prefix h (List.prefix_append a _) with hp | ⟨t, rfl⟩
  · exact hp
  · rw [List.prefix_append_right_inj] at h
    cases t with
    | nil => rw [List.append_nil]
    | cons c t =>
      refine absurd ?_ hs
      rw [(List.cons_prefix_cons.mp h).1]
      exact List.mem_append_right _ List.mem_cons_self

theorem afterRange_append {c rest : Text} (h : afterRange c = ')' :: rest) (w : Text) :
    afterRange (c ++ w) = ')' :: (rest ++ w) := by
  cases c with
  | nil => cases h
  | cons x e =>
    by_cases hx : x = '-'
    · subst hx
      rw [afterRange] at h
      split at h
      next hlen =>
        have hdrop : (e ++ w).dropWhile isDigit = ')' :: (rest ++ w) := by
          rw [List.dropWhile_append, h]
          rfl
        rw [List.cons_append, afterRange, hdrop, if_pos]
        rw [h] at hlen
        rw [List.length_cons] at hlen ⊢
        rw [List.length_append, List.length_append]
        omega
      · cases h
    · have hplain : ∀ y : Text, afterRange (x :: y) = x :: y := by
        intro y
        unfold afterRange
        split
        next hy => exact absurd (List.cons.inj hy).1 hx
        · rfl
      rw [hplain] at h
      rw [List.cons_append, hplain, (List.cons.inj h).1, (List.cons.inj h).2]

/-- White space may follow a range. -/
theorem isRangeEnd_append {a w : Text} (h : isRangeEnd a = true)
    (hw : ∀ c ∈ w, isSpace c = true) : isRangeEnd (a ++ w) = true := by
  unfold isRangeEnd at h ⊢
  dsimp only at h ⊢
  rw [Bool.and_eq_true, Bool.and_eq_true, decide_eq_true_eq, decide_eq_true_eq] at h
  obtain ⟨⟨hb, hc⟩, hend⟩ := h
  split at hend
  next rest hafter =>
    have hdigits : (a.dropWhile isSpace).dropWhile isDigit ≠ [] := by
      intro hnil
      rw [hnil] at hafter
      cases hafter
    have hspaces : a.dropWhile isSpace ≠ [] := by
      intro hnil
      rw [hnil] at hdigits
      exact hdigits rfl
    have hb' : (a ++ w).dropWhile isSpace = a.dropWhile isSpace ++ w := by
      rw [List.dropWhile_append, if_neg (by rwa [List.isEmpty_iff])]
    have hc' : (a.dropWhile isSpace ++ w).dropWhile isDigit =
        (a.dropWhile isSpace).dropWhile isDigit ++ w := by
      rw [List.dropWhile_append, if_neg (by rwa [List.isEmpty_iff])]
    have hall : (rest ++ w).all isSpace = true := by
      rw [List.all_append, hend, Bool.true_and]
      exact List.all_eq_true.mpr hw
    rw [hb', hc', afterRange_append hafter w]
    simp only [hall, List.length_append, Bool.and_true, Bool.and_eq_true, decide_eq_true_eq]
    omega
  · cases hend

theorem isLineRange_append {t w : Text} (h : isLineRange t = true)
    (hw : ∀ c ∈ w, isSpace c = true) : isLineRange (t ++ w) = true := by
  have hone : ∀ tag : Text, (afterTag tag t).any isRangeEnd = true →
      (afterTag tag (t ++ w)).any isRangeEnd = true := by
    intro tag hany
    cases htag : afterTag tag t with
    | none =>
      rw [htag] at hany
      cases hany
    | some a =>
      rw [htag] at hany
      rw [afterTag_append htag w]
      exact isRangeEnd_append hany hw
  unfold isLineRange at h ⊢
  rw [Bool.or_eq_true] at h ⊢
  exact h.imp (hone _) (hone _)

theorem isSyntheticContext_append {line w : Text} (h : isSyntheticContext line = true)
    (hw : ∀ c ∈ w, isSpace c = true) : isSyntheticContext (line ++ w) = true := by
  unfold isSyntheticContext at h ⊢
  split at h
  · cases h
  next rest htag =>
    rw [afterTag_append htag w]
    obtain ⟨n, hn, h⟩ := List.any_eq_true.mp h
    have hle : n ≤ rest.length := Nat.le_of_lt_succ (List.mem_range.mp hn)
    refine List.any_eq_true.mpr ⟨n, ?_, ?_⟩
    · rw [List.mem_range, List.length_append]
      omega
    · rw [List.take_append_of_le_length hle, List.drop_append_of_le_length hle]
      rw [Bool.and_eq_true] at h ⊢
      exact ⟨h.1, isLineRange_append h.2 hw⟩

end Stripped

/-! ## Sanitizing again -/

section Again

theorem word_suffix (r : Text) :
    ((afterTag "diff".toList r).or (afterTag "patch".toList r)).getD r <:+ r := by
  cases hd : afterTag "diff".toList r with
  | some x =>
    obtain ⟨y, rfl, _⟩ := afterTag_spec hd
    exact List.suffix_append y x
  | none =>
    cases hp : afterTag "patch".toList r with
    | some x =>
      obtain ⟨y, rfl, _⟩ := afterTag_spec hp
      exact List.suffix_append y x
    | none => exact List.suffix_rfl

theorem afterFenceLine_spec {s body : Text} (h : afterFenceLine s = some body) :
    ∃ x, s = x ++ body := by
  unfold afterFenceLine at h
  split at h
  next t ht =>
    cases h
    have hbody := (List.dropWhile_suffix isBlankChar).trans (word_suffix s)
    rw [ht] at hbody
    obtain ⟨x, hx⟩ := (List.suffix_cons '\n' body).trans hbody
    exact ⟨x, hx.symm⟩
  · cases h

/-- A block is a part of the text, after its fence. -/
theorem fencedBody_spec {s body : Text} (h : fencedBody s = some body) :
    ∃ u v, s = u ++ (body ++ v) ∧ u ≠ [] := by
  induction s with
  | nil => cases h
  | cons c s ih =>
    rw [fencedBody] at h
    cases hhere : fencedHere (c :: s) with
    | some b =>
      rw [hhere] at h
      cases h
      unfold fencedHere at hhere
      obtain ⟨line, hline, hhere⟩ := Option.bind_eq_some_iff.mp hhere
      obtain ⟨rest, hrest, hhere⟩ := Option.bind_eq_some_iff.mp hhere
      obtain ⟨stop, _, hbody⟩ := Option.bind_eq_some_iff.mp hhere
      cases hbody
      obtain ⟨x, hx, hlen⟩ := afterTag_spec hline
      obtain ⟨y, rfl⟩ := afterFenceLine_spec hrest
      refine ⟨x ++ y, rest.drop stop, ?_, ?_⟩
      · rw [hx, List.take_append_drop, List.append_assoc]
      · intro hnil
        rw [(List.append_eq_nil_iff.mp hnil).1] at hlen
        cases hlen
    | none =>
      rw [hhere] at h
      obtain ⟨u, v, rfl, _⟩ := ih h
      exact ⟨c :: u, v, rfl, List.cons_ne_nil c u⟩

/-- No reasoning is in the text that is looked at, or in what is left of it. -/
theorem hasThink_diffText (raw : Text) : hasThink (diffText raw) = false := by
  have hvisible : hasThink (visibleText raw) = false :=
    hasThink_infix (hasThink_stripDangling _) ((strip_inside _).trans (strip_inside _))
  unfold diffText
  split
  next body hbody =>
    obtain ⟨u, v, hs, _⟩ := fencedBody_spec hbody
    refine hasThink_infix hvisible ((strip_inside body).trans ⟨u, v, ?_⟩)
    rw [hs, List.append_assoc]
  · exact hvisible

theorem hasThink_cleanedText (raw : Text) : hasThink (cleanedText raw) = false := by
  refine hasThink_infix (hasThink_join fun line hline => ?_) (strip_inside _)
  exact hasThink_infix (hasThink_diffText raw)
    (infix_of_mem_splitlines ((keptLines_sublist _).subset hline))

theorem newlinesOnly_cleanedText (raw : Text) : NewlinesOnly (cleanedText raw) := fun c hc =>
  newlinesOnly_join (fun _ hline => plain_keptLines hline) c ((strip_inside _).subset hc)

theorem join_splitlines_cleanedText {raw : Text} (h : cleanedText raw ≠ []) :
    join '\n' (splitlines (cleanedText raw)) = cleanedText raw := by
  have hlast : lastNewline (cleanedText raw) = [] := by
    unfold lastNewline
    rw [if_neg]
    intro hlast
    obtain ⟨t, ht⟩ := List.getLast?_eq_some_iff.mp hlast
    exact absurd (last_strip ht) (by decide)
  have hjoin := join_splitlines (newlinesOnly_cleanedText raw) h
  rwa [hlast, List.append_nil] at hjoin

/-- A line of what is left is a line that stayed, less white space; only the first one loses any
at its start. -/
theorem line_cleanedText {raw l : Text} {front back : List Text} (hne : cleanedText raw ≠ [])
    (h : splitlines (cleanedText raw) = front ++ l :: back) :
    ∃ w w', w ++ (l ++ w') ∈ keptLines (diffText raw) ∧ (∀ c ∈ w, isSpace c = true) ∧
      (∀ c ∈ w', isSpace c = true) ∧ (front ≠ [] → w = []) := by
  obtain ⟨pad, pad', hpad, hspace, hspace'⟩ := exists_strip (join '\n' (keptLines (diffText raw)))
  have hjoin := join_splitlines_cleanedText hne
  rw [h, join_front front (List.cons_ne_nil l back)] at hjoin
  have hkept : keptLines (diffText raw) ≠ [] := by
    intro hnil
    unfold cleanedText at hne
    rw [hnil] at hne
    exact hne rfl
  have hl : '\n' ∉ l := not_mem_splitlines (h ▸ List.mem_append_right _ List.mem_cons_self)
  obtain ⟨q, hq, hqs⟩ : ∃ q, join '\n' (l :: back) = l ++ q ∧ (q = [] ∨ ∃ t, q = '\n' :: t) := by
    cases back with
    | nil => exact ⟨[], by rw [join_singleton, List.append_nil], Or.inl rfl⟩
    | cons b back => exact ⟨_, join_cons_cons l b back, Or.inr ⟨_, rfl⟩⟩
  have hparts : join '\n' (keptLines (diffText raw)) =
      (pad ++ front.flatMap fun line => line ++ ['\n']) ++ (l ++ (q ++ pad')) := by
    unfold cleanedText at hjoin
    rw [hpad, ← hjoin, hq]
    simp only [List.append_assoc]
  obtain ⟨w, w', hmem, hw, hw'⟩ := mem_of_join hl hkept hparts
  have hplain := plain_keptLines hmem
  have hno : ∀ c ∈ w ++ (l ++ w'), c ≠ '\n' := by
    intro c hc heq
    subst heq
    exact absurd (hplain _ hc) (by decide)
  have hfront : front ≠ [] → w = [] := by
    intro hfront
    obtain ⟨some, b, rfl⟩ := (List.eq_nil_or_concat front).resolve_left hfront
    rw [List.concat_eq_append, List.flatMap_append, List.flatMap_singleton, ← List.append_assoc,
      ← List.append_assoc, List.suffix_concat_iff] at hw
    rcases hw with hnil | ⟨t, ht, _⟩
    · exact hnil
    · exact absurd rfl (hno '\n' (by simp [ht]))
  refine ⟨w, w', hmem, ?_, ?_, hfront⟩
  · by_cases hf : front = []
    · rw [hf, List.flatMap_nil, List.append_nil] at hw
      exact fun c hc => hspace c (hw.subset hc)
    · rw [hfront hf]
      exact nofun
  · rcases hqs with hnil | ⟨t, ht⟩
    · rw [hnil, List.nil_append] at hw'
      exact fun c hc => hspace' c (hw'.subset hc)
    · rw [ht, List.cons_append, List.prefix_cons_iff] at hw'
      rcases hw' with hnil | ⟨t', ht', _⟩
      · rw [hnil]
        exact nofun
      · exact absurd rfl (hno '\n' (by simp [ht']))

theorem no_newline_start {s : String} (h : s ∈ ["diff --git ", "--- ", "*** ", "Index: "]) :
    '\n' ∉ s.toList := by
  simp only [List.mem_cons, List.not_mem_nil, or_false] at h
  rcases h with rfl | rfl | rfl | rfl <;> decide

/-- If a line of what is left is a header, the first one is. -/
theorem start_cleanedText {raw first : Text} {more : List Text} (hne : cleanedText raw ≠ [])
    (h : splitlines (cleanedText raw) = first :: more)
    (hstart : ∃ line ∈ splitlines (cleanedText raw), isDiffStart line = true) :
    isDiffStart first = true := by
  obtain ⟨line, hline, hs⟩ := hstart
  obtain ⟨front, back, hcut⟩ := List.append_of_mem hline
  cases front with
  | nil =>
    rw [h] at hcut
    rw [(List.cons.inj hcut).1]
    exact hs
  | cons a front =>
    obtain ⟨w, w', hmem, _, _, hw⟩ := line_cleanedText hne hcut
    rw [hw (List.cons_ne_nil a front), List.nil_append] at hmem
    obtain ⟨head, others, hkept, hhead⟩ := keptLines_start hmem (isDiffStart_append hs w')
    obtain ⟨pad, pad', hpad, hspace, _⟩ := exists_strip (join '\n' (keptLines (diffText raw)))
    have hprefix : head <+: join '\n' (keptLines (diffText raw)) := by
      rw [hkept]
      cases others with
      | nil => rw [join_singleton]
      | cons b others =>
        rw [join_cons_cons]
        exact List.prefix_append _ _
    -- nothing is stripped before a header
    have hpad0 : pad = [] := by
      obtain ⟨c, t, rfl, hc, _⟩ := isDiffStart_head hhead
      cases pad with
      | nil => rfl
      | cons d pad =>
        rw [hpad] at hprefix
        have hcd := (List.cons_prefix_cons.mp hprefix).1
        rw [hcd, hspace d List.mem_cons_self] at hc
        cases hc
    rw [hpad0, List.nil_append] at hpad
    have hmore : more ≠ [] := by
      intro heq
      subst heq
      rw [h] at hcut
      exact absurd (List.cons.inj hcut).2 (by simp)
    obtain ⟨b, more, rfl⟩ := List.exists_cons_of_ne_nil hmore
    have hjoin := join_splitlines_cleanedText hne
    rw [h, join_cons_cons] at hjoin
    obtain ⟨s, hs, hp⟩ := List.any_eq_true.mp hhead
    refine List.any_eq_true.mpr ⟨s, hs, ?_⟩
    rw [List.isPrefixOf_iff_prefix] at hp ⊢
    have hall := hp.trans hprefix
    unfold cleanedText at hjoin
    rw [hpad, ← hjoin, List.append_assoc, List.cons_append] at hall
    exact prefix_line (no_newline_start hs) hall

/-- Every line of what is left stays. -/
theorem keptLines_cleanedText {raw : Text} (hne : cleanedText raw ≠ []) :
    keptLines (cleanedText raw) = splitlines (cleanedText raw) := by
  obtain ⟨first, more, hlines⟩ := List.exists_cons_of_ne_nil (splitlines_ne_nil hne)
  refine keptLines_all hlines (start_cleanedText hne hlines) fun line hline => ?_
  obtain ⟨front, back, hcut⟩ := List.append_of_mem hline
  obtain ⟨w, w', hmem, hw, hw', hfirst⟩ := line_cleanedText hne hcut
  obtain ⟨hfence, hlabel⟩ := of_mem_keptLines hmem
  constructor
  · unfold isFenceLine at hfence ⊢
    rwa [strip_pad hw hw'] at hfence
  · rw [Bool.eq_false_iff]
    intro hl
    by_cases hf : front = []
    · -- the first line does not start with a blank
      obtain ⟨c, t, rfl, hc⟩ := isSyntheticContext_head hl
      have hjoin := join_splitlines_cleanedText hne
      rw [hcut, hf, List.nil_append] at hjoin
      obtain ⟨rest, hrest⟩ : ∃ rest, cleanedText raw = c :: rest := by
        cases back with
        | nil => exact ⟨_, hjoin.symm⟩
        | cons b back => exact ⟨_, hjoin.symm⟩
      rw [head_strip hrest] at hc
      cases hc
    · rw [hfirst hf, List.nil_append] at hlabel
      rw [isSyntheticContext_append hl hw'] at hlabel
      cases hlabel

theorem visibleText_plain {s : Text} (h : hasThink s = false) : visibleText s = strip s := by
  unfold visibleText
  rw [stripThinkSpans_plain h, strip_strip]

/-- What is looked at the second time is what was left. -/
theorem visibleText_cleanedText (raw : Text) :
    visibleText (cleanedText raw ++ ['\n']) = cleanedText raw := by
  rw [visibleText_plain (hasThink_break (hasThink_cleanedText raw) rfl)]
  have hpad := @strip_pad [] ['\n'] nofun (fun c hc => List.mem_singleton.mp hc ▸ rfl)
    (cleanedText raw)
  rw [List.nil_append] at hpad
  rw [hpad]
  exact strip_strip _

theorem length_cleanedText_le (raw : Text) : (cleanedText raw).length ≤ (diffText raw).length :=
  (length_strip_le _).trans (length_keptLines_le _)

/-- Sanitizing twice is sanitizing once exactly when no fenced block is left the first time. -/
theorem sanitize_again {raw : Text} :
    sanitizeModelDiff (sanitizeModelDiff raw) = sanitizeModelDiff raw ↔
      fencedBody (cleanedText raw) = none := by
  by_cases hne : cleanedText raw = []
  · have hout : sanitizeModelDiff raw = [] := if_pos hne
    rw [hout, hne]
    exact iff_of_true rfl rfl
  · have hout : sanitizeModelDiff raw = cleanedText raw ++ ['\n'] := if_neg hne
    rw [hout]
    cases hbody : fencedBody (cleanedText raw) with
    | none =>
      refine iff_of_true ?_ rfl
      have htext : diffText (cleanedText raw ++ ['\n']) = cleanedText raw := by
        unfold diffText
        rw [visibleText_cleanedText, hbody]
      have hsame : cleanedText (cleanedText raw ++ ['\n']) = cleanedText raw := by
        rw [cleanedText, htext, keptLines_cleanedText hne, join_splitlines_cleanedText hne]
        exact strip_strip _
      unfold sanitizeModelDiff
      rw [hsame, if_neg hne]
    | some body =>
      refine iff_of_false (fun hsame => ?_) nofun
      -- the block is shorter than the text
      have htext : diffText (cleanedText raw ++ ['\n']) = strip body := by
        unfold diffText
        rw [visibleText_cleanedText, hbody]
      obtain ⟨u, v, hparts, hu⟩ := fencedBody_spec hbody
      have hlt : (cleanedText (cleanedText raw ++ ['\n'])).length < (cleanedText raw).length := by
        have hle := length_cleanedText_le (cleanedText raw ++ ['\n'])
        have hstrip := length_strip_le body
        have hpos := List.length_pos_iff.mpr hu
        have hlen := congrArg List.length hparts
        rw [htext] at hle
        rw [List.length_append, List.length_append] at hlen
        omega
      unfold sanitizeModelDiff at hsame
      split at hsame
      · simp at hsame
      · rw [List.append_cancel_right hsame] at hlt
        exact absurd hlt (Nat.lt_irrefl _)

end Again

/-! ## Blocks over lines -/

section Blocks

/-- `(?:diff|patch)?[ \t]*$`. -/
def isFenceEnd (r : Text) : Bool :=
  ((((afterTag "diff".toList r).or (afterTag "patch".toList r)).getD r).dropWhile
    isBlankChar).isEmpty

/-- The line ends in a fence that can start a block. -/
def opensBlock (line : Text) : Bool := line.tails.any fun t => (afterTag fence t).any isFenceEnd

def hasFence (line : Text) : Bool := (find fence line).isSome

theorem afterTag_word {r v : Text} (hv : ∀ c ∈ v.head?, isSpace c = true) :
    ((afterTag "diff".toList (r ++ v)).or (afterTag "patch".toList (r ++ v))).getD (r ++ v) =
      ((afterTag "diff".toList r).or (afterTag "patch".toList r)).getD r ++ v := by
  rw [afterTag_space (by decide) hv, afterTag_space (by decide) hv]
  cases afterTag "diff".toList r with
  | some x => rfl
  | none =>
    cases afterTag "patch".toList r with
    | some x => rfl
    | none => rfl

theorem afterFenceLine_line {r : Text} (hr : '\n' ∉ r) (rest : Text) :
    afterFenceLine (r ++ '\n' :: rest) = if isFenceEnd r then some rest else none := by
  unfold afterFenceLine isFenceEnd
  rw [afterTag_word (by rintro c ⟨⟩; rfl), List.dropWhile_append]
  have hsub := (List.dropWhile_suffix isBlankChar).trans (word_suffix r)
  generalize ((((afterTag "diff".toList r).or (afterTag "patch".toList r)).getD r).dropWhile
    isBlankChar) = x at hsub ⊢
  cases x with
  | nil => rfl
  | cons c x =>
    have hc : c ≠ '\n' := by
      intro heq
      subst heq
      exact hr (hsub.subset List.mem_cons_self)
    rw [List.isEmpty_cons, if_neg Bool.false_ne_true, if_neg Bool.false_ne_true]
    split
    next body hbody => exact absurd (List.cons.inj hbody).1 hc
    · rfl

theorem fencedHere_line {t : Text} (ht : '\n' ∉ t) (rest : Text) :
    (fencedHere (t ++ '\n' :: rest)).isSome =
      ((afterTag fence t).any isFenceEnd && (find fence rest).isSome) := by
  unfold fencedHere
  rw [afterTag_space (by decide) (by rintro c ⟨⟩; rfl)]
  cases htag : afterTag fence t with
  | none => rfl
  | some r =>
    have hr : '\n' ∉ r := by
      obtain ⟨x, rfl, _⟩ := afterTag_spec htag
      exact fun hmem => ht (List.mem_append_right x hmem)
    simp only [Option.map_some, Option.bind_eq_bind, Option.bind_some, afterFenceLine_line hr,
      Option.any_some]
    cases isFenceEnd r with
    | false => rfl
    | true =>
      rw [if_pos rfl, Option.bind_some, Bool.true_and]
      cases find fence rest with
      | none => rfl
      | some n => rfl

/-- A block starts in the first line, or after it. -/
theorem fencedBody_line {a : Text} (ha : '\n' ∉ a) (rest : Text) :
    (fencedBody (a ++ '\n' :: rest)).isSome =
      (opensBlock a && (find fence rest).isSome || (fencedBody rest).isSome) := by
  induction a with
  | nil => rfl
  | cons c a ih =>
    have hhere := fencedHere_line ha rest
    rw [List.cons_append] at hhere
    rw [List.cons_append, fencedBody, Option.isSome_or, hhere,
      ih fun hmem => ha (List.mem_cons_of_mem c hmem)]
    unfold opensBlock
    rw [List.tails_cons, List.any_cons]
    cases (afterTag fence (c :: a)).any isFenceEnd <;> cases (find fence rest).isSome <;> simp

theorem fencedHere_plain {t : Text} (ht : '\n' ∉ t) : fencedHere t = none := by
  unfold fencedHere
  cases htag : afterTag fence t with
  | none => rfl
  | some r =>
    obtain ⟨x, rfl, _⟩ := afterTag_spec htag
    cases hline : afterFenceLine r with
    | none => simp [hline]
    | some body =>
      unfold afterFenceLine at hline
      split at hline
      next y hy =>
        have hsub := (List.dropWhile_suffix isBlankChar).trans (word_suffix r)
        rw [hy] at hsub
        exact absurd (List.mem_append_right x (hsub.subset List.mem_cons_self)) ht
      · cases hline

theorem fencedBody_plain {t : Text} (ht : '\n' ∉ t) : fencedBody t = none := by
  induction t with
  | nil => rfl
  | cons c t ih =>
    rw [fencedBody, fencedHere_plain ht, ih fun hmem => ht (List.mem_cons_of_mem c hmem)]
    rfl

theorem fence_join {l : List Text} (h : fence <:+: join '\n' l) : ∃ line ∈ l, hasFence line := by
  obtain ⟨p, q, hpq⟩ := h
  have hne : l ≠ [] := by
    intro heq
    subst heq
    exact absurd hpq (by simp [fence, join])
  rw [List.append_assoc] at hpq
  obtain ⟨w, w', hmem, _⟩ := mem_of_join (by simp [fence]) hne hpq.symm
  exact ⟨_, hmem, find_isSome.mpr ⟨w, w', by rw [List.append_assoc]⟩⟩

theorem infix_join {l : List Text} {line : Text} (h : line ∈ l) : line <:+: join '\n' l := by
  obtain ⟨front, back, rfl⟩ := List.append_of_mem h
  rw [join_front front (List.cons_ne_nil line back)]
  refine List.IsInfix.trans ?_ (List.suffix_append _ _).isInfix
  cases back with
  | nil => rw [join_singleton]
  | cons b back =>
    rw [join_cons_cons]
    exact (List.prefix_append _ _).isInfix

/-- A block in joined lines: one line opens it, and a later one has a fence. -/
theorem fencedBody_join {l : List Text} (h : ∀ line ∈ l, '\n' ∉ line) :
    (fencedBody (join '\n' l)).isSome = true ↔ ∃ opening closing,
      [opening, closing].Sublist l ∧ opensBlock opening = true ∧ hasFence closing = true := by
  induction l with
  | nil => exact iff_of_false nofun fun ⟨_, _, hsub, _⟩ => nomatch hsub
  | cons a l ih =>
    cases l with
    | nil =>
      rw [join_singleton, fencedBody_plain (h a List.mem_cons_self)]
      refine iff_of_false nofun fun ⟨_, _, hsub, _⟩ => ?_
      exact absurd hsub.length_le (by simp)
    | cons b l =>
      have hrest := ih fun line hline => h line (List.mem_cons_of_mem a hline)
      rw [join_cons_cons, fencedBody_line (h a List.mem_cons_self), Bool.or_eq_true, hrest,
        Bool.and_eq_true]
      constructor
      · intro hcase
        rcases hcase with ⟨hopen, hfind⟩ | ⟨opening, closing, hsub, hlines⟩
        · obtain ⟨closing, hmem, hclose⟩ := fence_join (find_isSome.mp hfind)
          exact ⟨a, closing, (List.singleton_sublist.mpr hmem).cons_cons a, hopen, hclose⟩
        · exact ⟨opening, closing, hsub.cons a, hlines⟩
      · intro hsome
        obtain ⟨opening, closing, hsub, hopen, hclose⟩ := hsome
        rcases List.sublist_cons_iff.mp hsub with hsub | ⟨r, hr, hsub⟩
        · exact Or.inr ⟨opening, closing, hsub, hopen, hclose⟩
        · obtain ⟨rfl, rfl⟩ := List.cons.inj hr
          refine Or.inl ⟨hopen, find_isSome.mpr ?_⟩
          exact (find_isSome.mp hclose).trans (infix_join (List.singleton_sublist.mp hsub))

theorem fencedHere_space {c : Char} (hc : isSpace c = true) (s : Text) :
    (fencedHere (s ++ [c])).isSome = (fencedHere s).isSome := by
  have hhead : ∀ d ∈ [c].head?, isSpace d = true := by
    intro d hsome
    obtain ⟨⟩ := hsome
    exact hc
  unfold fencedHere
  rw [afterTag_space (by decide) hhead]
  cases afterTag fence s with
  | none => rfl
  | some r =>
    simp only [Option.map_some, Option.bind_eq_bind, Option.bind_some]
    unfold afterFenceLine
    rw [afterTag_word hhead, List.dropWhile_append]
    generalize ((((afterTag "diff".toList r).or (afterTag "patch".toList r)).getD r).dropWhile
      isBlankChar) = x
    cases x with
    | nil =>
      -- what is after the fence has no fence in it
      rw [List.isEmpty_nil, if_pos rfl]
      by_cases hnl : c = '\n'
      · subst hnl
        rfl
      · by_cases hb : isBlankChar c = true
        · rw [List.dropWhile_cons_of_pos hb]
          rfl
        · rw [List.dropWhile_cons_of_neg hb]
          split
          next body hbody => exact absurd (List.cons.inj hbody).1 hnl
          · rfl
    | cons d x =>
      rw [List.isEmpty_cons, if_neg Bool.false_ne_true, List.cons_append]
      by_cases hd : d = '\n'
      · subst hd
        have hfind : (find fence (x ++ [c])).isSome = (find fence x).isSome := by
          rw [Bool.eq_iff_iff, find_isSome, find_isSome]
          refine ⟨fun h => ?_, fun h => h.trans (List.prefix_append x [c]).isInfix⟩
          rcases List.infix_concat_iff.mp h with hsuffix | hinfix
          · rcases List.suffix_concat_iff.mp hsuffix with hnil | ⟨t, ht, _⟩
            · cases hnil
            · have hlast := congrArg List.getLast? ht
              rw [List.getLast?_append, List.getLast?_singleton] at hlast
              rw [← Option.some.inj hlast] at hc
              exact absurd hc (by decide)
          · exact hinfix
        simp only [Option.bind_some]
        cases hx : find fence x with
        | none =>
          rw [hx] at hfind
          rw [Option.isSome_eq_false_iff.mp hfind |> Option.isNone_iff_eq_none.mp]
          rfl
        | some n =>
          rw [hx] at hfind
          obtain ⟨m, hm⟩ := Option.isSome_iff_exists.mp hfind
          rw [hm]
          rfl
      · have hno : ∀ y : Text, (match d :: y with
            | '\n' :: body => some body
            | _ => none) = none := by
          intro y
          split
          next body hbody => exact absurd (List.cons.inj hbody).1 hd
          · rfl
        rw [hno, hno]

theorem fencedBody_space {w' : Text} (hw : ∀ c ∈ w', isSpace c = true) (s : Text) :
    (fencedBody (s ++ w')).isSome = (fencedBody s).isSome := by
  induction w' generalizing s with
  | nil => rw [List.append_nil]
  | cons c w' ih =>
    have hone : (fencedBody (s ++ [c])).isSome = (fencedBody s).isSome := by
      have hc := hw c List.mem_cons_self
      induction s with
      | nil =>
        have hone : fencedBody [c] = (fencedHere [c]).or (fencedBody []) := rfl
        have hhere := fencedHere_space hc []
        rw [List.nil_append] at hhere
        rw [List.nil_append, hone, Option.isSome_or, hhere]
        rfl
      | cons d s ih =>
        have hhere := fencedHere_space hc (d :: s)
        rw [List.cons_append] at hhere
        rw [List.cons_append, fencedBody, fencedBody, Option.isSome_or, Option.isSome_or, hhere, ih]
    rw [← hone, List.append_cons, ih fun d hd => hw d (List.mem_cons_of_mem c hd)]

/-- White space around a text is no part of a block. -/
theorem fencedBody_strip (s : Text) : (fencedBody (strip s)).isSome = (fencedBody s).isSome := by
  obtain ⟨w, w', hs, hw, hw'⟩ := exists_strip s
  have hlead : ∀ x : Text, fencedBody (w ++ x) = fencedBody x := by
    intro x
    clear hs
    induction w with
    | nil => rfl
    | cons c w ih =>
      have htag : afterTag fence (c :: (w ++ x)) = none := by
        have hno := @afterTag_space fence [] (c :: (w ++ x)) (by decide)
          (by rintro d ⟨⟩; exact hw _ List.mem_cons_self)
        exact hno
      rw [List.cons_append, fencedBody, fencedHere, htag,
        ih fun d hd => hw d (List.mem_cons_of_mem c hd)]
      rfl
  calc (fencedBody (strip s)).isSome
      = (fencedBody (strip s ++ w')).isSome := (fencedBody_space hw' _).symm
    _ = (fencedBody (w ++ (strip s ++ w'))).isSome := by rw [hlead]
    _ = (fencedBody s).isSome := by rw [← hs]

end Blocks

/-! ## Texts that change twice -/

section Twice

/-- A line that is neither a fence nor a label. -/
def isDiffLine (line : Text) : Bool := !isFenceLine line && !isSyntheticContext line

/-- The lines from the first header on, where there is one. -/
def fromHeader (lines : List Text) : List Text :=
  if lines.any isDiffStart then lines.dropWhile fun line => !isDiffStart line else lines

/-- A text without a fenced block, whose lines have one: from the first header on, one of them ends
in a fence, and a later one has a fence in it. -/
def LeavesBlock (text : Text) : Prop :=
  fencedBody text = none ∧ ∃ opening closing,
    [opening, closing].Sublist (fromHeader (splitlines text)) ∧
      (isDiffLine opening = true ∧ opensBlock opening = true) ∧
        (isDiffLine closing = true ∧ hasFence closing = true)

/-- A header is no fence. -/
theorem isFenceLine_start {line : Text} (h : isDiffStart line = true) :
    isFenceLine line = false := by
  obtain ⟨c, t, rfl, hspace, hc⟩ := isDiffStart_head h
  have hright : ∃ u, rstrip (c :: t) = c :: u := by
    have happend := rstrip_append [c] t
    rw [List.singleton_append] at happend
    rw [happend]
    split
    · refine ⟨[], ?_⟩
      have hkeep := List.rdropWhile_concat_neg isSpace [] c
        (by rw [hspace]; exact Bool.false_ne_true)
      rwa [List.nil_append] at hkeep
    · exact ⟨rstrip t, rfl⟩
  obtain ⟨u, hu⟩ := hright
  unfold isFenceLine strip lstrip
  rw [hu, List.dropWhile_cons_of_neg (by rw [hspace]; exact Bool.false_ne_true),
    Bool.eq_false_iff, ne_eq, List.isPrefixOf_iff_prefix]
  exact fun hfence => hc (List.cons_prefix_cons.mp hfence).1.symm

theorem dropWhile_filter {α : Type} {p q : α → Bool} (h : ∀ a, q a = false → p a = true)
    (l : List α) : (l.filter p).dropWhile q = (l.dropWhile q).filter p := by
  induction l with
  | nil => rfl
  | cons a l ih =>
    cases hq : q a with
    | true =>
      rw [List.dropWhile_cons_of_pos hq, ← ih]
      cases hp : p a with
      | true => rw [List.filter_cons_of_pos hp, List.dropWhile_cons_of_pos hq]
      | false => rw [List.filter_cons_of_neg (by rw [hp]; exact Bool.false_ne_true)]
    | false =>
      have hneg : ¬ q a = true := by rw [hq]; exact Bool.false_ne_true
      rw [List.filter_cons_of_pos (h a hq), List.dropWhile_cons_of_neg hneg,
        List.dropWhile_cons_of_neg hneg, List.filter_cons_of_pos (h a hq)]

/-- The lines that stay, in another order of the steps. -/
theorem keptLines_eq (text : Text) :
    keptLines text = (fromHeader (splitlines text)).filter isDiffLine := by
  have hstart : ∀ line, isDiffStart line = true → (!isFenceLine line) = true := by
    intro line hline
    rw [isFenceLine_start hline]
    rfl
  have hany : ((splitlines text).filter fun line => !isFenceLine line).any isDiffStart =
      (splitlines text).any isDiffStart := by
    rw [Bool.eq_iff_iff, List.any_eq_true, List.any_eq_true]
    constructor
    · intro h
      obtain ⟨line, hline, hs⟩ := h
      exact ⟨line, List.mem_of_mem_filter hline, hs⟩
    · intro h
      obtain ⟨line, hline, hs⟩ := h
      exact ⟨line, List.mem_filter.mpr ⟨hline, hstart line hs⟩, hs⟩
  have hsplit : ∀ l : List Text, l.filter isDiffLine =
      (l.filter fun line => !isFenceLine line).filter fun line => !isSyntheticContext line := by
    intro l
    rw [List.filter_filter]
    refine List.filter_congr fun line _ => ?_
    unfold isDiffLine
    rw [Bool.and_comm]
  unfold keptLines fromHeader
  dsimp only
  rw [hany, hsplit]
  split
  · rw [dropWhile_filter]
    intro line hline
    exact hstart line (by simpa using hline)
  · rfl

theorem find_first {sub u v : Text} : ∀ {i : Nat}, find sub (u ++ (sub ++ v)) = some i →
    i ≤ u.length := by
  induction u with
  | nil =>
    intro i h
    rw [List.nil_append, find_of_opening (List.prefix_append sub v)] at h
    rw [← Option.some.inj h]
    exact Nat.zero_le _
  | cons c u ih =>
    intro i h
    rw [List.cons_append, find] at h
    split at h
    · rw [← Option.some.inj h]
      exact Nat.zero_le _
    · obtain ⟨j, hj, hji⟩ := Option.map_eq_some_iff.mp h
      have := ih hj
      rw [List.length_cons]
      omega

/-- A block has no fence in it. -/
theorem no_fence_fencedBody {s body : Text} (h : fencedBody s = some body) : ¬ fence <:+: body := by
  induction s with
  | nil => cases h
  | cons c s ih =>
    rw [fencedBody] at h
    cases hhere : fencedHere (c :: s) with
    | some b =>
      rw [hhere] at h
      cases h
      unfold fencedHere at hhere
      obtain ⟨line, _, hhere⟩ := Option.bind_eq_some_iff.mp hhere
      obtain ⟨rest, _, hhere⟩ := Option.bind_eq_some_iff.mp hhere
      obtain ⟨stop, hstop, hbody⟩ := Option.bind_eq_some_iff.mp hhere
      cases hbody
      intro hsome
      obtain ⟨u, v, huv⟩ := hsome
      have hrest : rest = u ++ (fence ++ (v ++ rest.drop stop)) := by
        conv_lhs => rw [← List.take_append_drop stop rest, ← huv]
        simp only [List.append_assoc]
      rw [hrest] at hstop
      have hle := find_first hstop
      have hlen := congrArg List.length huv
      have hfence : fence.length = 3 := rfl
      have htake := List.length_take_le stop rest
      rw [List.length_append, List.length_append] at hlen
      omega
    | none =>
      rw [hhere] at h
      exact ih h

theorem fencedBody_cleanedText (raw : Text) :
    fencedBody (cleanedText raw) = none ↔ ¬ LeavesBlock (visibleText raw) := by
  have hblock : (fencedBody (cleanedText raw)).isSome = true ↔ ∃ opening closing,
      [opening, closing].Sublist (keptLines (diffText raw)) ∧ opensBlock opening = true ∧
        hasFence closing = true := by
    unfold cleanedText
    rw [fencedBody_strip, fencedBody_join fun line hline =>
      not_mem_splitlines ((keptLines_sublist _).subset hline)]
  rw [← Option.not_isSome_iff_eq_none, not_iff_not, hblock]
  cases hbody : fencedBody (visibleText raw) with
  | some body =>
    refine iff_of_false ?_ fun h => by rw [h.1] at hbody; cases hbody
    intro hsome
    obtain ⟨opening, closing, hsub, _, hclose⟩ := hsome
    have htext : diffText raw = strip body := by
      unfold diffText
      rw [hbody]
    have hmem : closing ∈ splitlines (strip body) := by
      rw [← htext]
      exact (hsub.trans (keptLines_sublist _)).subset (by simp)
    exact no_fence_fencedBody hbody ((find_isSome.mp hclose).trans
      ((infix_of_mem_splitlines hmem).trans (strip_inside body)))
  | none =>
    have htext : diffText raw = visibleText raw := by
      unfold diffText
      rw [hbody]
    rw [htext, keptLines_eq]
    constructor
    · intro hsome
      obtain ⟨opening, closing, hsub, hopen, hclose⟩ := hsome
      have hpos : ∀ line ∈ [opening, closing], isDiffLine line = true := fun line hline =>
        (List.mem_filter.mp (hsub.subset hline)).2
      exact ⟨hbody, opening, closing, hsub.trans List.filter_sublist,
        ⟨hpos opening (by simp), hopen⟩, hpos closing (by simp), hclose⟩
    · intro hsome
      obtain ⟨_, opening, closing, hsub, ⟨ho, hopen⟩, hc, hclose⟩ := hsome
      refine ⟨opening, closing, ?_, hopen, hclose⟩
      have hfilter := hsub.filter isDiffLine
      rwa [List.filter_cons_of_pos ho, List.filter_cons_of_pos hc, List.filter_nil] at hfilter

end Twice

/-! ## Bare diffs -/

section Bare

/-- A diff as it is: it starts with a header, and has no reasoning and no label in it. -/
structure IsBare (diffText : Text) : Prop where
  starts : (splitlines diffText).head?.any isDiffStart = true
  noReasoning : hasThink diffText = false
  noLabel : ∀ line ∈ splitlines diffText, isSyntheticContext line = false

instance (diffText : Text) : Decidable (IsBare diffText) :=
  decidable_of_iff (((splitlines diffText).head?.any isDiffStart = true ∧
      hasThink diffText = false) ∧
      ((splitlines diffText).all fun line => !isSyntheticContext line) = true)
    ⟨fun h => ⟨h.1.1, h.1.2, by simpa using h.2⟩,
      fun h => ⟨⟨h.starts, h.noReasoning⟩, by simpa using h.noLabel⟩⟩

theorem isSpace_of_isLineBreak {c : Char} (h : isLineBreak c = true) : isSpace c = true := by
  unfold isLineBreak at h
  unfold isSpace
  grind

/-- The last character of a text ends its last line. -/
theorem splitlines_last {c : Char} (hc : isLineBreak c = false) (t : Text) :
    ∃ front last, splitlines (t ++ [c]) = front ++ [last ++ [c]] := by
  obtain ⟨u, x, rfl, hx, hu⟩ : ∃ u x, t = u ++ x ∧ IsPlain x ∧
      (u = [] ∨ ∃ v b, u = v ++ [b] ∧ isLineBreak b = true) := by
    refine ⟨t.rdropWhile fun b => !isLineBreak b, t.rtakeWhile fun b => !isLineBreak b,
      List.rdropWhile_append_rtakeWhile.symm, fun b hb => ?_, ?_⟩
    · have := List.mem_rtakeWhile_imp hb
      simpa using this
    · by_cases hnil : (t.rdropWhile fun b => !isLineBreak b) = []
      · exact Or.inl hnil
      · have hlast := List.rdropWhile_last_not (fun b => !isLineBreak b) t hnil
        refine Or.inr ⟨_, _, (List.dropLast_append_getLast hnil).symm, ?_⟩
        simpa using hlast
  have hplain : IsPlain (x ++ [c]) := by
    intro b hb
    rcases List.mem_append.mp hb with hb | hb
    · exact hx b hb
    · rw [List.mem_singleton.mp hb]
      exact hc
  have hone : splitlines (x ++ [c]) = [x ++ [c]] := splitlinesFrom_plain hplain [] (by simp)
  rcases hu with rfl | ⟨v, b, rfl, hb⟩
  · exact ⟨[], x, hone⟩
  · refine ⟨splitlines (v ++ [b]), x, ?_⟩
    rw [List.append_assoc, ← hone]
    refine splitlinesFrom_endsAt (v ++ [b]) [] ⟨v, b, rfl, hb, fun _ hhead => ?_⟩
    exact absurd (hplain '\n' (List.mem_of_mem_head? hhead)) (by decide)

/-- Nothing of it is taken out: no part of it is a fenced block, no line of it is a fence, and it
ends in a line that has no white space at its end. -/
structure IsWhole (diffText : Text) : Prop where
  noBlock : fencedBody (strip diffText) = none
  noFence : ∀ line ∈ splitlines diffText, isFenceLine line = false
  ended : splitlines (strip diffText) = splitlines diffText

instance (diffText : Text) : Decidable (IsWhole diffText) :=
  decidable_of_iff ((fencedBody (strip diffText) = none ∧
      splitlines (strip diffText) = splitlines diffText) ∧
      ((splitlines diffText).all fun line => !isFenceLine line) = true)
    ⟨fun h => ⟨h.1.1, by simpa using h.2, h.1.2⟩,
      fun h => ⟨⟨h.noBlock, h.ended⟩, by simpa using h.noFence⟩⟩

/-- Lines of a stripped text, the first of which starts with no white space, make one too. -/
theorem strip_join_splitlines {s t : Text} {c : Char} {more : List Text}
    (hlines : splitlines (strip s) = (c :: t) :: more) (hc : isSpace c = false) :
    ∃ x, join '\n' (splitlines (strip s)) = c :: x ∧ strip (c :: x) = c :: x := by
  obtain ⟨x, hx⟩ : ∃ x, join '\n' (splitlines (strip s)) = c :: x := by
    rw [hlines]
    cases more with
    | nil => exact ⟨t, join_singleton _⟩
    | cons b more => exact ⟨_, join_cons_cons _ b more⟩
  have hne : strip s ≠ [] := by
    intro hnil
    rw [hnil] at hlines
    cases hlines
  obtain ⟨u, d, hs⟩ : ∃ u d, strip s = u ++ [d] :=
    ⟨_, _, (List.dropLast_append_getLast hne).symm⟩
  have hd := last_strip hs
  have hbreak : isLineBreak d = false := by
    rw [Bool.eq_false_iff]
    intro hb
    rw [isSpace_of_isLineBreak hb] at hd
    cases hd
  obtain ⟨front, last, hcut⟩ := splitlines_last hbreak u
  have hright : rstrip (c :: x) = c :: x := by
    rw [← hx, hs, hcut, join_front front (List.cons_ne_nil _ _), join_singleton,
      ← List.append_assoc]
    exact List.rdropWhile_concat_neg _ _ _ (by rw [hd]; exact Bool.false_ne_true)
  refine ⟨x, hx, ?_⟩
  unfold strip
  rw [hright]
  exact List.dropWhile_cons_of_neg (by rw [hc]; exact Bool.false_ne_true)

/-- Where all the lines of the stripped text stay, they are what is left. -/
theorem sanitize_whole {diffText first : Text} {more : List Text}
    (hthink : hasThink diffText = false) (hbody : fencedBody (strip diffText) = none)
    (hlines : splitlines (strip diffText) = first :: more) (hstart : isDiffStart first = true)
    (hkeep : ∀ line ∈ splitlines (strip diffText),
      isFenceLine line = false ∧ isSyntheticContext line = false) :
    sanitizeModelDiff diffText = endedText (splitlines (strip diffText)) := by
  have htext : Patch.diffText diffText = strip diffText := by
    unfold Patch.diffText
    rw [visibleText_plain hthink, hbody]
  obtain ⟨c, t, rfl, hspace, _⟩ := isDiffStart_head hstart
  obtain ⟨x, hx, hjoin⟩ := strip_join_splitlines hlines hspace
  rw [← hx] at hjoin
  have hclean : cleanedText diffText = join '\n' (splitlines (strip diffText)) := by
    unfold cleanedText
    rw [htext, keptLines_all hlines (fun _ => hstart) hkeep, hjoin]
  unfold sanitizeModelDiff
  rw [hclean, if_neg]
  · exact join_newline (hlines ▸ List.cons_ne_nil _ _)
  · rw [hx]
    exact List.cons_ne_nil c x

/-- **A bare diff of which nothing is taken out reads the same.** -/
theorem parse_sanitized {root : Path} {diffText : Text} (h : IsBare diffText)
    (hwhole : IsWhole diffText) :
    parseFilePatches root (sanitizeModelDiff diffText) = parseFilePatches root diffText := by
  obtain ⟨hbody, hfence, hstrip⟩ := hwhole
  obtain ⟨first, more, hlines, hstart⟩ : ∃ first more, splitlines diffText = first :: more ∧
      isDiffStart first = true := by
    have hfirst := h.starts
    cases hlines : splitlines diffText with
    | nil =>
      rw [hlines] at hfirst
      cases hfirst
    | cons first more =>
      rw [hlines] at hfirst
      exact ⟨first, more, rfl, hfirst⟩
  have hout : sanitizeModelDiff diffText = endedText (splitlines diffText) := by
    rw [← hstrip]
    refine sanitize_whole h.noReasoning hbody (hstrip.trans hlines) hstart fun line hline => ?_
    rw [hstrip] at hline
    exact ⟨hfence line hline, h.noLabel line hline⟩
  have hread : splitlines (endedText (splitlines diffText)) = splitlines diffText :=
    splitlines_endedText fun line hline => isPlain_splitlines hline
  obtain ⟨c, t, rfl, hspace, _⟩ := isDiffStart_head hstart
  have hblank : ∀ s : Text, c ∈ s → isBlank s = false := by
    intro s hs
    unfold isBlank
    rw [List.all_eq_false]
    exact ⟨c, hs, by rw [hspace]; exact Bool.false_ne_true⟩
  have hmem : c :: t ∈ splitlines diffText := hlines ▸ List.mem_cons_self
  have hcfirst : c ∈ c :: t := List.mem_cons_self
  unfold parseFilePatches
  rw [hout, hread, hblank diffText ((infix_of_mem_splitlines hmem).subset hcfirst),
    hblank (endedText (splitlines diffText))
      (List.mem_flatMap.mpr ⟨c :: t, hmem, List.mem_append_left _ hcfirst⟩)]

/-- **What sanitizing keeps**: a bare diff of which nothing is taken out reads the same, and a
second time changes a text exactly when the first one left a block. -/
theorem sanitize_keeps (root : Path) (raw : Text) :
    (IsBare raw → IsWhole raw →
      parseFilePatches root (sanitizeModelDiff raw) = parseFilePatches root raw) ∧
    (sanitizeModelDiff (sanitizeModelDiff raw) = sanitizeModelDiff raw ↔
      ¬ LeavesBlock (visibleText raw)) :=
  ⟨fun h hwhole => parse_sanitized h hwhole, sanitize_again.trans (fencedBody_cleanedText raw)⟩

/-- A diff of one line reads the same. -/
theorem sanitize_keeps_line : parseFilePatches ["ws".toList] (sanitizeModelDiff
    "--- a/f\n+++ b/f\n@@ -1 +1 @@\n-x\n+y\n".toList) =
      parseFilePatches ["ws".toList] "--- a/f\n+++ b/f\n@@ -1 +1 @@\n-x\n+y\n".toList :=
  (sanitize_keeps ["ws".toList] "--- a/f\n+++ b/f\n@@ -1 +1 @@\n-x\n+y\n".toList).1
    (by decide) (by decide)

/-- A line of context that is a fence is dropped, and a file of Markdown with CRLF that is added
loses all but its code the second time. -/
theorem sanitize_takes_out : (¬ ∀ (root : Path) (diffText : Text), IsBare diffText →
      parseFilePatches root (sanitizeModelDiff diffText) = parseFilePatches root diffText) ∧
    ¬ ∀ raw : Text, sanitizeModelDiff (sanitizeModelDiff raw) = sanitizeModelDiff raw := by
  constructor
  · intro hall
    have hsame := hall ["ws".toList]
      "--- a/f\n+++ b/f\n@@ -1,2 +1,2 @@\n ```\n-x\n+y\n".toList
      (by decide)
    have hbefore : parseFilePatches ["ws".toList]
        "--- a/f\n+++ b/f\n@@ -1,2 +1,2 @@\n ```\n-x\n+y\n".toList =
        .ok [⟨"f".toList, "f".toList,
          [⟨1, 2, 1, 2, [" ```".toList, "-x".toList, "+y".toList]⟩]⟩] := by decide
    have hafter : parseFilePatches ["ws".toList] (sanitizeModelDiff
        "--- a/f\n+++ b/f\n@@ -1,2 +1,2 @@\n ```\n-x\n+y\n".toList) =
        .ok [⟨"f".toList, "f".toList, [⟨1, 1, 1, 1, ["-x".toList, "+y".toList]⟩]⟩] := by
      decide
    rw [hbefore, hafter] at hsame
    exact absurd hsame (by decide)
  · intro hall
    exact absurd (hall
      "--- a/f\r\n+++ b/f\r\n@@ -0,0 +1,3 @@\r\n+```\r\n+x\r\n+```\r\n".toList)
      (by decide)

end Bare

end Shamsu.Patch
