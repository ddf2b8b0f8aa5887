import Shamsu.Llm.Output

/-!
# A file written in a raw fence

A model writes a file as a fence with `# write_file: path` on its first line and the text of the
file after it. `raw_fence_round_trip`: if the fence is longer than each run of backticks in the
text, this is parsed to one call, with the path and the text as they are.

What the parser does on purpose is left out: reasoning is taken away first, a text that is blank
or that is a call written as JSON is no file, a Markdown file needs a fence of four, and a comment
sign at the end of the path is the end of the comment.
-/

namespace Shamsu.Llm

open Shamsu.Lib Shamsu.Py

/-! ## No reasoning -/

/-- A `<think>` is somewhere in the text. -/
def hasThink : Text → Bool
  | [] => false
  | ch :: s => (afterTag openTag (ch :: s)).isSome || hasThink s

theorem hasThink_cons {ch : Char} {s : Text} (h : hasThink (ch :: s) = false) :
    afterTag openTag (ch :: s) = none ∧ hasThink s = false := by
  rw [hasThink, Bool.or_eq_false_iff] at h
  exact ⟨by simpa using h.1, h.2⟩

theorem stripClosed_plain {s : Text} (h : hasThink s = false) (fuel : Nat) :
    stripClosed fuel s = s := by
  induction fuel generalizing s with
  | zero => rfl
  | succ fuel ih =>
    cases s with
    | nil => rfl
    | cons ch s =>
      obtain ⟨hnone, hrest⟩ := hasThink_cons h
      rw [stripClosed, hnone]
      exact congrArg (ch :: ·) (ih hrest)

theorem stripDangling_plain {s : Text} (h : hasThink s = false) : stripDangling s = s := by
  induction s with
  | nil => rfl
  | cons ch s ih =>
    obtain ⟨hnone, hrest⟩ := hasThink_cons h
    rw [stripDangling, hnone, ih hrest]
    rfl

theorem stripThinkSpans_plain {s : Text} (h : hasThink s = false) : stripThinkSpans s = s := by
  unfold stripThinkSpans
  rw [stripClosed_plain h, stripDangling_plain h]

/-! ## The parts of the match -/

theorem first_newline (rest : Text) : (newline ('\n' :: rest)).head? = some (['\n'], rest) := by
  have hnone : literal ['\r', '\n'] ('\n' :: rest) = [] := if_neg (by simp [List.isPrefixOf])
  have hline : literal ['\n'] ('\n' :: rest) = [(['\n'], rest)] := literal_append ['\n'] rest
  unfold newline
  rw [hnone, hline]
  rfl

theorem mem_newline {s : Text} {way : Text × Text} (h : way ∈ newline s) :
    ∃ ch t, s = ch :: t ∧ isLineChar ch = false := by
  unfold newline at h
  rcases List.mem_append.mp h with h | h
  · exact ⟨'\r', _, (mem_literal.mp h).2, rfl⟩
  · exact ⟨'\n', _, (mem_literal.mp h).2, rfl⟩

/-- As many of a character as there are. -/
theorem first_atLeast {n k : Nat} (ch : Char) (rest : Text) (hn : n ≤ k)
    (hrest : ∀ x ∈ rest.head?, x ≠ ch) :
    (atLeast n ch (List.replicate k ch ++ rest)).head? = some (List.replicate k ch, rest) := by
  have hfirst : (greedy (· == ch) (List.replicate k ch ++ rest)).head? =
      some (List.replicate k ch, rest) :=
    first_greedy (fun x hx => by simpa using List.eq_of_mem_replicate hx)
      (fun x hx => by simpa using hrest x hx)
  obtain ⟨more, hmore⟩ := List.head?_eq_some_iff.mp hfirst
  unfold atLeast
  rw [hmore, List.filter_cons_of_pos (by simpa using hn)]
  rfl

theorem first_blanks {rest : Text} (hrest : ∀ x ∈ rest.head?, isBlankChar x = false) :
    (greedy isBlankChar rest).head? = some ([], rest) := by
  rw [greedy_none hrest]
  rfl

/-- The path ends in a comment sign. -/
def endsComment (path : Text) : Bool :=
  "-->".toList.isSuffixOf path || "*/".toList.isSuffixOf path

theorem isPathChar_spec {ch : Char} (h : isPathChar ch = true) :
    isBlankChar ch = false ∧ isLineChar ch = true := by
  unfold isPathChar at h
  rw [Bool.and_eq_true, Bool.not_eq_true'] at h
  refine ⟨?_, h.2⟩
  rw [Bool.eq_false_iff]
  intro hblank
  have hspace : isSpace ch = true := by
    unfold isBlankChar at hblank
    rw [Bool.or_eq_true, beq_iff_eq, beq_iff_eq] at hblank
    rcases hblank with rfl | rfl <;> rfl
  rw [h.1] at hspace
  cases hspace

/-- After a comment sign that is not the end of the path the line goes on. -/
theorem no_line_end {mark p rest blanks left : Text} {ch : Char}
    (hmark : ∀ x ∈ mark, isLineChar x = true) (hp : ∀ x ∈ p, isPathChar x = true)
    (hblanks : ∀ x ∈ blanks, isBlankChar x = true) (hch : isLineChar ch = false)
    (h : p ++ '\n' :: rest = mark ++ (blanks ++ ch :: left)) : mark <:+ p := by
  have hline : ∀ x, isBlankChar x = true → isLineChar x = true := by
    intro x hx
    unfold isBlankChar at hx
    rw [Bool.or_eq_true, beq_iff_eq, beq_iff_eq] at hx
    rcases hx with rfl | rfl <;> rfl
  have hexact : p = mark ++ blanks → mark <:+ p := by
    intro heq
    subst heq
    cases blanks with
    | nil => simp
    | cons x blanks =>
      have hblank := hblanks x List.mem_cons_self
      rw [(isPathChar_spec (hp x (by simp))).1] at hblank
      cases hblank
  rw [← List.append_assoc] at h
  rcases List.append_eq_append_iff.mp h with ⟨t, ht, hleft⟩ | ⟨t, ht, hleft⟩
  · cases t with
    | nil => exact hexact (by rw [ht, List.append_nil])
    | cons y t =>
      -- the line break would be in the sign or a blank
      have hy : y = '\n' := (List.cons.inj hleft).1.symm
      have hmem : y ∈ mark ++ blanks := by
        rw [ht]
        exact List.mem_append_right _ List.mem_cons_self
      have hno : isLineChar y = true :=
        (List.mem_append.mp hmem).elim (hmark y) fun hb => hline y (hblanks y hb)
      rw [hy] at hno
      cases hno
  · cases t with
    | nil => exact hexact (by rw [ht, List.append_nil])
    | cons y t =>
      -- the line would end in the path
      have hy : ch = y := (List.cons.inj hleft).1
      have hmem : y ∈ p := by
        rw [ht]
        exact List.mem_append_right _ List.mem_cons_self
      rw [hy, (isPathChar_spec (hp y hmem)).2] at hch
      cases hch

/-- A line that goes on is no end of a path. -/
theorem pathEnd_none {p rest : Text} {ch : Char} (hp : ∀ x ∈ ch :: p, isPathChar x = true)
    (hends : endsComment (ch :: p) = false) : pathEnd (ch :: (p ++ '\n' :: rest)) = [] := by
  have hch := isPathChar_spec (hp ch List.mem_cons_self)
  have hsign : ∀ mark : Text, (∀ x ∈ mark, isLineChar x = true) → ¬ mark <:+ ch :: p →
      ((literal mark (ch :: (p ++ '\n' :: rest))).flatMap fun b =>
        (greedy isBlankChar b.2).flatMap fun c => (newline c.2).map fun d => d.2) = [] := by
    intro mark hmark hnot
    refine List.flatMap_eq_nil_iff.mpr fun b hb => List.flatMap_eq_nil_iff.mpr fun w hw => ?_
    refine List.map_eq_nil_iff.mpr (List.eq_nil_iff_forall_not_mem.mpr fun d hd => ?_)
    obtain ⟨_, htext⟩ := mem_literal.mp hb
    obtain ⟨hleft, hblanks⟩ := mem_greedy hw
    obtain ⟨x, t, hx, hline⟩ := mem_newline hd
    rw [hleft, hx] at htext
    exact hnot (no_line_end hmark hp hblanks hline htext)
  have hplain : (greedy isBlankChar (ch :: (p ++ '\n' :: rest))).flatMap
      (fun c => (newline c.2).map fun d => d.2) = [] := by
    rw [greedy_none (by rintro x hx; cases hx; exact hch.1), List.flatMap_singleton]
    refine List.map_eq_nil_iff.mpr (List.eq_nil_iff_forall_not_mem.mpr fun d hd => ?_)
    obtain ⟨x, t, hx, hline⟩ := mem_newline hd
    rw [← (List.cons.inj hx).1, hch.2] at hline
    cases hline
  rw [endsComment, Bool.or_eq_false_iff] at hends
  have harrow : ¬ "-->".toList <:+ ch :: p := fun h =>
    absurd (List.isSuffixOf_iff_suffix.mpr h) (by rw [hends.1]; decide)
  have hstar : ¬ "*/".toList <:+ ch :: p := fun h =>
    absurd (List.isSuffixOf_iff_suffix.mpr h) (by rw [hends.2]; decide)
  unfold pathEnd commentEnd
  rw [greedy_none (by rintro x hx; cases hx; exact hch.1), List.flatMap_singleton,
    List.flatMap_append, List.flatMap_append, List.flatMap_singleton, hplain,
    hsign _ (List.all_eq_true.mp rfl) harrow, hsign _ (List.all_eq_true.mp rfl) hstar]
  rfl

theorem first_pathEnd (rest : Text) : (pathEnd ('\n' :: rest)).head? = some rest := by
  have hhead : ∀ x ∈ ('\n' :: rest).head?, isBlankChar x = false := by
    intro x hx
    cases hx
    rfl
  have harrow : literal "-->".toList ('\n' :: rest) = [] := if_neg (by simp [List.isPrefixOf])
  have hstar : literal "*/".toList ('\n' :: rest) = [] := if_neg (by simp [List.isPrefixOf])
  have hend : (commentEnd ('\n' :: rest)).head? = some ([], '\n' :: rest) := by
    unfold commentEnd
    rw [harrow, hstar]
    rfl
  refine first_of_first (first_blanks hhead) (first_of_first hend
    (first_of_first (first_blanks hhead) ?_))
  rw [List.head?_map, first_newline]
  rfl

/-- The first line of a fence that writes a file, with what comes after it. -/
def writeHeader (path rest : Text) : Text :=
  '#' :: ' ' :: ("write_file".toList ++ ':' :: ' ' :: (path ++ '\n' :: rest))

theorem endsComment_suffix {p q : Text} (h : q <:+ p) (hp : endsComment p = false) :
    endsComment q = false := by
  unfold endsComment at *
  rw [Bool.or_eq_false_iff] at *
  have hmark : ∀ mark : Text, mark.isSuffixOf p = false → mark.isSuffixOf q = false := by
    intro mark hno
    rw [Bool.eq_false_iff] at *
    exact fun hq => hno (List.isSuffixOf_iff_suffix.mpr ((List.isSuffixOf_iff_suffix.mp hq).trans h))
  exact ⟨hmark _ hp.1, hmark _ hp.2⟩

/-- The header is read as the path, which is tried from its first character on. -/
theorem first_toolHeader {path rest : Text} (hne : path ≠ [])
    (hpath : ∀ x ∈ path, isPathChar x = true) (hends : endsComment path = false) :
    (toolHeader (writeHeader path rest)).head? = some ⟨"write_file".toList, path, rest⟩ := by
  have hblank : ∀ {ch : Char} {t : Text}, isBlankChar ch = false →
      ∀ x ∈ (ch :: t).head?, isBlankChar x = false := by
    intro ch t hch x hx
    cases hx
    exact hch
  have hspace : ∀ {ch : Char} {t : Text}, isBlankChar ch = false →
      (greedy isBlankChar (' ' :: ch :: t)).head? = some ([' '], ch :: t) :=
    fun hch => first_greedy (u := [' ']) (by simp [isBlankChar]) (hblank hch)
  obtain ⟨ch, p, rfl⟩ := List.exists_cons_of_ne_nil hne
  have hch := (isPathChar_spec (hpath ch List.mem_cons_self)).1
  have hmark : ∀ t : Text, (commentMark ('#' :: ' ' :: t)).head? = some (['#'], ' ' :: t) := by
    intro t
    have hfirst : (atLeast 1 '#' ('#' :: ' ' :: t)).head? = some (['#'], ' ' :: t) :=
      first_atLeast (k := 1) '#' (' ' :: t) (le_refl 1) (by rintro x hx; cases hx; decide)
    unfold commentMark
    simp only [List.head?_append, hfirst, Option.some_or]
  have hname : ∀ t : Text, (toolName ("write_file".toList ++ t)).head? =
      some ("write_file".toList, t) := by
    intro t
    unfold toolName
    rw [literal_append]
    rfl
  have hseparator : ∀ t : Text, (separator (':' :: t)).head? = some ([':'], t) := by
    intro t
    unfold separator
    rw [show literal [':'] (':' :: t) = _ from literal_append [':'] t]
    rfl
  refine first_of_first (first_blanks (hblank rfl)) (first_of_first (hmark _)
    (first_of_first (hspace rfl) (first_of_first (hname _)
      (first_of_first (first_blanks (hblank rfl)) (first_of_first (hseparator _)
        (first_of_first (hspace hch) ?_))))))
  refine first_lazily (u := ch :: p) hpath (fun v x w h => ?_) ?_
  · have hsuffix : x :: w <:+ ch :: p := ⟨v, h.symm⟩
    dsimp only
    rw [pathEnd_none (fun y hy => hpath y (hsuffix.subset hy)) (endsComment_suffix hsuffix hends)]
    split <;> rfl
  · dsimp only
    rw [if_neg hne, List.head?_map, first_pathEnd]
    rfl

/-- What a line of the body takes of the closing fence is not enough. -/
theorem fenceEnd_none {n : Nat} {body v w : Text} {ch : Char}
    (hrun : ¬ List.replicate n '`' <:+: body) (h : body ++ ['\n'] = v ++ ch :: w) :
    fenceEnd (List.replicate n '`') v (ch :: (w ++ List.replicate n '`')) = [] := by
  unfold fenceEnd
  split
  case isFalse => rfl
  case isTrue =>
    refine List.flatMap_eq_nil_iff.mpr fun a ha => List.flatMap_eq_nil_iff.mpr fun b hb => ?_
    exfalso
    obtain ⟨htext, hblanks⟩ := mem_greedy ha
    obtain ⟨_, hfence⟩ := mem_literal.mp hb
    -- what is left of the body, and the line break after it
    obtain ⟨left, hleft, hin⟩ : ∃ left, ch :: w = left ++ ['\n'] ∧ left <:+ body := by
      rcases List.append_eq_append_iff.mp h with ⟨t, _, ht⟩ | ⟨t, ht, hw⟩
      · cases t with
        | nil => exact ⟨[], ht.symm, List.nil_suffix⟩
        | cons y t =>
          have hlen := congrArg List.length ht
          simp at hlen
      · exact ⟨t, hw, v, ht.symm⟩
    have hfits : ∀ t, left = (a.1 ++ List.replicate n '`') ++ t → False := by
      intro t he
      subst he
      exact hrun (List.IsInfix.trans ⟨a.1, t, rfl⟩ hin.isInfix)
    have heq : (a.1 ++ List.replicate n '`') ++ b.2 = left ++ '\n' :: List.replicate n '`' := by
      rw [List.append_assoc, ← hfence, ← htext]
      show (ch :: w) ++ List.replicate n '`' = _
      rw [hleft, List.append_assoc]
      rfl
    have hno : '\n' ∉ a.1 ++ List.replicate n '`' := by
      intro hmem
      rcases List.mem_append.mp hmem with hmem | hmem
      · cases hblanks _ hmem
      · cases List.eq_of_mem_replicate hmem
    rcases List.append_eq_append_iff.mp heq with ⟨t, ht, hrest⟩ | ⟨t, ht, hrest⟩
    · exact hfits t ht
    · cases t with
      | nil => exact hfits [] (by rw [ht, List.append_nil, List.append_nil])
      | cons y t =>
        have hy : y = '\n' := (List.cons.inj hrest).1.symm
        refine hno (ht ▸ List.mem_append_right _ ?_)
        rw [hy]
        exact List.mem_cons_self

theorem first_fenceEnd {n : Nat} (hn : 0 < n) (body : Text) :
    (fenceEnd (List.replicate n '`') (body ++ ['\n']) (List.replicate n '`')).head? = some [] := by
  obtain ⟨k, rfl⟩ := Nat.exists_eq_add_of_le' hn
  unfold fenceEnd
  rw [if_pos (Or.inr (by simp))]
  have hblank : ∀ x ∈ (List.replicate (k + 1) '`').head?, isBlankChar x = false := by
    intro x hx
    cases hx
    rfl
  refine first_of_first (first_blanks hblank) ?_
  have hall := literal_append (List.replicate (k + 1) '`') []
  rw [List.append_nil] at hall
  rw [hall]
  rfl

/-- What a model writes for a file: the fence, perhaps with a language, the header, the text and
the fence again. -/
def writeBlock (n : Nat) (info path body : Text) : Text :=
  List.replicate n '`' ++ (info ++ '\n' :: writeHeader path
    (body ++ '\n' :: List.replicate n '`'))

/-- The one match. -/
theorem first_rawToolFence {n : Nat} {info path body : Text} (hn : 3 ≤ n)
    (hinfo : ∀ x ∈ info, isLineChar x = true ∧ x ≠ '`') (hne : path ≠ [])
    (hpath : ∀ x ∈ path, isPathChar x = true) (hends : endsComment path = false)
    (hrun : ¬ List.replicate n '`' <:+: body) :
    (rawToolFence (writeBlock n info path body)).head? =
      some ⟨List.replicate n '`', "write_file".toList, path, body ++ ['\n'], []⟩ := by
  have hblank : ∀ x ∈ (writeBlock n info path body).head?, isBlankChar x = false := by
    obtain ⟨k, rfl⟩ := Nat.exists_eq_add_of_le' (show 1 ≤ n by omega)
    intro x hx
    cases hx
    rfl
  have hfence : (fenceMark (writeBlock n info path body)).head? = some (List.replicate n '`',
      info ++ '\n' :: writeHeader path (body ++ '\n' :: List.replicate n '`')) := by
    have hfirst := first_atLeast '`' (info ++ '\n' :: writeHeader path
      (body ++ '\n' :: List.replicate n '`')) hn (by
        cases info with
        | nil =>
          intro x hx
          cases hx
          decide
        | cons y info =>
          intro x hx
          cases hx
          exact (hinfo _ List.mem_cons_self).2)
    unfold fenceMark
    rw [List.head?_append]
    unfold writeBlock
    rw [hfirst]
    rfl
  -- each part of the pattern takes its share at its first choice, up to the lazy body
  refine first_of_first (first_blanks hblank) (first_of_first hfence
    (first_of_first (first_greedy (fun x hx => (hinfo x hx).1) ?_)
      (first_of_first (first_newline _) (first_of_first (first_toolHeader hne hpath hends) ?_))))
  · intro x hx
    cases hx
    rfl
  · have htext : body ++ '\n' :: List.replicate n '`' =
        (body ++ ['\n']) ++ List.replicate n '`' := by
      rw [List.append_assoc]
      rfl
    dsimp only
    rw [htext]
    refine first_lazily (fun _ _ => rfl) (fun v x w h => ?_) ?_
    · exact List.map_eq_nil_iff.mpr (fenceEnd_none hrun h)
    · rw [List.head?_map, first_fenceEnd (by omega)]
      rfl

/-! ## The call -/

/-- A path that a header can name: a word that ends in no comment sign and passes the checks. -/
structure SafePath (c : Salvage) (path : Text) : Prop where
  chars : ∀ x ∈ path, isPathChar x = true
  sign : endsComment path = false
  passes : c.badPath path = false

theorem SafePath.ne_nil {c : Salvage} {path : Text} (h : SafePath c path) : path ≠ [] := by
  intro heq
  subst heq
  have := h.passes
  unfold Salvage.badPath Salvage.looksLikePath at this
  cases this

/-- A text that is more than white space is more than line breaks. -/
theorem strip_rstripNewlines {body : Text} (h : isBlank body = false) :
    strip (rstripNewlines body) ≠ [] := by
  intro hnil
  have hall : ∀ x ∈ rstrip (rstripNewlines body), isSpace x = true :=
    List.dropWhile_eq_nil_iff.mp hnil
  have hspace : ∀ x ∈ rstripNewlines body, isSpace x = true := by
    have hempty : rstrip (rstripNewlines body) = [] := by
      by_contra hne
      exact List.rdropWhile_last_not _ _ hne (hall _ (List.getLast_mem hne))
    exact List.rdropWhile_eq_nil_iff.mp hempty
  have hblank : isBlank body = true := by
    unfold isBlank
    rw [List.all_eq_true]
    intro x hx
    rw [← List.rdropWhile_append_rtakeWhile (p := fun ch => !isLineChar ch) (l := body)] at hx
    rcases List.mem_append.mp hx with hx | hx
    · exact hspace x hx
    · have hline := List.mem_rtakeWhile_imp hx
      unfold isLineChar at hline
      simp only [Bool.not_and, Bool.or_eq_true, Bool.not_eq_true', bne_eq_false_iff_eq] at hline
      rcases hline with rfl | rfl <;> rfl
  rw [h] at hblank
  cases hblank

/-- The call that writes a file. -/
def writeCall (c : Salvage) (path body : Text) : ToolCall :=
  ⟨c.rawId "write_file".toList 0, "write_file".toList,
    [("filepath".toList, .str path), ("content".toList, .str (rstripNewlines body ++ ['\n']))]⟩

theorem findFences_writeBlock {n : Nat} {info path body : Text} {m : RawFence}
    (h : (rawToolFence (writeBlock n info path body)).head? = some m) (hrest : m.rest = [])
    (fuel : Nat) : findFences (fuel + 1) true (writeBlock n info path body) = [m] := by
  have hnone : findFences fuel false [] = [] := by
    cases fuel <;> rfl
  unfold findFences
  rw [if_pos rfl, h]
  dsimp only
  rw [hrest, hnone]

/-- The body of a match that passes the checks is the content. -/
theorem fenceCalls_content (c : Salvage) {registered : Option (List Text)} {count : Nat}
    {m : RawFence} {body : Text} (hregistered : isRegistered registered m.name = true)
    (hpath : c.badPath m.path = false)
    (hfits : ¬ (m.fence.length = 3 ∧ c.isMarkdown m.path = true))
    (hbody : rstripNewlines m.body = body) (hblank : strip body ≠ [])
    (henvelope : c.envelope registered (body ++ ['\n']) = none)
    (hname : m.name ≠ "edit_file".toList) : c.fenceCalls registered count m =
      ([⟨c.rawId m.name count, m.name,
        [("filepath".toList, .str m.path), ("content".toList, .str (body ++ ['\n']))]⟩], []) := by
  have hyes : ¬ (!true) = true := by decide
  unfold Salvage.fenceCalls
  dsimp only
  rw [hregistered, hpath, hbody, henvelope, if_neg hyes, if_neg Bool.false_ne_true, if_neg hfits,
    if_neg hblank]
  exact if_neg hname

/-- The block as it is matched. -/
def writeFence (n : Nat) (path body : Text) : RawFence :=
  ⟨List.replicate n '`', "write_file".toList, path, body ++ ['\n'], []⟩

section Block

variable (c : Salvage) {registered : Option (List Text)} {n : Nat} {info path body : Text}

/-- The salvager makes of the block what it makes of the one match. -/
theorem salvage_eq (hn : 3 ≤ n) (hinfo : ∀ x ∈ info, isLineChar x = true ∧ x ≠ '`')
    (hpath : SafePath c path) (hrun : ¬ List.replicate n '`' <:+: body) :
    c.salvageRawToolFences registered (writeBlock n info path body) =
      c.fenceCalls registered 0 (writeFence n path body) := by
  have hfirst := first_rawToolFence hn hinfo hpath.ne_nil hpath.chars hpath.sign hrun
  unfold Salvage.salvageRawToolFences
  rw [findFences_writeBlock hfirst rfl]
  show ([] ++ (c.fenceCalls registered 0 _).1, [] ++ (c.fenceCalls registered 0 _).2) = _
  rw [List.nil_append, List.nil_append]
  rfl

theorem rstripNewlines_line (body : Text) :
    rstripNewlines (body ++ ['\n']) = rstripNewlines body :=
  List.rdropWhile_concat_pos _ _ _ rfl

theorem salvage_writeBlock (hregistered : isRegistered registered "write_file".toList = true)
    (hn : 3 ≤ n) (hinfo : ∀ x ∈ info, isLineChar x = true ∧ x ≠ '`') (hpath : SafePath c path)
    (hmarkdown : n = 3 → c.isMarkdown path = false) (hrun : ¬ List.replicate n '`' <:+: body)
    (hblank : isBlank body = false)
    (henvelope : c.envelope registered (rstripNewlines body ++ ['\n']) = none) :
    c.salvageRawToolFences registered (writeBlock n info path body) =
      ([writeCall c path body], []) := by
  have hfits : ¬ ((writeFence n path body).fence.length = 3 ∧ c.isMarkdown path = true) := by
    show ¬ ((List.replicate n '`').length = 3 ∧ _)
    rw [List.length_replicate]
    intro h
    obtain ⟨hthree, hmd⟩ := h
    rw [hmarkdown hthree] at hmd
    cases hmd
  have hname : "write_file".toList ≠ "edit_file".toList := by decide
  rw [salvage_eq c hn hinfo hpath hrun]
  exact fenceCalls_content c hregistered hpath.passes hfits (rstripNewlines_line body)
    (strip_rstripNewlines hblank) henvelope hname

end Block

/-- **A file that is written in a raw fence is written as it stands.** -/
theorem raw_fence_round_trip (c : Salvage) {registered : Option (List Text)}
    (laterSalvagers : List (Text → List ToolCall)) {n : Nat} {info path body : Text}
    (hregistered : isRegistered registered "write_file".toList = true) (hn : 3 ≤ n)
    (hinfo : ∀ x ∈ info, isLineChar x = true ∧ x ≠ '`') (hpath : SafePath c path)
    (hrun : ¬ List.replicate n '`' <:+: body)
    (hthink : hasThink (writeBlock n info path body) = false)
    (hmarkdown : n = 3 → c.isMarkdown path = false) (hblank : isBlank body = false)
    (henvelope : c.envelope registered (rstripNewlines body ++ ['\n']) = none) :
    c.parseModelTurn registered laterSalvagers [] (writeBlock n info path body) =
      [writeCall c path body] := by
  unfold Salvage.parseModelTurn
  rw [stripThinkSpans_plain hthink,
    salvage_writeBlock c hregistered hn hinfo hpath hmarkdown hrun hblank henvelope]
  rfl

/-- Python on ASCII, and a reader that no JSON is given to. -/
private def asciiSalvage : Salvage where
  lower t := t.map Char.toLower
  isWord ch := ch.isAlphanum || ch == '_'
  number n := (toString n).toList
  loadToolCallJson _ _ := none
  loadJson _ := none
  searchReplace _ := []

private theorem safe_py : SafePath asciiSalvage "a.py".toList where
  chars := List.all_eq_true.mp (by decide)
  sign := by decide
  passes := by decide

private theorem info_py : ∀ x ∈ ['p', 'y'], isLineChar x = true ∧ x ≠ '`' := by
  simp [isLineChar]

theorem raw_fence_round_trip_py : asciiSalvage.parseModelTurn (some ["write_file".toList]) [] []
    (writeBlock 3 ['p', 'y'] "a.py".toList "print(1)".toList) =
      [writeCall asciiSalvage "a.py".toList "print(1)".toList] := by
  have hrun : ¬ List.replicate 3 '`' <:+: "print(1)".toList := by decide +kernel
  have hthink : hasThink (writeBlock 3 ['p', 'y'] "a.py".toList "print(1)".toList) = false := by
    decide
  have hmarkdown : asciiSalvage.isMarkdown "a.py".toList = false := by decide
  exact raw_fence_round_trip asciiSalvage [] (by decide) (le_refl 3) info_py safe_py hrun hthink
    (fun _ => hmarkdown) (by decide) (by decide)

/-- A line that shows a tag, and what is left of it. -/
private def tagLine : Text := "t = '<think>a</think>'".toList

private def emptiedLine : Text := "t = ''".toList

theorem writeCall_body {c : Salvage} {path body body' : Text}
    (h : [writeCall c path body] = [writeCall c path body']) :
    rstripNewlines body = rstripNewlines body' := by
  have harguments := (ToolCall.mk.inj (List.cons.inj h).1).2.2
  have hcontent := (Prod.mk.inj (List.cons.inj (List.cons.inj harguments).2).1).2
  exact List.append_cancel_right (Value.str.inj hcontent)

/-- The tags of a file, and what is between them, are taken for reasoning. -/
theorem tag_taken : ¬ ∀ (c : Salvage) (registered : Option (List Text))
    (laterSalvagers : List (Text → List ToolCall)) (n : Nat) (info path body : Text),
    isRegistered registered "write_file".toList = true → 3 ≤ n →
    (∀ x ∈ info, isLineChar x = true ∧ x ≠ '`') → SafePath c path →
    ¬ List.replicate n '`' <:+: body →
    c.parseModelTurn registered laterSalvagers [] (writeBlock n info path body) =
      [writeCall c path body] := by
  intro h
  have hregistered : isRegistered (some ["write_file".toList]) "write_file".toList = true := by
    decide
  have hclaim := h asciiSalvage _ [] 3 ['p', 'y'] "a.py".toList tagLine hregistered (le_refl 3) info_py
    safe_py (by decide +kernel)
  have hstrip : stripThinkSpans (writeBlock 3 ['p', 'y'] "a.py".toList tagLine) =
      writeBlock 3 ['p', 'y'] "a.py".toList emptiedLine := by
    decide +kernel
  have hmarkdown : asciiSalvage.isMarkdown "a.py".toList = false := by decide
  have hsalvage := salvage_writeBlock asciiSalvage hregistered (le_refl 3) info_py safe_py
    (fun _ => hmarkdown) (show ¬ List.replicate 3 '`' <:+: emptiedLine by decide +kernel)
    (by decide) (by decide)
  have hcall : asciiSalvage.parseModelTurn (some ["write_file".toList]) []  []
      (writeBlock 3 ['p', 'y'] "a.py".toList tagLine) =
        [writeCall asciiSalvage "a.py".toList emptiedLine] := by
    unfold Salvage.parseModelTurn
    rw [hstrip, hsalvage]
    rfl
  have hbody := writeCall_body (hcall.symm.trans hclaim)
  revert hbody
  decide

end Shamsu.Llm
