import Shamsu.Llm.RawFence

/-!
# The length of a fence

`_RAW_TOOL_FENCE_RE` takes as many marks for its fence as it can and gives one back when it
gets no further: the rest of the run is then the info of the opening line. The comment over it
says that the closing fence has the length of the opening one.

`blocks_closed_iff`: the blocks that a file is written from are closed by the whole run
exactly where a line of the whole run is there. `cut_off_written` is a block of four that is
cut off, and closed by the three of its own text.
-/

namespace Shamsu.Llm

open Shamsu.Lib Shamsu.Py

/-- The matches of `finditer`, each with the text from where it was tried. -/
def findBlocks : Nat → Bool → Text → List (Text × RawFence)
  | 0, _, _ => []
  | fuel + 1, lineStart, s =>
    match if lineStart then (rawToolFence s).head? else none with
    | some m => (s, m) :: findBlocks fuel false m.rest
    | none =>
      match s with
      | [] => []
      | c :: s => findBlocks fuel (c == '\n') s

def blocks (content : Text) : List (Text × RawFence) := findBlocks (content.length + 1) true content

theorem findBlocks_matches (fuel : Nat) (lineStart : Bool) (s : Text) :
    (findBlocks fuel lineStart s).map Prod.snd = findFences fuel lineStart s := by
  induction fuel generalizing lineStart s with
  | zero => rfl
  | succ fuel ih =>
    unfold findBlocks findFences
    cases (if lineStart then (rawToolFence s).head? else none) with
    | some m => exact congrArg (m :: ·) (ih false m.rest)
    | none =>
      cases s with
      | nil => rfl
      | cons c s => exact ih _ s

/-- A block is the first match of its text. -/
theorem findBlocks_first {fuel : Nat} {lineStart : Bool} {s : Text} {block : Text × RawFence}
    (h : block ∈ findBlocks fuel lineStart s) : (rawToolFence block.1).head? = some block.2 := by
  induction fuel generalizing lineStart s with
  | zero => cases h
  | succ fuel ih =>
    unfold findBlocks at h
    split at h
    next m hm =>
      rcases List.mem_cons.mp h with rfl | h
      · cases lineStart with
        | true => exact hm
        | false => cases hm
      · exact ih h
    next =>
      cases s with
      | nil => cases h
      | cons c s => exact ih h

/-- The marks that a line opens with. -/
def openRun (s : Text) : Text :=
  match s.dropWhile isBlankChar with
  | [] => []
  | c :: t => (c :: t).takeWhile (· == c)

/-- A line of just those marks, with the blanks around them. -/
def IsFenceLine (run line : Text) : Prop :=
  ∃ a b, (∀ x ∈ a, isBlankChar x = true) ∧ (∀ x ∈ b, isBlankChar x = true) ∧ line = a ++ (run ++ b)

/-- After the opening line and a header there is a line of the whole run. -/
def ClosedByRun (s : Text) : Prop :=
  ∃ blanks info brk t header before line after,
    s = blanks ++ (openRun s ++ (info ++ (brk ++ t))) ∧
    (∀ x ∈ blanks, isBlankChar x = true) ∧ (∀ x ∈ info, isLineChar x = true) ∧
    (brk = ['\r', '\n'] ∨ brk = ['\n']) ∧ header ∈ toolHeader t ∧
    header.rest = before ++ (line ++ after) ∧ (before = [] ∨ before.getLast? = some '\n') ∧
    IsFenceLine (openRun s) line ∧ (after = [] ∨ after.head? = some '\n')

/-- The block is a `write_file` that passes the checks. -/
def Salvage.Writes (c : Salvage) (registered : Option (List Text)) (m : RawFence) : Prop :=
  ∃ count, ∃ call ∈ (c.fenceCalls registered count m).1, call.name = "write_file".toList

/-! ## The ways of the pattern -/

/-- What comes after a fence. -/
def fenceWays (fence : Text × Text) : List RawFence :=
  (greedy isLineChar fence.2).flatMap fun info =>
    (newline info.2).flatMap fun b =>
      (toolHeader b.2).flatMap fun header =>
        (lazily (fun _ => true) header.rest).flatMap fun body =>
          (fenceEnd fence.1 body.1 body.2).map fun rest =>
            ⟨fence.1, header.name, header.path, body.1, rest⟩

theorem mem_newline_iff {s : Text} {way : Text × Text} :
    way ∈ newline s ↔ (way.1 = ['\r', '\n'] ∨ way.1 = ['\n']) ∧ s = way.1 ++ way.2 := by
  unfold newline
  rw [List.mem_append, mem_literal, mem_literal]
  constructor
  · intro h
    rcases h with ⟨hway, hs⟩ | ⟨hway, hs⟩
    · exact ⟨.inl hway, hway ▸ hs⟩
    · exact ⟨.inr hway, hway ▸ hs⟩
  · intro h
    obtain ⟨hway | hway, hs⟩ := h
    · exact .inl ⟨hway, hway ▸ hs⟩
    · exact .inr ⟨hway, hway ▸ hs⟩

/-- A closing line, after what is taken of the body. -/
theorem mem_fenceEnd_iff {fence body rest after : Text} :
    after ∈ fenceEnd fence body rest ↔ (body = [] ∨ body.getLast? = some '\n') ∧
      (after = [] ∨ after.head? = some '\n') ∧
      ∃ line, rest = line ++ after ∧ IsFenceLine fence line := by
  unfold fenceEnd IsFenceLine
  split
  next hbody =>
    simp only [List.mem_flatMap, List.mem_filter, List.mem_map, decide_eq_true_eq]
    constructor
    · intro hsome
      obtain ⟨a, ha, f, hf, ⟨b, hb, rfl⟩, hafter⟩ := hsome
      obtain ⟨hrest, hblank⟩ := mem_greedy ha
      obtain ⟨hf, hmark⟩ := mem_literal.mp hf
      obtain ⟨hend, hblank'⟩ := mem_greedy hb
      refine ⟨hbody, hafter, a.1 ++ (fence ++ b.1), ?_, a.1, b.1, hblank, hblank', rfl⟩
      rw [hrest, hmark, hend, List.append_assoc, List.append_assoc]
    · intro hsome
      obtain ⟨-, hafter, line, hrest, a, b, hblank, hblank', rfl⟩ := hsome
      refine ⟨(a, fence ++ (b ++ after)), mem_greedy_iff.mpr ⟨?_, hblank⟩, (fence, b ++ after),
        mem_literal.mpr ⟨rfl, rfl⟩, ⟨(b, after), mem_greedy_iff.mpr ⟨rfl, hblank'⟩, rfl⟩, hafter⟩
      rw [hrest, List.append_assoc, List.append_assoc]
  next hbody => exact iff_of_false List.not_mem_nil fun h => hbody h.1

/-- A way leads on from a fence where a header follows, and a closing line of that fence. -/
theorem fenceWays_ne_nil_iff {fence after : Text} : fenceWays (fence, after) ≠ [] ↔
    ∃ info brk t header before line rest, after = info ++ (brk ++ t) ∧
      (∀ x ∈ info, isLineChar x = true) ∧ (brk = ['\r', '\n'] ∨ brk = ['\n']) ∧
      header ∈ toolHeader t ∧ header.rest = before ++ (line ++ rest) ∧
      (before = [] ∨ before.getLast? = some '\n') ∧ IsFenceLine fence line ∧
      (rest = [] ∨ rest.head? = some '\n') := by
  rw [show fenceWays (fence, after) ≠ [] ↔ ∃ m, m ∈ fenceWays (fence, after) from
    ⟨List.exists_mem_of_ne_nil _, fun ⟨_, hm⟩ => List.ne_nil_of_mem hm⟩]
  unfold fenceWays
  simp only [List.mem_flatMap, List.mem_map]
  constructor
  · intro h
    obtain ⟨_, info, hinfo, b, hb, header, hheader, body, hbody, rest, hrest, -⟩ := h
    obtain ⟨hafter, hline⟩ := mem_greedy hinfo
    obtain ⟨hbrk, hinfo'⟩ := mem_newline_iff.mp hb
    obtain ⟨hbefore, hend, line, hline', hfence⟩ := mem_fenceEnd_iff.mp hrest
    refine ⟨info.1, b.1, b.2, header, body.1, line, rest, ?_, hline, hbrk, hheader, ?_, hbefore,
      hfence, hend⟩
    · rw [← hinfo']
      exact hafter
    · rw [← hline']
      exact (mem_lazily_iff.mp hbody).1
  · intro h
    obtain ⟨info, brk, t, header, before, line, rest, hafter, hline, hbrk, hheader, hrest,
      hbefore, hfence, hend⟩ := h
    exact ⟨_, (info, brk ++ t), mem_greedy_iff.mpr ⟨hafter, hline⟩, (brk, t),
      mem_newline_iff.mpr ⟨hbrk, rfl⟩, header, hheader, (before, line ++ rest),
      mem_lazily_iff.mpr ⟨hrest, fun _ _ => rfl⟩, rest,
      mem_fenceEnd_iff.mpr ⟨hbefore, hend, line, rfl, hfence⟩, rfl⟩

theorem mem_fenceWays_fence {fence : Text × Text} {m : RawFence} (h : m ∈ fenceWays fence) :
    m.fence = fence.1 := by
  unfold fenceWays at h
  simp only [List.mem_flatMap, List.mem_map] at h
  obtain ⟨_, _, _, _, _, _, _, _, _, _, rfl⟩ := h
  rfl

theorem atLeast_cases (n : Nat) (c : Char) (s : Text) : atLeast n c s = [] ∨
    n ≤ (s.takeWhile (· == c)).length ∧
    ∃ more, atLeast n c s = (s.takeWhile (· == c), s.dropWhile (· == c)) :: more ∧
      ∀ way ∈ more, way.1.length < (s.takeWhile (· == c)).length := by
  obtain ⟨more, hmore, hshorter⟩ := greedy_longest (· == c) s
  unfold atLeast
  rw [hmore]
  by_cases hlong : n ≤ (s.takeWhile (· == c)).length
  · refine .inr ⟨hlong, more.filter fun way => decide (n ≤ way.1.length), ?_, fun way hway => ?_⟩
    · exact List.filter_cons_of_pos (decide_eq_true hlong)
    · exact hshorter way (List.mem_of_mem_filter hway)
  · refine .inl (List.filter_eq_nil_iff.mpr fun way hway => ?_)
    rw [decide_eq_true_eq]
    rcases List.mem_cons.mp hway with rfl | hway
    · exact hlong
    · have hlt := hshorter way hway
      omega

/-- Only the marks that a text begins with. -/
theorem atLeast_other {c d : Char} (t : Text) (h : d ≠ c) : atLeast 3 c (d :: t) = [] := by
  have hnone : (d :: t).takeWhile (· == c) = [] :=
    List.takeWhile_cons_of_neg (by simpa using h)
  rcases atLeast_cases 3 c (d :: t) with hnil | ⟨hlong, -⟩
  · exact hnil
  · rw [hnone] at hlong
    exact absurd hlong (by decide)

/-- The fences of a text: the whole run first, and then the shorter ones. -/
theorem fenceMark_cases (t : Text) : fenceMark t = [] ∨
    ∃ c u more, t = c :: u ∧ isBlankChar c = false ∧
      fenceMark t = (t.takeWhile (· == c), t.dropWhile (· == c)) :: more ∧
      ∀ way ∈ more, way.1.length < (t.takeWhile (· == c)).length := by
  cases t with
  | nil => exact .inl rfl
  | cons c u =>
    unfold fenceMark
    by_cases hback : c = '\x60'
    · subst hback
      rw [atLeast_other u (show '\x60' ≠ '~' by decide), List.append_nil]
      rcases atLeast_cases 3 '\x60' ('\x60' :: u) with hnil | ⟨-, more, hmore, hshorter⟩
      · exact .inl hnil
      · exact .inr ⟨_, _, more, rfl, rfl, hmore, hshorter⟩
    · rw [atLeast_other u hback, List.nil_append]
      by_cases htilde : c = '~'
      · subst htilde
        rcases atLeast_cases 3 '~' ('~' :: u) with hnil | ⟨-, more, hmore, hshorter⟩
        · exact .inl hnil
        · exact .inr ⟨_, _, more, rfl, rfl, hmore, hshorter⟩
      · exact .inl (atLeast_other u htilde)

/-- The blanks of a line are taken whole, or no fence follows. -/
theorem rawToolFence_eq (s : Text) :
    rawToolFence s = (fenceMark (s.dropWhile isBlankChar)).flatMap fenceWays := by
  show ((greedy isBlankChar s).flatMap fun a => (fenceMark a.2).flatMap fenceWays) = _
  obtain ⟨more, hmore, hshorter⟩ := greedy_longest isBlankChar s
  have hnone : (more.flatMap fun a => (fenceMark a.2).flatMap fenceWays) = [] := by
    refine List.flatMap_eq_nil_iff.mpr fun a ha => ?_
    have hmem : a ∈ greedy isBlankChar s := by
      rw [hmore]
      exact List.mem_cons_of_mem _ ha
    rcases fenceMark_cases a.2 with hnil | ⟨c, u, _, hc, hblank, -⟩
    · rw [hnil]
      rfl
    · -- it would be the whole of the blanks
      obtain ⟨hs, hall⟩ := mem_greedy hmem
      have hwhole : s.takeWhile isBlankChar = a.1 := by
        rw [hs, hc, List.takeWhile_append_of_pos hall,
          List.takeWhile_cons_of_neg (by rw [hblank]; decide), List.append_nil]
      have hlt := hshorter a ha
      rw [hwhole] at hlt
      exact absurd hlt (Nat.lt_irrefl _)
  rw [hmore, List.flatMap_cons, hnone, List.append_nil]

/-! ## The whole run, and less -/

/-- A closing line of the whole run is what the first fence needs. -/
theorem closedByRun_iff {s u : Text} {c : Char} (hs : s.dropWhile isBlankChar = c :: u)
    (hblank : isBlankChar c = false) :
    ClosedByRun s ↔ fenceWays (openRun s, (c :: u).dropWhile (· == c)) ≠ [] := by
  have hrun : openRun s = (c :: u).takeWhile (· == c) := by
    unfold openRun
    rw [hs]
  have hopen : openRun s = c :: u.takeWhile (· == c) := by
    rw [hrun]
    exact List.takeWhile_cons_of_pos (beq_self_eq_true c)
  have hsplit : c :: u = openRun s ++ (c :: u).dropWhile (· == c) := by
    rw [hrun, List.takeWhile_append_dropWhile]
  rw [fenceWays_ne_nil_iff]
  constructor
  · intro h
    obtain ⟨blanks, info, brk, t, header, before, line, after, htext, hblanks, hrest⟩ := h
    refine ⟨info, brk, t, header, before, line, after, ?_, hrest⟩
    have hdrop : s.dropWhile isBlankChar = openRun s ++ (info ++ (brk ++ t)) := by
      conv_lhs => rw [htext]
      rw [List.dropWhile_append_of_pos hblanks, hopen, List.cons_append,
        List.dropWhile_cons_of_neg (by rw [hblank]; decide)]
    exact List.append_cancel_left (hsplit.symm.trans (hs.symm.trans hdrop))
  · intro h
    obtain ⟨info, brk, t, header, before, line, after, hafter, hrest⟩ := h
    refine ⟨s.takeWhile isBlankChar, info, brk, t, header, before, line, after, ?_,
      fun x hx => List.mem_takeWhile_imp hx, hrest⟩
    rw [← hafter, ← hsplit, ← hs, List.takeWhile_append_dropWhile]

/-- A block is closed by no fewer marks than it opens with exactly where a line of all of
them is there. -/
theorem fence_full_iff {s : Text} {m : RawFence} (h : (rawToolFence s).head? = some m) :
    (openRun s).length ≤ m.fence.length ↔ ClosedByRun s := by
  rw [rawToolFence_eq] at h
  rcases fenceMark_cases (s.dropWhile isBlankChar) with hnil | ⟨c, u, more, hs, hblank, hmark, hless⟩
  · rw [hnil] at h
    cases h
  · rw [closedByRun_iff hs hblank]
    have hrun : openRun s = (c :: u).takeWhile (· == c) := by
      unfold openRun
      rw [hs]
    rw [hmark, hs, ← hrun, List.flatMap_cons] at h
    rw [hs, ← hrun] at hless
    constructor
    · intro hlong hnone
      rw [hnone, List.nil_append] at h
      -- the fence is one of the shorter ones
      obtain ⟨way, hway, hm⟩ := List.mem_flatMap.mp (List.mem_of_mem_head? h)
      rw [mem_fenceWays_fence hm] at hlong
      exact absurd (hless way hway) (Nat.not_lt.mpr hlong)
    · intro hsome
      obtain ⟨m', rest, hways⟩ := List.exists_cons_of_ne_nil hsome
      rw [hways, List.cons_append, List.head?_cons, Option.some.injEq] at h
      rw [← h, mem_fenceWays_fence (hways ▸ List.mem_cons_self)]

/-- **A file is written from a block that the whole run closes** exactly where such a line
follows its header. -/
theorem blocks_closed_iff (c : Salvage) (registered : Option (List Text)) (content : Text) :
    (∀ block ∈ blocks content, c.Writes registered block.2 →
        (openRun block.1).length ≤ block.2.fence.length) ↔
      ∀ block ∈ blocks content, c.Writes registered block.2 → ClosedByRun block.1 :=
  forall₂_congr fun _ hblock => imp_congr_right fun _ => fence_full_iff (findBlocks_first hblock)

/-- The calls are those of the blocks. -/
theorem salvage_mem {c : Salvage} {registered : Option (List Text)} {content : Text}
    {call : ToolCall} (h : call ∈ (c.salvageRawToolFences registered content).1) :
    ∃ block ∈ blocks content, ∃ count, call ∈ (c.fenceCalls registered count block.2).1 := by
  have hfold : ∀ (l : List RawFence) (so : List ToolCall × List ParseFailure),
      call ∈ (l.foldl (fun so m =>
        let more := c.fenceCalls registered so.1.length m
        (so.1 ++ more.1, so.2 ++ more.2)) so).1 →
      call ∈ so.1 ∨ ∃ m ∈ l, ∃ count, call ∈ (c.fenceCalls registered count m).1 := by
    intro l
    induction l with
    | nil => exact fun so h => .inl h
    | cons m l ih =>
      intro so h
      rcases ih _ h with hso | ⟨m', hm', hcall⟩
      · rcases List.mem_append.mp hso with hso | hmore
        · exact .inl hso
        · exact .inr ⟨m, List.mem_cons_self, _, hmore⟩
      · exact .inr ⟨m', List.mem_cons_of_mem _ hm', hcall⟩
  rcases hfold _ _ h with hnone | ⟨m, hm, hcall⟩
  · cases hnone
  · rw [← findBlocks_matches] at hm
    obtain ⟨block, hblock, rfl⟩ := List.mem_map.mp hm
    exact ⟨block, hblock, hcall⟩

/-- Python on ASCII, and a reader that no JSON is given to. -/
private def plainSalvage : Salvage where
  lower t := t.map Char.toLower
  isWord ch := ch.isAlphanum || ch == '_'
  number n := (toString n).toList
  loadToolCallJson _ _ := none
  loadJson _ := none
  searchReplace _ := []

/-- A block of four that is cut off inside of a file with a fence of its own. -/
def cutOff : Text := "\x60\x60\x60\x60\nwrite_file: a.py\nx = 1\n\x60\x60\x60\ny".toList

def cutOffFence : RawFence :=
  ⟨"\x60\x60\x60".toList, "write_file".toList, "a.py".toList, "x = 1\n".toList, "\ny".toList⟩

/-- What stands before the fence of three is written. -/
theorem cut_off_written :
    ¬ ∀ (c : Salvage) (registered : Option (List Text)) (content : Text),
      ∀ block ∈ blocks content, c.Writes registered block.2 →
        (openRun block.1).length ≤ block.2.fence.length := by
  intro h
  have hfirst : (rawToolFence cutOff).head? = some cutOffFence := by decide
  have hblock : (cutOff, cutOffFence) ∈ blocks cutOff := by
    unfold blocks findBlocks
    rw [if_pos rfl, hfirst]
    exact List.mem_cons_self
  have hwrites : plainSalvage.Writes none cutOffFence := by
    have hcalls := @fenceCalls_content plainSalvage none 0 cutOffFence "x = 1".toList rfl
      (by decide) (by decide) (by decide) (by decide)
      (by decide) (by decide)
    exact ⟨0, _, by rw [hcalls]; exact List.mem_singleton_self _, rfl⟩
  exact absurd (h plainSalvage none cutOff _ hblock hwrites) (by decide)

end Shamsu.Llm
