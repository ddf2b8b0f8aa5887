import Shamsu.Retriever.Chunking

/-!
# What the chunks cite

The chunks of `_chunk_lines` are the only way back to the document: a hit is cited by its
section, its lines and its page.

`chunkLines_covers`: the chunks are runs of the lines of the document, in its order, and each
line that is neither blank nor a heading is in one that has its section, its number, and its
page. An over-long line is there in parts, and these are the line again up to white space
(`splitLongLine_parts`), where no sentence is over the limit that is within it with a text before
it.
-/

namespace Shamsu.Retriever.Chunking

open Shamsu.Lib Shamsu.Py Shamsu.Context

/-! ## Texts with white space between -/

/-- The texts in their order, with white space before, between and behind them. -/
inductive Spaced : List Text → Text → Prop where
  | nil {w : Text} (hw : ∀ c ∈ w, isSpace c = true) : Spaced [] w
  | cons {w : Text} {texts : List Text} {rest : Text} (text : Text)
      (hw : ∀ c ∈ w, isSpace c = true) (h : Spaced texts rest) :
      Spaced (text :: texts) (w ++ (text ++ rest))

namespace Spaced

variable {texts more : List Text} {s t w : Text}

theorem pad (hw : ∀ c ∈ w, isSpace c = true) (h : Spaced texts s) : Spaced texts (w ++ s) := by
  cases h with
  | nil hw' => exact .nil (List.forall_mem_append.mpr ⟨hw, hw'⟩)
  | cons text hw' h =>
    rw [← List.append_assoc]
    exact .cons text (List.forall_mem_append.mpr ⟨hw, hw'⟩) h

theorem append (h : Spaced texts s) (h' : Spaced more t) : Spaced (texts ++ more) (s ++ t) := by
  induction h with
  | nil hw => exact h'.pad hw
  | cons text hw _ ih =>
    rw [List.append_assoc, List.append_assoc]
    exact .cons text hw ih

theorem single (s : Text) : Spaced [s] s := by
  have h : Spaced [s] ([] ++ (s ++ [])) := .cons s nofun (.nil nofun)
  rwa [List.nil_append, List.append_nil] at h

/-- White space around a text counts as between the texts. -/
theorem stripped (s : Text) : Spaced [strip s] s := by
  obtain ⟨w, w', hs, hw, hw'⟩ := exists_strip s
  conv => arg 2; rw [hs]
  exact .cons _ hw (.nil hw')

/-- Texts that are stripped, and those that are blank left out. -/
theorem strips (h : Spaced texts s) :
    Spaced ((texts.map strip).filter fun text => text ≠ []) s := by
  induction h with
  | nil hw => exact .nil hw
  | cons text hw h ih =>
    have hfirst : Spaced ([strip text].filter fun text => text ≠ []) text := by
      by_cases hblank : strip text = []
      · rw [List.filter_cons_of_neg (by simpa using hblank)]
        exact .nil (space_of_blank hblank)
      · rw [List.filter_cons_of_pos (by simpa using hblank)]
        exact stripped text
    rw [List.map_cons, ← List.singleton_append, List.filter_append]
    exact (hfirst.append ih).pad hw

end Spaced

/-- The parts of a line: texts of it, some joined by a blank, put together are the line up to
white space. -/
structure PartsOf (line : SourceLine) (parts : List SourceLine) : Prop where
  cited : ∀ part ∈ parts, part.line = line.line ∧ part.page = line.page
  texts : ∃ groups : List (List Text), parts.map SourceLine.text = groups.map (join ' ') ∧
    Spaced groups.flatten line.text

/-! ## Long lines -/

theorem sentencesFrom_spaced {skip : Char → Bool} {before : Option Char} {sentence : Text}
    (hskip : ∀ c, skip c = true → isSpace c = true ∧ sentence = []) (s : Text) :
    Spaced (sentencesFrom skip before sentence s) (sentence.reverse ++ s) := by
  induction s generalizing skip before sentence with
  | nil =>
    rw [List.append_nil]
    exact .single _
  | cons c s ih =>
    rw [sentencesFrom]
    split
    next hc =>
      obtain ⟨hspace, rfl⟩ := hskip c hc
      have hrest : Spaced (sentencesFrom skip (some c) [] s) s := ih hskip
      exact hrest.pad (w := [c]) (List.forall_mem_singleton.mpr hspace)
    next =>
      split
      next hend =>
        have hspace : isSpace c = true := (Bool.and_eq_true_iff.mp hend).2
        have hrest : Spaced (sentencesFrom isSpace (some c) [] s) s := ih fun d hd => ⟨hd, rfl⟩
        exact (Spaced.single _).append
          (hrest.pad (w := [c]) (List.forall_mem_singleton.mpr hspace))
      next =>
        split
        next hc =>
          have hrest : Spaced (sentencesFrom (· == '\n') (some c) [] s) s :=
            ih fun d hd => ⟨by rw [beq_iff_eq.mp hd]; rfl, rfl⟩
          refine (Spaced.single _).append (hrest.pad (w := [c]) ?_)
          rw [hc]
          exact List.forall_mem_singleton.mpr rfl
        next =>
          have hmore : Spaced (sentencesFrom (fun _ => false) (some c) (c :: sentence) s)
              ((c :: sentence).reverse ++ s) := ih nofun
          rwa [List.reverse_cons, List.append_assoc] at hmore

theorem slices_spaced (size : Nat) (hsize : 0 < size) :
    ∀ (fuel : Nat) (s : Text), s.length ≤ fuel → Spaced (slices size fuel s) s := by
  intro fuel
  induction fuel with
  | zero =>
    intro s hlen
    have hnil : s = [] := List.eq_nil_of_length_eq_zero (Nat.le_zero.mp hlen)
    rw [hnil]
    exact .nil nofun
  | succ fuel ih =>
    intro s hlen
    rw [slices]
    split
    next hnil =>
      rw [hnil]
      exact .nil nofun
    next hne =>
      have hpos : 0 < s.length := List.length_pos_of_ne_nil hne
      have hmore := ih (s.drop size) (by rw [List.length_drop]; omega)
      have hboth := (Spaced.single (s.take size)).append hmore
      rwa [List.take_append_drop] at hboth

/-- A sentence is over the limit only where it is so behind another text. -/
def Grows (countTokens : Text → Nat) : Prop :=
  ∀ before sentence : Text, maxChunkTokens < countTokens sentence →
    maxChunkTokens < countTokens (before ++ ' ' :: sentence)

/-- The parts so far and `current`, of what has been read. -/
structure Parted (acc : List Text × Text) (groups : List (List Text)) (group : List Text)
    (s : Text) : Prop where
  parts : acc.1 = groups.map (join ' ')
  current : acc.2 = join ' ' group
  stripped : strip acc.2 = acc.2
  empty : acc.2 = [] → group = []
  spaced : Spaced (groups.flatten ++ group) s

/-- Two stripped texts with a blank between are stripped. -/
theorem strip_between {a b : Text} (ha : strip a = a) (hb : strip b = b) (hane : a ≠ [])
    (hbne : b ≠ []) : strip (a ++ ' ' :: b) = a ++ ' ' :: b := by
  have hr : rstrip b = b := by
    rw [← hb, strip_eq_rstrip_lstrip]
    exact List.rdropWhile_idempotent _ _
  obtain ⟨c, t, rfl⟩ := List.exists_cons_of_ne_nil hane
  unfold strip
  rw [show (c :: t) ++ ' ' :: b = ((c :: t) ++ [' ']) ++ b by rw [List.append_assoc]; rfl,
    rstrip_append, hr, if_neg hbne]
  exact List.dropWhile_cons_of_neg (by rw [head_strip ha]; decide)

theorem join_concat {group : List Text} (h : group ≠ []) (s : Text) :
    join ' ' (group ++ [s]) = join ' ' group ++ ' ' :: s := by
  induction group with
  | nil => exact absurd rfl h
  | cons first group ih =>
    cases group with
    | nil =>
      show join ' ' [first, s] = join ' ' [first] ++ _
      rw [join_cons_cons, join_singleton, join_singleton]
    | cons next group =>
      show join ' ' (first :: next :: (group ++ [s])) = join ' ' (first :: next :: group) ++ _
      rw [join_cons_cons, join_cons_cons, List.append_assoc, List.cons_append]
      exact congrArg (fun rest => first ++ ' ' :: rest) (ih (List.cons_ne_nil _ _))

section Long

variable {countTokens : Text → Nat} {acc : List Text × Text} {groups : List (List Text)}
  {group : List Text} {s : Text}

/-- `current` goes to the parts. -/
theorem Parted.close (h : Parted acc groups group s) :
    Parted (acc.1 ++ [acc.2], []) (groups ++ [group]) [] s where
  parts := by rw [h.parts, h.current, List.map_append, List.map_singleton]
  current := rfl
  stripped := rfl
  empty _ := rfl
  spaced := by
    rw [List.flatten_append, List.flatten_singleton, List.append_nil]
    exact h.spaced

/-- A sentence comes behind `current`. -/
theorem Parted.extend (h : Parted acc groups group s) {sentence : Text} (hne : strip sentence ≠ []) :
    Parted (acc.1, strip (acc.2 ++ ' ' :: strip sentence)) groups (group ++ [strip sentence])
      (s ++ sentence) := by
  have hsentence := strip_strip sentence
  have hspaced : Spaced (groups.flatten ++ (group ++ [strip sentence])) (s ++ sentence) := by
    rw [← List.append_assoc]
    exact h.spaced.append (.stripped sentence)
  by_cases hempty : acc.2 = []
  · have hpad : strip (acc.2 ++ ' ' :: strip sentence) = strip sentence := by
      rw [hempty]
      have hone := @strip_pad [' '] [] (by decide) nofun (strip sentence)
      rw [List.append_nil, hsentence] at hone
      exact hone
    rw [hpad]
    refine ⟨h.parts, ?_, hsentence, fun hnil => absurd hnil hne, hspaced⟩
    rw [h.empty hempty, List.nil_append, join_singleton]
  · rw [strip_between h.stripped hsentence hempty hne]
    have hgroup : group ≠ [] := by
      intro hnil
      rw [h.current, hnil] at hempty
      exact hempty rfl
    refine ⟨h.parts, ?_, strip_between h.stripped hsentence hempty hne, ?_, hspaced⟩
    · rw [join_concat hgroup, ← h.current]
    · intro hnil
      exact absurd hnil (by simp)

/-- A sentence over the limit comes in slices, where nothing is before it. -/
theorem Parted.slice {parts : List Text} (h : Parted (parts, []) groups [] s) (sentence : Text) :
    Parted (parts ++ ((slices (maxChunkTokens * 4) (strip sentence).length (strip sentence)).map
        strip).filter (fun part => part ≠ []), [])
      (groups ++ (((slices (maxChunkTokens * 4) (strip sentence).length (strip sentence)).map
        strip).filter (fun part => part ≠ [])).map fun part => [part]) [] (s ++ sentence) := by
  have hslices := (slices_spaced (maxChunkTokens * 4) (by decide) _ (strip sentence)
    (Nat.le_refl _)).strips
  generalize ((slices (maxChunkTokens * 4) (strip sentence).length (strip sentence)).map
    strip).filter (fun part => part ≠ []) = more at hslices ⊢
  have hflatten : (more.map fun part => [part]).flatten = more := by
    rw [← List.flatMap_def, List.flatMap_singleton']
  have hsentence : Spaced more sentence := by
    obtain ⟨w, w', hs, hw, hw'⟩ := exists_strip sentence
    have hpadded := (hslices.append (.nil hw')).pad hw
    rw [List.append_nil] at hpadded
    rwa [← hs] at hpadded
  refine ⟨?_, rfl, rfl, fun _ => rfl, ?_⟩
  · rw [List.map_append, List.map_map, ← h.parts]
    refine congrArg (parts ++ ·) ?_
    exact ((List.map_congr_left fun part _ => join_singleton part).trans (List.map_id _)).symm
  · have hspaced := h.spaced.append hsentence
    rw [List.append_nil] at hspaced ⊢
    rwa [List.flatten_append, hflatten]

/-- **One sentence** is added to what has been read. -/
theorem Parted.addSentence (hgrows : Grows countTokens) (h : Parted acc groups group s)
    (sentence : Text) : ∃ groups' group',
      Parted (addSentence countTokens acc sentence) groups' group' (s ++ sentence) := by
  obtain ⟨parts, current⟩ := acc
  unfold Chunking.addSentence
  dsimp only
  split
  next hblank =>
    refine ⟨groups, group, { h with spaced := ?_ }⟩
    have hspaced := h.spaced.append (.nil (space_of_blank hblank))
    rwa [List.append_nil] at hspaced
  next hne =>
    by_cases hclose : current ≠ [] ∧
        maxChunkTokens < countTokens (current ++ ' ' :: strip sentence)
    · rw [if_pos hclose]
      dsimp only
      split
      · exact ⟨_, _, h.close.slice sentence⟩
      · exact ⟨_, _, h.close.extend hne⟩
    · rw [if_neg hclose]
      dsimp only
      split
      next hover =>
        -- nothing is before it, or it would be over the limit with that too
        have hempty : current = [] := by
          by_contra hsome
          exact hclose ⟨hsome, hgrows _ _ hover⟩
        subst hempty
        have hgroup := h.empty rfl
        subst hgroup
        exact ⟨_, _, h.slice sentence⟩
      next => exact ⟨_, _, h.extend hne⟩

/-- All the sentences. -/
theorem Parted.run (hgrows : Grows countTokens) {pieces : List Text} {t : Text}
    (ht : Spaced pieces t) (h : Parted acc groups group s) : ∃ groups' group',
      Parted (pieces.foldl (Chunking.addSentence countTokens) acc) groups' group' (s ++ t) := by
  induction ht generalizing acc groups group s with
  | nil hw =>
    refine ⟨groups, group, { h with spaced := ?_ }⟩
    have hspaced := h.spaced.append (.nil hw)
    rwa [List.append_nil] at hspaced
  | cons piece hw _ ih =>
    have hspaced := h.spaced.append (.nil hw)
    rw [List.append_nil] at hspaced
    have hpadded : Parted acc groups group (s ++ _) := { h with spaced := hspaced }
    obtain ⟨groups', group', hmore⟩ := hpadded.addSentence hgrows piece
    obtain ⟨groups'', group'', hall⟩ := ih hmore
    refine ⟨groups'', group'', ?_⟩
    rwa [List.append_assoc, List.append_assoc] at hall

/-- **The parts of a line are the line**, up to white space. -/
theorem splitLongLine_parts (hgrows : Grows countTokens) (line : SourceLine) :
    PartsOf line (splitLongLine countTokens line) := by
  unfold splitLongLine
  split
  next =>
    refine ⟨List.forall_mem_singleton.mpr ⟨rfl, rfl⟩, [[line.text]], ?_, .single _⟩
    rw [List.map_singleton, List.map_singleton, join_singleton]
  next =>
    refine ⟨?_, ?_⟩
    · intro part hpart
      obtain ⟨text, -, rfl⟩ := List.mem_map.mp hpart
      exact ⟨rfl, rfl⟩
    · have hsentences : Spaced (sentences line.text) line.text :=
        sentencesFrom_spaced (fun _ hc => absurd hc Bool.false_ne_true) _
      have hnone : Parted ([], []) [] [] [] := ⟨rfl, rfl, rfl, fun _ => rfl, .nil nofun⟩
      obtain ⟨groups, group, hparted⟩ := hnone.run hgrows hsentences
      rw [List.map_map, show SourceLine.text ∘ (fun text => ⟨text, line.line, line.page⟩) = id
        from rfl, List.map_id]
      unfold longLineTexts
      generalize (sentences line.text).foldl (Chunking.addSentence countTokens) ([], []) = acc
        at hparted ⊢
      obtain ⟨parts, current⟩ := acc
      dsimp only
      split
      next hempty =>
        refine ⟨groups, hparted.parts, ?_⟩
        have hspaced := hparted.spaced
        rwa [hparted.empty hempty, List.append_nil] at hspaced
      next =>
        have hclosed := hparted.close
        refine ⟨groups ++ [group], hclosed.parts, ?_⟩
        have hspaced := hclosed.spaced
        rwa [List.append_nil] at hspaced

end Long

/-! ## Where the parts are -/

/-- The parts of the lines that are neither blank nor a heading, in the order of the document,
each with the nearest heading before it. -/
def placed (countTokens : Text → Nat) : Text → List SourceLine → List (Text × SourceLine)
  | _, [] => []
  | sectionName, line :: lines =>
    if strip line.text = [] then placed countTokens sectionName lines
    else if headingText (strip line.text) ≠ [] then
      placed countTokens (headingText (strip line.text)) lines
    else
      (splitLongLine countTokens line).map (fun part => (sectionName, part)) ++
        placed countTokens sectionName lines

/-- The parts from `first` to `stop`. -/
def partsIn (items : List (Text × SourceLine)) (first stop : Nat) : List SourceLine :=
  ((items.take stop).drop first).map Prod.snd

/-- The chunk is the run of parts from `first` to `stop`, and cites each: it has its text, its
section, its line, and its page, if the part has one or no part before it has. -/
structure Cites (items : List (Text × SourceLine)) (range : Nat × Nat) (chunk : DocumentChunk) :
    Prop where
  bounds : range.1 < range.2 ∧ range.2 ≤ items.length
  text : chunk.text = strip (windowText (partsIn items range.1 range.2))
  cited : ∀ i, range.1 ≤ i → i < range.2 → ∀ item ∈ items[i]?,
    strip item.2.text <:+: chunk.text ∧ chunk.sectionName = item.1 ∧
    chunk.lineStart ≤ item.2.line ∧ item.2.line ≤ chunk.lineEnd ∧
    (item.2.page.isSome ∨ (∀ j < i, ∀ other ∈ items[j]?, other.2.page = none) →
      chunk.page = item.2.page)

/-- The chunks are runs of the parts, in the order of the document, and each part is in one. -/
def Covers (items : List (Text × SourceLine)) (chunks : List DocumentChunk) : Prop :=
  ∃ ranges : List (Nat × Nat), List.Forall₂ (Cites items) ranges chunks ∧
    ranges.Pairwise (fun a b => a.1 ≤ b.1 ∧ a.2 ≤ b.2) ∧
    ∀ i < items.length, ∃ range ∈ ranges, range.1 ≤ i ∧ i < range.2

/-- The chunks that are written before part `n`: they have each part before `first`. -/
structure Written (items : List (Text × SourceLine)) (first n : Nat) (ranges : List (Nat × Nat))
    (chunks : List DocumentChunk) : Prop where
  cites : List.Forall₂ (Cites items) ranges chunks
  ordered : ranges.Pairwise fun a b => a.1 ≤ b.1 ∧ a.2 ≤ b.2
  before : ∀ range ∈ ranges, range.1 ≤ first ∧ range.2 ≤ n
  covered : ∀ i < first, ∃ range ∈ ranges, range.1 ≤ i ∧ i < range.2

/-- The loop before part `n`, with the parts from `first` on in the window. -/
structure Held (items : List (Text × SourceLine)) (n first : Nat) (ranges : List (Nat × Nat))
    (s : State) : Prop where
  begun : first ≤ n
  bound : n ≤ items.length
  written : Written items first n ranges s.chunks
  window : s.window = partsIn items first n
  current : s.window ≠ [] → s.windowSection = s.sectionName
  sections : ∀ i, first ≤ i → i < n → ∀ item ∈ items[i]?, item.1 = s.sectionName
  pages : ∀ a ∈ s.window, ∀ b ∈ s.window, a.page.isSome → b.page.isSome → a.page = b.page
  paged : ∀ i, first ≤ i → i < n → (∀ j ≤ i, ∀ item ∈ items[j]?, item.2.page = none) →
    ∀ other ∈ s.window, other.page = none

section Place

variable (countTokens : Text → Nat) (document : Document) {items : List (Text × SourceLine)}
  {n first : Nat} {ranges : List (Nat × Nat)} {s : State} {item : SourceLine}

theorem mem_partsIn {i stop : Nat} {item : Text × SourceLine} (hfirst : first ≤ i)
    (hstop : i < stop) (h : item ∈ items[i]?) : item.2 ∈ partsIn items first stop := by
  refine List.mem_map_of_mem (List.mem_iff_getElem?.mpr ⟨i - first, ?_⟩)
  rw [List.getElem?_drop, Nat.add_sub_cancel' hfirst, List.getElem?_take_of_lt hstop]
  exact h

theorem exists_of_mem_partsIn {stop : Nat} {part : SourceLine} (h : part ∈ partsIn items first stop) :
    ∃ i, first ≤ i ∧ i < stop ∧ ∃ item ∈ items[i]?, item.2 = part := by
  obtain ⟨item, hmem, rfl⟩ := List.mem_map.mp h
  obtain ⟨k, hk⟩ := List.mem_iff_getElem?.mp hmem
  rw [List.getElem?_drop, List.getElem?_take] at hk
  split at hk
  next hlt => exact ⟨first + k, Nat.le_add_right _ _, hlt, item, hk, rfl⟩
  next => cases hk

theorem length_partsIn {stop : Nat} (hstop : stop ≤ items.length) :
    (partsIn items first stop).length = stop - first := by
  unfold partsIn
  rw [List.length_map, List.length_drop, List.length_take]
  omega

theorem partsIn_self : partsIn items n n = [] :=
  List.eq_nil_of_length_eq_zero (by
    unfold partsIn
    rw [List.length_map, List.length_drop, List.length_take]
    omega)

/-- The page of a chunk is the one of each line that has one. -/
theorem pageOf_eq {window : List SourceLine} {page : Nat}
    (hall : ∀ a ∈ window, a.page = none ∨ a.page = some page)
    (hsome : ∃ a ∈ window, a.page = some page) : pageOf window = some page := by
  have hmem : ∀ p, p ∈ (window.filterMap SourceLine.page).dedup ↔ p = page := by
    intro p
    rw [List.mem_dedup, List.mem_filterMap]
    constructor
    · intro h
      obtain ⟨a, ha, hp⟩ := h
      rcases hall a ha with hnone | hpage
      · rw [hnone] at hp
        cases hp
      · exact Option.some.inj (hp.symm.trans hpage)
    · intro h
      obtain ⟨a, ha, hpage⟩ := hsome
      exact ⟨a, ha, h ▸ hpage⟩
  have hnodup := List.nodup_dedup (window.filterMap SourceLine.page)
  unfold pageOf
  generalize (window.filterMap SourceLine.page).dedup = pages at hmem hnodup
  cases pages with
  | nil => exact absurd ((hmem page).mpr rfl) List.not_mem_nil
  | cons p pages =>
    obtain rfl := (hmem p).mp List.mem_cons_self
    cases pages with
    | nil => rfl
    | cons q pages =>
      have hq := (hmem q).mp (List.mem_cons_of_mem _ List.mem_cons_self)
      subst hq
      exact absurd List.mem_cons_self (List.nodup_cons.mp hnodup).1

theorem pageOf_none {window : List SourceLine} (hall : ∀ a ∈ window, a.page = none) :
    pageOf window = none := by
  have hnone : window.filterMap SourceLine.page = [] := List.filterMap_eq_nil_iff.mpr hall
  unfold pageOf
  rw [hnone]
  rfl

theorem min_line_le {window : List SourceLine} {a : SourceLine} (ha : a ∈ window) :
    ((window.map SourceLine.line).min?).getD 0 ≤ a.line ∧
      a.line ≤ ((window.map SourceLine.line).max?).getD 0 := by
  have hmem : a.line ∈ window.map SourceLine.line := List.mem_map_of_mem ha
  generalize window.map SourceLine.line = numbers at hmem
  constructor
  · cases hmin : numbers.min? with
    | none =>
      rw [List.min?_eq_none_iff.mp hmin] at hmem
      cases hmem
    | some least => exact (List.min?_eq_some_iff.mp hmin).2 _ hmem
  · cases hmax : numbers.max? with
    | none =>
      rw [List.max?_eq_none_iff.mp hmax] at hmem
      cases hmem
    | some most => exact (List.max?_eq_some_iff.mp hmax).2 _ hmem

/-- The chunk of the window cites its parts. -/
theorem Held.cites (h : Held items n first ranges s) (hblank : ∀ item ∈ items, strip item.2.text ≠ [])
    (hlt : first < n) (ordinal : Nat) :
    Cites items (first, n) (chunkOf countTokens document s.windowSection ordinal s.window) := by
  refine ⟨⟨hlt, h.bound⟩, by rw [← h.window]; rfl, ?_⟩
  intro i hfirst hstop item hitem
  have hmem : item.2 ∈ s.window := h.window ▸ mem_partsIn hfirst hstop hitem
  refine ⟨?_, ?_, (min_line_le hmem).1, (min_line_le hmem).2, ?_⟩
  · exact strip_infix (mem_join (List.mem_map_of_mem hmem)) (hblank item (List.mem_of_getElem? hitem))
  · rw [h.sections i hfirst hstop item hitem]
    exact h.current (List.ne_nil_of_mem hmem)
  · intro hpage
    show pageOf s.window = item.2.page
    cases hown : item.2.page with
    | some page =>
      refine pageOf_eq (fun a ha => ?_) ⟨item.2, hmem, hown⟩
      cases ha' : a.page with
      | none => exact .inl rfl
      | some other =>
        have heq := h.pages a ha item.2 hmem (by rw [ha']; rfl) (by rw [hown]; rfl)
        exact .inr (ha'.symm.trans (heq.trans hown))
    | none =>
      have hbefore : ∀ j ≤ i, ∀ other ∈ items[j]?, other.2.page = none := by
        intro j hj other hother
        rcases hpage with hsome | hbefore
        · rw [hown] at hsome
          cases hsome
        · rcases Nat.lt_or_eq_of_le hj with hj | rfl
          · exact hbefore j hj other hother
          · rw [Option.mem_unique hother hitem]
            exact hown
      exact pageOf_none (h.paged i hfirst hstop hbefore)

/-- **The window is written**: the chunks then have each part before `n`. -/
theorem Held.flushed (h : Held items n first ranges s)
    (hblank : ∀ item ∈ items, strip item.2.text ≠ []) :
    ∃ ranges', ∀ first', first ≤ first' → first' ≤ n →
      Written items first' n ranges' (flushed countTokens document s) := by
  unfold Chunking.flushed
  rcases Nat.lt_or_ge first n with hlt | hge
  · obtain ⟨item, hitem⟩ : ∃ item, item ∈ items[first]? :=
      ⟨_, List.getElem?_eq_getElem (Nat.lt_of_lt_of_le hlt h.bound)⟩
    have hcites := h.cites countTokens document hblank hlt
      (s.chunks.length + 1)
    have hne : strip (windowText s.window) ≠ [] := by
      intro hnil
      have hmem : item.2 ∈ s.window := h.window ▸ mem_partsIn (Nat.le_refl _) hlt hitem
      have hitem' := hblank item (List.mem_of_getElem? hitem)
      have hinfix := strip_infix (mem_join (List.mem_map_of_mem hmem)) hitem'
      rw [show strip (join '\n' (s.window.map SourceLine.text)) = [] from hnil] at hinfix
      exact hitem' (List.infix_nil.mp hinfix)
    rw [if_neg hne]
    refine ⟨ranges ++ [(first, n)], fun first' hfirst' hn' => ⟨?_, ?_, ?_, ?_⟩⟩
    · exact List.rel_append h.written.cites (.cons hcites .nil)
    · refine List.pairwise_append.mpr ⟨h.written.ordered, List.pairwise_singleton _ _, ?_⟩
      intro range hrange last hlast
      rw [List.mem_singleton.mp hlast]
      exact h.written.before range hrange
    · intro range hrange
      rcases List.mem_append.mp hrange with hrange | hlast
      · have := h.written.before range hrange
        omega
      · rw [List.mem_singleton.mp hlast]
        exact ⟨hfirst', Nat.le_refl n⟩
    · intro i hi
      rcases Nat.lt_or_ge i first with hlow | hhigh
      · obtain ⟨range, hrange, hin⟩ := h.written.covered i hlow
        exact ⟨range, List.mem_append_left _ hrange, hin⟩
      · exact ⟨(first, n), List.mem_append_right _ (List.mem_singleton_self _), hhigh, by omega⟩
  · have heq : first = n := Nat.le_antisymm h.begun hge
    subst heq
    have hempty : s.window = [] := h.window.trans partsIn_self
    rw [if_pos (by rw [hempty]; rfl)]
    refine ⟨ranges, fun first' hfirst' hn' => ?_⟩
    rw [Nat.le_antisymm hn' hfirst']
    exact h.written

/-- The window is written and left, for another page or at a heading. -/
theorem Held.clear (h : Held items n first ranges s)
    (hblank : ∀ item ∈ items, strip item.2.text ≠ []) (sectionName windowSection : Text) :
    ∃ ranges', Held items n n ranges' { clear countTokens document s with
      sectionName := sectionName, windowSection := windowSection } := by
  obtain ⟨ranges', hwritten⟩ := h.flushed countTokens document hblank
  refine ⟨ranges', Nat.le_refl n, h.bound, hwritten n h.begun (Nat.le_refl n), partsIn_self.symm,
    fun hne => absurd rfl hne, ?_, nofun, ?_⟩
  · exact fun i hi hin => by omega
  · exact fun i hi hin => by omega

theorem overlapFrom_eq (before overlap : List SourceLine) (tokens : Nat) :
    ∃ k, overlapFrom countTokens before overlap tokens = (before.take k).reverse ++ overlap := by
  induction before generalizing overlap tokens with
  | nil => exact ⟨0, rfl⟩
  | cons item before ih =>
    unfold overlapFrom
    dsimp only
    split
    · exact ⟨0, rfl⟩
    · obtain ⟨k, hk⟩ := ih (item :: overlap) (tokens + countTokens item.text)
      refine ⟨k + 1, ?_⟩
      rw [hk, List.take_succ_cons, List.reverse_cons, List.append_assoc]
      rfl

/-- What stays in the window are its last lines. -/
theorem overlapOf_eq (window : List SourceLine) :
    ∃ k ≤ window.length, overlapOf countTokens window = window.drop k := by
  obtain ⟨k, hk⟩ := overlapFrom_eq countTokens window.reverse [] 0
  refine ⟨window.length - k, Nat.sub_le _ _, ?_⟩
  unfold overlapOf
  rw [hk, List.append_nil, List.reverse_take, List.reverse_reverse, List.length_reverse]

/-- The part goes with the lines of the window: no page is against its own, and where it has one
there is one before each line of the window. -/
structure Joins (items : List (Text × SourceLine)) (n first : Nat) (s : State)
    (item : SourceLine) : Prop where
  pages : ∀ a ∈ s.window, a.page.isSome → item.page.isSome → a.page = item.page
  paged : item.page.isSome → ∀ i, first ≤ i → i < n →
    ¬ ∀ j ≤ i, ∀ other ∈ items[j]?, other.2.page = none

/-- The window is written, and its last lines stay. -/
theorem Held.flush (h : Held items n first ranges s)
    (hblank : ∀ item ∈ items, strip item.2.text ≠ []) (hjoins : Joins items n first s item) :
    ∃ ranges' first', Held items n first' ranges' (flush countTokens document s) ∧
      Joins items n first' (Chunking.flush countTokens document s) item := by
  obtain ⟨ranges', hwritten⟩ := h.flushed countTokens document hblank
  obtain ⟨k, hk, hdrop⟩ := overlapOf_eq countTokens s.window
  have hlength : s.window.length = n - first := by rw [h.window, length_partsIn h.bound]
  have hbegun := h.begun
  have hsub : ∀ a ∈ overlapOf countTokens s.window, a ∈ s.window := by
    intro a ha
    rw [hdrop] at ha
    exact List.mem_of_mem_drop ha
  refine ⟨ranges', first + k, ⟨by omega, h.bound, hwritten _ (by omega) (by omega), ?_, ?_, ?_, ?_, ?_⟩,
    ?_, ?_⟩
  · show overlapOf countTokens s.window = _
    rw [hdrop, h.window]
    unfold partsIn
    rw [← List.map_drop, List.drop_drop]
  · intro hne
    refine h.current fun hnil => hne ?_
    show overlapOf countTokens s.window = []
    rw [hnil]
    rfl
  · exact fun i hi hin => h.sections i (by omega) hin
  · exact fun a ha b hb => h.pages a (hsub a ha) b (hsub b hb)
  · exact fun i hi hin hnone other hother => h.paged i (by omega) hin hnone other (hsub other hother)
  · exact fun a ha => hjoins.pages a (hsub a ha)
  · exact fun hsome i hi hin => hjoins.paged hsome i (by omega) hin

/-- The window is of the page of the part, or has been left. -/
theorem Held.turned (h : Held items n first ranges s)
    (hblank : ∀ item ∈ items, strip item.2.text ≠ []) (item : SourceLine) :
    ∃ ranges' first', Held items n first' ranges' (turned countTokens document s item) ∧
      Joins items n first' (Chunking.turned countTokens document s item) item := by
  unfold Chunking.turned
  split
  next hother =>
    obtain ⟨ranges', hheld⟩ := h.clear countTokens document hblank
      s.sectionName s.windowSection
    exact ⟨ranges', n, hheld, nofun, fun _ i hi hin => by omega⟩
  next hsame =>
    refine ⟨ranges, first, h, ?_⟩
    rcases Nat.lt_or_ge first n with hlt | hge
    · obtain ⟨head, hhead⟩ : ∃ head, head ∈ items[first]? :=
        ⟨_, List.getElem?_eq_getElem (Nat.lt_of_lt_of_le hlt h.bound)⟩
      have hmem : head.2 ∈ s.window := h.window ▸ mem_partsIn (Nat.le_refl _) hlt hhead
      have hfirst : s.window.head? = some head.2 := by
        rw [h.window]
        unfold partsIn
        rw [List.head?_map, List.head?_drop, List.getElem?_take_of_lt hlt, hhead]
        rfl
      have hpage : item.page.isSome → head.2.page = item.page := by
        intro hsome
        obtain ⟨rest, hrest⟩ := List.head?_eq_some_iff.mp hfirst
        unfold otherPage at hsame
        rw [hrest] at hsame
        dsimp only at hsame
        rw [hsome, Bool.and_true, bne_iff_ne, ne_eq, not_not] at hsame
        exact hsame
      refine ⟨fun a ha hsome hsome' => ?_, fun hsome i hi hin hnone => ?_⟩
      · rw [← hpage hsome']
        exact h.pages a ha head.2 hmem hsome (by rw [hpage hsome']; exact hsome')
      · have hown := hnone first hi head hhead
        rw [hpage hsome] at hown
        rw [hown] at hsome
        cases hsome
    · have hempty : s.window = [] := by
        rw [h.window, Nat.le_antisymm h.begun hge, partsIn_self]
      exact ⟨fun a ha => absurd (hempty ▸ ha) List.not_mem_nil, fun _ i hi hin => by omega⟩

/-- The part comes to the window. -/
theorem Held.push (h : Held items n first ranges s) (hitem : (s.sectionName, item) ∈ items[n]?)
    (hjoins : Joins items n first s item) :
    Held items (n + 1) first ranges { s with
      windowSection := if s.window = [] then s.sectionName else s.windowSection
      window := s.window ++ [item] } := by
  have hbegun := h.begun
  obtain ⟨hlt, -⟩ := List.getElem?_eq_some_iff.mp hitem
  have hwindow : s.window ++ [item] = partsIn items first (n + 1) := by
    unfold partsIn
    rw [List.take_add_one, show items[n]? = some (s.sectionName, item) from hitem,
      List.drop_append_of_le_length (by rw [List.length_take]; omega), List.map_append, h.window]
    rfl
  have hwritten := h.written
  refine ⟨by omega, hlt, ⟨hwritten.cites, hwritten.ordered, ?_, hwritten.covered⟩, hwindow, ?_, ?_,
    ?_, ?_⟩
  · intro range hrange
    have := hwritten.before range hrange
    omega
  · intro _
    show (if s.window = [] then s.sectionName else s.windowSection) = s.sectionName
    split
    · rfl
    next hne => exact h.current hne
  · intro i hi hin other hother
    rcases Nat.lt_or_ge i n with hlow | hhigh
    · exact h.sections i hi hlow other hother
    · have heq : i = n := by omega
      subst heq
      rw [Option.mem_unique hother hitem]
  · intro a ha b hb hasome hbsome
    rcases List.mem_append.mp ha with ha | ha <;> rcases List.mem_append.mp hb with hb | hb
    · exact h.pages a ha b hb hasome hbsome
    · rw [List.mem_singleton.mp hb] at hbsome ⊢
      exact hjoins.pages a ha hasome hbsome
    · rw [List.mem_singleton.mp ha] at hasome ⊢
      exact (hjoins.pages b hb hbsome hasome).symm
    · rw [List.mem_singleton.mp ha, List.mem_singleton.mp hb]
  · intro i hi hin hnone other hother
    have hown : i < n → item.page = none := by
      intro hlow
      cases hpage : item.page with
      | none => rfl
      | some page => exact absurd hnone (hjoins.paged (by rw [hpage]; rfl) i hi hlow)
    rcases Nat.lt_or_ge i n with hlow | hhigh
    · rcases List.mem_append.mp hother with hother | hother
      · exact h.paged i hi hlow hnone other hother
      · rw [List.mem_singleton.mp hother]
        exact hown hlow
    · -- all parts up to this one are without a page
      obtain ⟨j, hj, hjn, entry, hentry, rfl⟩ := exists_of_mem_partsIn (hwindow ▸ hother)
      exact hnone j (by omega) entry hentry

theorem sectionName_roomFor (s : State) (item : SourceLine) :
    (roomFor countTokens document s item).sectionName = s.sectionName := by
  have hturned : (Chunking.turned countTokens document s item).sectionName = s.sectionName := by
    unfold Chunking.turned
    split
    · rfl
    · rfl
  unfold roomFor
  dsimp only
  split
  · exact hturned
  · exact hturned

/-- **One part.** -/
theorem Held.addItem (h : Held items n first ranges s)
    (hblank : ∀ item ∈ items, strip item.2.text ≠ [])
    (hitem : (s.sectionName, item) ∈ items[n]?) :
    ∃ ranges' first', Held items (n + 1) first' ranges' (addItem countTokens document s item) := by
  obtain ⟨ranges', first', hturned, hjoins⟩ :=
    h.turned countTokens document hblank item
  have hroom : ∃ ranges' first', Held items n first' ranges' (roomFor countTokens document s item) ∧
      Joins items n first' (roomFor countTokens document s item) item := by
    unfold roomFor
    dsimp only
    split
    · exact hturned.flush countTokens document hblank hjoins
    · exact ⟨ranges', first', hturned, hjoins⟩
  obtain ⟨ranges'', first'', hheld, hjoins'⟩ := hroom
  refine ⟨ranges'', first'', hheld.push ?_ hjoins'⟩
  rw [sectionName_roomFor]
  exact hitem

/-- The parts of a line. -/
theorem Held.addParts {parts : List SourceLine} {rest : List (Text × SourceLine)}
    (h : Held items n first ranges s) (hblank : ∀ item ∈ items, strip item.2.text ≠ [])
    (hparts : items.drop n = parts.map (fun part => (s.sectionName, part)) ++ rest) :
    ∃ ranges' first', Held items (n + parts.length) first' ranges'
        (parts.foldl (Chunking.addItem countTokens document) s) ∧
      items.drop (n + parts.length) = rest ∧
      (parts.foldl (Chunking.addItem countTokens document) s).sectionName = s.sectionName := by
  induction parts generalizing n first ranges s with
  | nil => exact ⟨ranges, first, h, hparts, rfl⟩
  | cons part parts ih =>
    have hitem : (s.sectionName, part) ∈ items[n]? := by
      rw [← List.head?_drop, hparts]
      rfl
    obtain ⟨ranges', first', hheld⟩ :=
      h.addItem countTokens document hblank hitem
    have hsection : (Chunking.addItem countTokens document s part).sectionName = s.sectionName :=
      sectionName_roomFor countTokens document s part
    have hdrop : items.drop (n + 1) =
        parts.map (fun p => ((Chunking.addItem countTokens document s part).sectionName, p)) ++
          rest := by
      rw [hsection, ← List.drop_drop, hparts]
      rfl
    obtain ⟨ranges'', first'', hall, hrest, hsame⟩ := ih hheld hdrop
    rw [show n + 1 + parts.length = n + (part :: parts).length by rw [List.length_cons]; omega]
      at hall hrest
    exact ⟨ranges'', first'', hall, hrest, hsame.trans hsection⟩

/-- **All the lines**: the loop holds what it has read of the parts. -/
theorem Held.addLines {lines : List SourceLine} (h : Held items n first ranges s)
    (hblank : ∀ item ∈ items, strip item.2.text ≠ [])
    (hlines : items.drop n = placed countTokens s.sectionName lines) :
    ∃ ranges' first', Held items items.length first' ranges'
      (lines.foldl (addLine countTokens document) s) := by
  induction lines generalizing n first ranges s with
  | nil =>
    have hn : n = items.length := Nat.le_antisymm h.bound (List.drop_eq_nil_iff.mp hlines)
    subst hn
    exact ⟨ranges, first, h⟩
  | cons line lines ih =>
    rw [placed] at hlines
    rw [List.foldl_cons]
    unfold addLine
    dsimp only
    split
    next hempty =>
      rw [if_pos hempty] at hlines
      exact ih h hlines
    next hne =>
      rw [if_neg hne] at hlines
      split
      next hheading =>
        rw [if_pos hheading] at hlines
        obtain ⟨ranges', hheld⟩ := h.clear countTokens document
          hblank (headingText (strip line.text)) (headingText (strip line.text))
        exact ih hheld hlines
      next hplain =>
        rw [if_neg hplain] at hlines
        obtain ⟨ranges', first', hheld, hrest, hsection⟩ :=
          h.addParts countTokens document hblank hlines
        rw [← hsection] at hrest
        exact ih hheld hrest

end Place

section Text

variable {countTokens : Text → Nat}

/-- The parts of a sentence are not blank. -/
theorem addSentence_text {acc : List Text × Text}
    (h : (∀ part ∈ acc.1, strip part ≠ []) ∧ strip acc.2 = acc.2) (sentence : Text) :
    (∀ part ∈ (addSentence countTokens acc sentence).1, strip part ≠ []) ∧
      strip (addSentence countTokens acc sentence).2 = (addSentence countTokens acc sentence).2 := by
  obtain ⟨parts, current⟩ := acc
  obtain ⟨hparts, hcurrent⟩ := h
  have hclosed : (∀ part ∈ (if current ≠ [] ∧
        maxChunkTokens < countTokens (current ++ ' ' :: strip sentence) then
          (parts ++ [current], []) else (parts, current)).1, strip part ≠ []) ∧
      strip (if current ≠ [] ∧
        maxChunkTokens < countTokens (current ++ ' ' :: strip sentence) then
          (parts ++ [current], ([] : Text)) else (parts, current)).2 = (if current ≠ [] ∧
        maxChunkTokens < countTokens (current ++ ' ' :: strip sentence) then
          (parts ++ [current], []) else (parts, current)).2 := by
    split
    next hsome =>
      refine ⟨List.forall_mem_append.mpr ⟨hparts, List.forall_mem_singleton.mpr ?_⟩, rfl⟩
      rw [show strip current = current from hcurrent]
      exact hsome.1
    next => exact ⟨hparts, hcurrent⟩
  unfold Chunking.addSentence
  dsimp only
  split
  · exact ⟨hparts, hcurrent⟩
  · generalize (if current ≠ [] ∧ maxChunkTokens < countTokens (current ++ ' ' :: strip sentence)
      then (parts ++ [current], ([] : Text)) else (parts, current)) = closed at hclosed ⊢
    split
    · refine ⟨List.forall_mem_append.mpr ⟨hclosed.1, ?_⟩, hclosed.2⟩
      intro part hpart
      obtain ⟨hmem, hne⟩ := List.mem_filter.mp hpart
      obtain ⟨slice, -, rfl⟩ := List.mem_map.mp hmem
      rw [strip_strip]
      exact of_decide_eq_true hne
    · exact ⟨hclosed.1, strip_strip _⟩

/-- The parts of a line that is not blank are not blank. -/
theorem splitLongLine_text {line : SourceLine} (h : strip line.text ≠ []) :
    ∀ part ∈ splitLongLine countTokens line, strip part.text ≠ [] := by
  have hfold : ∀ (pieces : List Text) (acc : List Text × Text),
      ((∀ part ∈ acc.1, strip part ≠ []) ∧ strip acc.2 = acc.2) →
      (∀ part ∈ (pieces.foldl (addSentence countTokens) acc).1, strip part ≠ []) ∧
        strip (pieces.foldl (addSentence countTokens) acc).2 =
          (pieces.foldl (addSentence countTokens) acc).2 := by
    intro pieces
    induction pieces with
    | nil => exact fun acc h => h
    | cons piece pieces ih => exact fun acc h => ih _ (addSentence_text h piece)
  obtain ⟨hparts, hcurrent⟩ := hfold (sentences line.text) ([], []) ⟨nofun, rfl⟩
  unfold splitLongLine
  split
  next => exact List.forall_mem_singleton.mpr h
  next =>
    intro part hpart
    obtain ⟨text, htext, rfl⟩ := List.mem_map.mp hpart
    show strip text ≠ []
    unfold longLineTexts at htext
    dsimp only at htext
    split at htext
    next => exact hparts text htext
    next hne =>
      rcases List.mem_append.mp htext with hmem | hmem
      · exact hparts text hmem
      · rw [List.mem_singleton.mp hmem, hcurrent]
        exact hne

theorem placed_text (countTokens : Text → Nat) (sectionName : Text) (lines : List SourceLine) :
    ∀ item ∈ placed countTokens sectionName lines, strip item.2.text ≠ [] := by
  induction lines generalizing sectionName with
  | nil => exact nofun
  | cons line lines ih =>
    rw [placed]
    split
    next => exact ih sectionName
    next hne =>
      split
      next => exact ih _
      next =>
        refine List.forall_mem_append.mpr ⟨fun item hitem => ?_, ih sectionName⟩
        obtain ⟨part, hpart, rfl⟩ := List.mem_map.mp hitem
        exact splitLongLine_text hne part hpart

end Text

/-- **The chunks cover the document**, for every document and every counter: each line that is
neither blank nor a heading is there, in its parts, with its section, its number and its page, in
the order of the document; and the parts are the line up to white space, for a counter by which
no sentence is over the limit that is within it behind another text. -/
theorem chunkLines_covers (countTokens : Text → Nat) (document : Document)
    (lines : List SourceLine) :
    Covers (placed countTokens [] lines) (chunkLines countTokens document lines) ∧
      (Grows countTokens → ∀ line ∈ lines, PartsOf line (splitLongLine countTokens line)) := by
  refine ⟨?_, fun hgrows line _ => splitLongLine_parts hgrows line⟩
  have hblank := placed_text countTokens [] lines
  have hstart : Held (placed countTokens [] lines) 0 0 [] start :=
    ⟨Nat.le_refl 0, Nat.zero_le _, ⟨.nil, .nil, nofun, fun i hi => absurd hi (Nat.not_lt_zero i)⟩,
      partsIn_self.symm, fun hne => absurd rfl hne, fun i _ hi => absurd hi (Nat.not_lt_zero i),
      nofun, fun i _ hi => absurd hi (Nat.not_lt_zero i)⟩
  obtain ⟨ranges, first, hheld⟩ := hstart.addLines countTokens document hblank (List.drop_zero (l := _))
  obtain ⟨ranges', hwritten⟩ := hheld.flushed countTokens document hblank
  have hall := hwritten (placed countTokens [] lines).length hheld.begun (Nat.le_refl _)
  exact ⟨ranges', hall.cites, hall.ordered, hall.covered⟩

/-- The characters of a text that are no white space. -/
def inked (s : Text) : Text := s.filter fun c => !isSpace c

/-- A line of three sentences of three hundred tokens. -/
def longLine : SourceLine :=
  ⟨List.replicate 1199 'x' ++ ". ".toList ++ List.replicate 1199 'y' ++ ". ".toList ++
    List.replicate 1199 'z' ++ ".".toList, 1, none⟩

/-- No one chunk has all of an over-long line, a line without a page behind one that has a page is
cited with that page, and where a sentence is within the limit only behind another, the parts are
out of order. -/
theorem chunkLines_not_whole :
    (¬ ∀ (document : Document) (lines : List SourceLine), ∀ line ∈ lines, strip line.text ≠ [] →
      headingText (strip line.text) = [] → ∃ chunk ∈ chunkLines estimatedTokens document lines,
        inked line.text <:+: inked chunk.text) ∧
    (¬ ∀ (document : Document) (lines : List SourceLine), ∀ line ∈ lines, strip line.text ≠ [] →
      headingText (strip line.text) = [] → ∃ chunk ∈ chunkLines estimatedTokens document lines,
        chunk.lineStart ≤ line.line ∧ line.line ≤ chunk.lineEnd ∧ chunk.page = line.page) ∧
    ¬ ∀ (countTokens : Text → Nat) (line : SourceLine),
      inked ((splitLongLine countTokens line).flatMap SourceLine.text) = inked line.text := by
  refine ⟨fun hall => ?_, fun hall => ?_, fun hall => ?_⟩
  · obtain ⟨chunk, hchunk, hinfix⟩ := hall ⟨[], [], []⟩ [longLine] longLine
      (List.mem_singleton_self _) (by decide +kernel) (by decide +kernel)
    have hshort : ∀ chunk ∈ chunkLines estimatedTokens ⟨[], [], []⟩ [longLine],
        (inked chunk.text).length < (inked longLine.text).length := by decide +kernel
    have hle := hinfix.length_le
    have := hshort chunk hchunk
    omega
  · have hpage := hall ⟨[], [], []⟩ [⟨['a'], 1, some 1⟩, ⟨['b'], 2, none⟩] ⟨['b'], 2, none⟩
      (by decide) (by decide) (by decide)
    exact absurd hpage (by decide)
  · have hparts := hall (fun s => if s = "a.".toList ∨ s = "a. bb.".toList then 1 else 361)
      ⟨"a. bb. c".toList, 1, none⟩
    exact absurd hparts (by decide)

end Shamsu.Retriever.Chunking
