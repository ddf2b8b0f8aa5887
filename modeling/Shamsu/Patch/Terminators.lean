import Shamsu.Patch.GitFormat
import Shamsu.Patch.Restore

/-!
# What a patch leaves of the bytes of a file

`_apply_file_patch` reads a file with its newlines translated, cuts it with `splitlines` and
writes the lines back with a newline after each. `patch_keeps_rest_iff` says when the bytes
outside the blocks of its hunks are what they were: when every line there ends in a plain
newline, or it is the last one, has no newline, and a hunk comes after it.
-/

namespace Shamsu.Patch

open Shamsu.Lib Shamsu.Py Shamsu.Safety

/-- What stays of `l` before each hunk and after the last one, where `lines` are the lines
of the file. -/
def keptFrom {α : Type} (lines : List Text) (l : List α) :
    Nat → List HunkPatch → Option (List (List α) × List α)
  | cursor, [] => some ([], l.drop cursor)
  | cursor, hunk :: hunks => do
    let start ← locateHunk lines (oldBlock hunk.lines) (hunk.oldStart - 1) cursor
    let (gaps, rest) ← keptFrom lines l (start + (oldBlock hunk.lines).length) hunks
    some ((l.drop cursor).take (start - cursor) :: gaps, rest)

/-- The lines of a file outside the blocks of the hunks, with their terminators. -/
def outside (text : Text) (hunks : List HunkPatch) :
    Option (List (List RawLine) × List RawLine) :=
  keptFrom (splitlines text) (rawLines text) 0 hunks

/-- **The bytes outside are the same**: the file is what stays with something between. -/
def KeepsRest (gaps : List (List RawLine)) (rest : List RawLine) (text : Text)
    (after : Option Bytes) : Prop :=
  ∃ pieces : List (Piece Char), pieces.map Piece.before = gaps.map rawText ∧
    text = Piece.source pieces (rawText rest) ∧
    after.getD [] = encodeUtf8 (Piece.target pieces (rawText rest))

/-- Every line ends in a newline, up to one before a hunk that ends in nothing. -/
def EndedPlainly (gaps : List (List RawLine)) (rest : List RawLine) : Prop :=
  (∀ gap ∈ gaps, ∀ r ∈ gap, r.ending = ['\n'] ∨ r.ending = []) ∧ ∀ r ∈ rest, r.ending = ['\n']

/-- The hunks take the whole file. -/
def NothingOutside (gaps : List (List RawLine)) (rest : List RawLine) : Prop :=
  (∀ gap ∈ gaps, gap = []) ∧ rest = []

/-! ## The blocks of the raw lines -/

section Blocks

variable {raw : List RawLine}

/-- A line that is written. -/
def written (line : Text) : RawLine := ⟨line, ['\n']⟩

theorem map_line_written (lines : List Text) : (lines.map written).map RawLine.line = lines := by
  rw [List.map_map]
  exact List.map_id lines

/-- One hunk, and where it was found. -/
theorem applyHunk_located {original output output' : List Text} {hunk : HunkPatch}
    {cursor cursor' : Nat} (hcursor : cursor ≤ original.length)
    (h : applyHunk original (output, cursor) hunk = .ok (output', cursor')) :
    ∃ start, locateHunk original (oldBlock hunk.lines) (hunk.oldStart - 1) cursor = some start ∧
      cursor ≤ start ∧ cursor' = start + (oldBlock hunk.lines).length ∧
      cursor' ≤ original.length ∧
      output' = output ++ ((original.drop cursor).take (start - cursor) ++
        newSide hunk.lines (original.drop start)) := by
  unfold applyHunk at h
  dsimp only at h
  split at h
  · cases h
  next start hstart =>
    obtain ⟨hlow, hin, _⟩ := locateHunk_spec hcursor hstart
    obtain ⟨rfl, rfl, _⟩ := applyLines_spec hin h
    exact ⟨start, hstart, hlow, rfl, hin, List.append_assoc _ _ _⟩

/-- **The blocks in the raw lines**: what is put out are the lines of what they become. -/
theorem hunks_raw {hunks : List HunkPatch} {output output' : List Text} {cursor cursor' : Nat}
    (hcursor : cursor ≤ raw.length)
    (h : hunks.foldlM (applyHunk (raw.map RawLine.line)) (output, cursor) =
      .ok (output', cursor')) :
    ∃ pieces : List (Piece RawLine),
      keptFrom (raw.map RawLine.line) raw cursor hunks =
        some (pieces.map Piece.before, raw.drop cursor') ∧
      raw.drop cursor = Piece.source pieces (raw.drop cursor') ∧
      output' ++ (raw.map RawLine.line).drop cursor' =
        output ++ (Piece.target pieces (raw.drop cursor')).map RawLine.line ∧
      ∀ p ∈ pieces, ∃ hunk ∈ hunks, ∃ start,
        p.new = (newSide hunk.lines ((raw.map RawLine.line).drop start)).map written := by
  induction hunks generalizing output cursor with
  | nil =>
    cases h
    exact ⟨[], rfl, rfl, by rw [Piece.target_nil, List.map_drop], nofun⟩
  | cons hunk hunks ih =>
    obtain ⟨⟨output₁, cursor₁⟩, hfirst, h⟩ := result_bind_ok.mp h
    obtain ⟨start, hstart, hlow, rfl, hin, rfl⟩ :=
      applyHunk_located (by rwa [List.length_map]) hfirst
    rw [List.length_map] at hin
    obtain ⟨pieces, hkept, hsource, hout, hnew⟩ := ih hin h
    refine ⟨⟨(raw.drop cursor).take (start - cursor),
      (raw.drop start).take (oldBlock hunk.lines).length,
      (newSide hunk.lines ((raw.map RawLine.line).drop start)).map written⟩ :: pieces,
      ?_, ?_, ?_, ?_⟩
    · rw [keptFrom, hstart, Option.bind_eq_bind, Option.bind_some, hkept]
      rfl
    · rw [Piece.source_cons, ← hsource]
      conv_lhs => rw [← List.take_append_drop (start - cursor) (raw.drop cursor)]
      rw [List.drop_drop, Nat.add_sub_cancel' hlow, ← List.drop_drop, List.take_append_drop]
    · rw [hout, Piece.target_cons, List.map_append, List.map_append, map_line_written,
        List.map_take, List.map_drop, List.append_assoc, List.append_assoc]
    · intro p hp
      rcases List.mem_cons.mp hp with rfl | hp
      · exact ⟨hunk, List.mem_cons_self, start, rfl⟩
      · obtain ⟨hunk', hh, hnew⟩ := hnew p hp
        exact ⟨hunk', List.mem_cons_of_mem _ hh, hnew⟩

/-- The lines of a new side are lines of the file or of the hunk. -/
theorem mem_newSide {lines : List Text} : ∀ {block : List Text} {line : Text},
    line ∈ newSide lines block → line ∈ block ∨ ∃ l ∈ lines, line = l.tail := by
  induction lines with
  | nil => exact fun h => absurd h List.not_mem_nil
  | cons first lines ih =>
    intro block line h
    have hlater : ∀ {block' : List Text}, (∀ l ∈ block', l ∈ block) →
        line ∈ newSide lines block' → line ∈ block ∨ ∃ l ∈ first :: lines, line = l.tail := by
      intro block' hsub h
      rcases ih h with h | ⟨l, hl, h⟩
      · exact Or.inl (hsub line h)
      · exact Or.inr ⟨l, List.mem_cons_of_mem _ hl, h⟩
    rw [newSide] at h
    split_ifs at h with hnote hcontext hremoved
    · exact hlater (fun _ hl => hl) h
    · rcases List.mem_append.mp h with h | h
      · exact Or.inl (List.mem_of_mem_take h)
      · exact hlater (fun _ hl => List.mem_of_mem_drop hl) h
    · exact hlater (fun _ hl => List.mem_of_mem_drop hl) h
    · rcases List.mem_cons.mp h with rfl | h
      · exact Or.inr ⟨first, List.mem_cons_self, rfl⟩
      · exact hlater (fun _ hl => hl) h

end Blocks

/-! ## What is parsed has plain lines -/

theorem mem_sections {α : Type} {starts : α → Bool} : ∀ {l : List α} {s : α × List α},
    s ∈ (sections starts l).2 → s.1 ∈ l ∧ ∀ a ∈ s.2, a ∈ l := by
  intro l
  have hpre : ∀ {l : List α}, ∀ a ∈ (sections starts l).1, a ∈ l := by
    intro l
    induction l with
    | nil => exact fun _ ha => absurd ha List.not_mem_nil
    | cons b l ih =>
      intro a ha
      rw [sections] at ha
      dsimp only at ha
      split at ha
      · exact absurd ha List.not_mem_nil
      · rcases List.mem_cons.mp ha with rfl | ha
        · exact List.mem_cons_self
        · exact List.mem_cons_of_mem _ (ih a ha)
  induction l with
  | nil => exact fun hs => absurd hs List.not_mem_nil
  | cons b l ih =>
    intro s hs
    rw [sections] at hs
    dsimp only at hs
    split at hs
    · rcases List.mem_cons.mp hs with rfl | hs
      · exact ⟨List.mem_cons_self, fun a ha => List.mem_cons_of_mem _ (hpre a ha)⟩
      · exact ⟨List.mem_cons_of_mem _ (ih hs).1, fun a ha => List.mem_cons_of_mem _ ((ih hs).2 a ha)⟩
    · exact ⟨List.mem_cons_of_mem _ (ih hs).1, fun a ha => List.mem_cons_of_mem _ ((ih hs).2 a ha)⟩

theorem mem_of_hunkLines {lines : List Text} : ∀ {read : List Text},
    hunkLines lines = .ok read → ∀ line ∈ read, line ∈ lines := by
  induction lines with
  | nil =>
    intro read h line hline
    cases h
    cases hline
  | cons first lines ih =>
    intro read h line hline
    rw [hunkLines] at h
    split_ifs at h with hnote hmark
    · exact List.mem_cons_of_mem _ (ih h line hline)
    · cases hrest : hunkLines lines with
      | error e =>
        rw [hrest] at h
        cases h
      | ok rest =>
        rw [hrest] at h
        cases h
        rcases List.mem_cons.mp hline with rfl | hline
        · exact List.mem_cons_self
        · exact List.mem_cons_of_mem _ (ih hrest line hline)

/-- The lines of a hunk that is parsed are lines of the diff. -/
theorem plain_of_parse {root : Path} {diffText : Text} {patches : List FilePatch}
    (h : parseFilePatches root diffText = .ok patches) :
    ∀ patch ∈ patches, ∀ hunk ∈ patch.hunks, ∀ line ∈ hunk.lines, IsPlain line := by
  intro patch hpatch hunk hhunk line hline
  obtain ⟨section_, hsection, hp⟩ := of_mem_mapM_ok (parseFilePatches_lines.mp h).1 hpatch
  obtain ⟨header, body⟩ := section_
  have hbody := (mem_sections hsection).2
  unfold parseFilePatch at hp
  cases body with
  | nil => cases hp
  | cons second body =>
    dsimp only at hp
    split at hp
    · cases hp
    · obtain ⟨_, _, hp⟩ := result_bind_ok.mp hp
      split at hp
      · cases hp
      · obtain ⟨read, hread, hp⟩ := result_bind_ok.mp hp
        split at hp
        · cases hp
        · cases hp
          obtain ⟨sec, hsec, hone⟩ := of_mem_mapM_ok hread hhunk
          unfold parseHunk at hone
          split at hone
          · cases hone
          · obtain ⟨lines, hlines, hone⟩ := result_bind_ok.mp hone
            obtain ⟨_, _, hone⟩ := result_bind_ok.mp hone
            obtain ⟨_, _, hone⟩ := result_bind_ok.mp hone
            cases hone
            have hin := (mem_sections hsec).2 line (mem_of_hunkLines hlines line hline)
            exact isPlain_splitlines (hbody line (List.mem_cons_of_mem _ hin))

/-! ## What is written -/

section Write

variable {pieces : List (Piece RawLine)} {rest : List RawLine}

theorem linesText_eq (lines : List Text) : linesText lines = endedText lines := by
  unfold linesText
  split
  next h =>
    rw [h]
    rfl
  next h =>
    induction lines with
    | nil => exact absurd rfl h
    | cons line lines ih =>
      cases lines with
      | nil => simp [join, endedText]
      | cons next lines =>
        have hrest := ih (List.cons_ne_nil _ _)
        unfold endedText at hrest ⊢
        rw [join_cons_cons, List.flatMap_cons, ← hrest, List.append_assoc, List.append_assoc]
        rfl

theorem endedText_append (a b : List Text) : endedText (a ++ b) = endedText a ++ endedText b :=
  List.flatMap_append

/-- Lines that end in newlines stay as they are. -/
theorem endedText_plain {l : List RawLine} (h : ∀ r ∈ l, r.ending = ['\n']) :
    endedText (l.map RawLine.line) = rawText l := by
  unfold endedText rawText
  rw [List.flatMap_map]
  refine List.flatMap_congr fun r hr => ?_
  rw [RawLine.text, h r hr]

/-- A piece of the text. -/
def textPiece (p : Piece RawLine) : Piece Char :=
  ⟨rawText p.before, rawText p.old, endedText (p.new.map RawLine.line)⟩

theorem source_nil_of {ps : List (Piece RawLine)} (h : Piece.source ps rest = []) :
    (∀ p ∈ ps, p.before = [] ∧ p.old = []) ∧ rest = [] := by
  induction ps with
  | nil => exact ⟨nofun, h⟩
  | cons p ps ih =>
    rw [Piece.source_cons, List.append_eq_nil_iff, List.append_eq_nil_iff] at h
    obtain ⟨hbefore, hold, h⟩ := h
    obtain ⟨hall, hrest⟩ := ih h
    exact ⟨List.forall_mem_cons.mpr ⟨⟨hbefore, hold⟩, hall⟩, hrest⟩

/-- With nothing left of the file, all of the text can stand in place of the next block. -/
theorem pieces_of_nothing {text : Text} (ps : List (Piece RawLine))
    (h : ∀ p ∈ ps, p.before = []) :
    (ps.map fun _ => (⟨[], [], []⟩ : Piece Char)).map Piece.before =
        (ps.map Piece.before).map rawText ∧
      Piece.source (ps.map fun _ => (⟨[], [], []⟩ : Piece Char)) text = text ∧
      Piece.target (ps.map fun _ => (⟨[], [], []⟩ : Piece Char)) text = text := by
  induction ps with
  | nil => exact ⟨rfl, rfl, rfl⟩
  | cons p ps ih =>
    obtain ⟨hbefore, hsource, htarget⟩ := ih fun q hq => h q (List.mem_cons_of_mem _ hq)
    refine ⟨?_, hsource, htarget⟩
    rw [List.map_cons, List.map_cons, hbefore, List.map_cons, List.map_cons,
      h p List.mem_cons_self]
    rfl

/-- **Plainly ended lines are kept.** -/
theorem keeps_of_plain (hunended : OnlyLastUnended (Piece.source pieces rest))
    (h : EndedPlainly (pieces.map Piece.before) rest) :
    ∃ cut : List (Piece Char), cut.map Piece.before = (pieces.map Piece.before).map rawText ∧
      rawText (Piece.source pieces rest) = Piece.source cut (rawText rest) ∧
      endedText ((Piece.target pieces rest).map RawLine.line) =
        Piece.target cut (rawText rest) := by
  induction pieces with
  | nil => exact ⟨[], rfl, rfl, endedText_plain h.2⟩
  | cons p pieces ih =>
    have hgap := h.1 p.before List.mem_cons_self
    have hrest : EndedPlainly (pieces.map Piece.before) rest :=
      ⟨fun gap hg => h.1 gap (List.mem_cons_of_mem _ hg), h.2⟩
    have hdrop : OnlyLastUnended (Piece.source pieces rest) := by
      rw [Piece.source_cons, ← List.append_assoc] at hunended
      exact hunended.drop
    by_cases hplain : ∀ r ∈ p.before, r.ending = ['\n']
    · obtain ⟨cut, hbefore, hsource, htarget⟩ := ih hdrop hrest
      refine ⟨textPiece p :: cut, ?_, ?_, ?_⟩
      · rw [List.map_cons, List.map_cons, List.map_cons, hbefore]
        rfl
      · rw [Piece.source_cons, Piece.source_cons, ← hsource]
        unfold rawText textPiece rawText
        rw [List.flatMap_append, List.flatMap_append]
      · rw [Piece.target_cons, Piece.target_cons, ← htarget, List.map_append, List.map_append,
          endedText_append, endedText_append, endedText_plain hplain]
        rfl
    · -- the last line of the file is here, and has no newline
      obtain ⟨r, hr⟩ := not_forall.mp hplain
      obtain ⟨hr, hending⟩ := Classical.not_imp.mp hr
      have hnil := (hgap r hr).resolve_left hending
      obtain ⟨front, back, hsplit⟩ := List.append_of_mem hr
      have hwhole : Piece.source (p :: pieces) rest =
          front ++ r :: (back ++ (p.old ++ Piece.source pieces rest)) := by
        rw [Piece.source_cons, hsplit, List.append_assoc, List.cons_append]
      obtain ⟨hend, _⟩ := hunended.last hwhole hnil
      rw [List.append_eq_nil_iff, List.append_eq_nil_iff] at hend
      obtain ⟨hback, hold, hsourceNil⟩ := hend
      obtain ⟨hnone, hrestNil⟩ := source_nil_of hsourceNil
      have hfront : ∀ r' ∈ front, r'.ending = ['\n'] := by
        intro r' hr'
        refine (hgap r' (hsplit ▸ List.mem_append_left _ hr')).resolve_right fun hno => ?_
        obtain ⟨front', back', hsplit'⟩ := List.append_of_mem hr'
        have hwhole' : Piece.source (p :: pieces) rest = front' ++ r' :: (back' ++
            r :: (back ++ (p.old ++ Piece.source pieces rest))) := by
          rw [hwhole, hsplit', List.append_assoc, List.cons_append]
        have hearly := hunended.last hwhole' hno
        exact absurd (List.append_eq_nil_iff.mp hearly.1).2 (List.cons_ne_nil _ _)
      rw [hback] at hsplit
      have hbeforeText : rawText p.before = endedText (front.map RawLine.line) ++ r.line := by
        rw [endedText_plain hfront, hsplit]
        unfold rawText
        rw [List.flatMap_append, List.flatMap_singleton, RawLine.text, hnil, List.append_nil]
      obtain ⟨hbefore, hsource, htarget⟩ := @pieces_of_nothing []
        pieces fun q hq => (hnone q hq).1
      refine ⟨⟨rawText p.before, [], '\n' :: endedText ((p.new ++
        Piece.target pieces rest).map RawLine.line)⟩ :: pieces.map fun _ => ⟨[], [], []⟩, ?_, ?_, ?_⟩
      · rw [List.map_cons, List.map_cons, List.map_cons, hbefore]
      · rw [Piece.source_cons, Piece.source_cons, hrestNil, hold]
        rw [hrestNil] at hsourceNil
        rw [hsourceNil]
        show rawText (p.before ++ ([] ++ [])) = rawText p.before ++ ([] ++ Piece.source _ [])
        rw [hsource, List.append_nil, List.append_nil]
        exact (List.append_nil _).symm
      · rw [Piece.target_cons, Piece.target_cons, hrestNil]
        show _ = rawText p.before ++ (_ ++ Piece.target _ [])
        rw [htarget, List.append_nil, List.map_append, endedText_append, hbeforeText, hsplit,
          List.map_append, endedText_append, List.append_assoc, List.append_assoc]
        unfold endedText
        simp

/-- Line breaks of a text that is written are newlines. -/
theorem newline_of_endedText {lines : List Text} (hplain : ∀ line ∈ lines, IsPlain line) :
    ∀ c ∈ endedText lines, isLineBreak c = true → c = '\n' := by
  intro c hc hbreak
  obtain ⟨line, hline, hc⟩ := List.mem_flatMap.mp hc
  rcases List.mem_append.mp hc with hc | hc
  · rw [hplain line hline c hc] at hbreak
    cases hbreak
  · exact List.mem_singleton.mp hc

/-- It ends in a newline. -/
theorem getLast_endedText {lines : List Text} {front : Text} {c : Char}
    (h : endedText lines = front ++ [c]) : c = '\n' := by
  rcases List.eq_nil_or_concat lines with rfl | ⟨lines, line, rfl⟩
  · exact absurd h.symm (by simp [endedText])
  · rw [List.concat_eq_append, endedText_append] at h
    have hone : endedText [line] = line ++ ['\n'] := List.flatMap_singleton _ _
    rw [hone, ← List.append_assoc] at h
    exact (List.singleton_injective (List.append_inj_right' h rfl)).symm

/-- **What is kept was ended plainly.** -/
theorem plain_of_keeps {lines : List Text} {cut : List (Piece Char)}
    (hunended : OnlyLastUnended (Piece.source pieces rest))
    (hplain : ∀ line ∈ lines, IsPlain line)
    (hbefore : cut.map Piece.before = (pieces.map Piece.before).map rawText)
    (hafter : endedText lines = Piece.target cut (rawText rest)) :
    EndedPlainly (pieces.map Piece.before) rest := by
  have hbreaks := newline_of_endedText hplain
  rw [hafter] at hbreaks
  -- a terminator that stays has no break but a newline
  have hkept : ∀ {r : RawLine} {front back : List RawLine},
      Piece.source pieces rest = front ++ r :: back →
      (∀ c ∈ r.ending, c ∈ Piece.target cut (rawText rest)) →
      r.ending = ['\n'] ∨ r.ending = [] := by
    intro r front back hsplit hin
    rcases (hunended front r back hsplit).2 with (hcr | ⟨c, hc, hbreak⟩) | ⟨hnil, _⟩
    · have hmem := hin '\r' (hcr ▸ List.mem_cons_self)
      exact absurd (hbreaks '\r' hmem (by decide)) (by decide)
    · have hmem := hin c (hc ▸ List.mem_cons_self)
      exact Or.inl (hbreaks c hmem hbreak ▸ hc)
    · exact Or.inr hnil
  have hending : ∀ {l : List RawLine} {r : RawLine}, r ∈ l → ∀ c ∈ r.ending, c ∈ rawText l :=
    fun hr c hc => List.mem_flatMap.mpr ⟨_, hr, List.mem_append_right _ hc⟩
  constructor
  · intro gap hgap r hr
    obtain ⟨p, hp, rfl⟩ := List.mem_map.mp hgap
    have hpiece : rawText p.before ∈ cut.map Piece.before := by
      rw [hbefore]
      exact List.mem_map_of_mem hgap
    obtain ⟨q, hq, hqbefore⟩ := List.mem_map.mp hpiece
    obtain ⟨front, back, hsplit⟩ := List.append_of_mem (Piece.mem_source_of_before hp hr)
    refine hkept hsplit fun c hc => Piece.mem_target_of_before hq ?_
    rw [hqbefore]
    exact hending hr c hc
  · intro r hr
    obtain ⟨front, back, hsplit⟩ := List.append_of_mem hr
    obtain ⟨head, hhead⟩ := Piece.exists_source pieces
    have hwhole : Piece.source pieces rest = (head ++ front) ++ r :: back := by
      rw [hhead, hsplit, List.append_assoc]
    have htarget : ∃ front', Piece.target cut (rawText rest) = front' ++ rawText rest :=
      ⟨Piece.target cut [], by rw [← Piece.target_rest, List.nil_append]⟩
    obtain ⟨front', htarget⟩ := htarget
    refine (hkept hwhole fun c hc => ?_).resolve_right fun hnil => ?_
    · rw [htarget]
      exact List.mem_append_right _ (hending hr c hc)
    · -- the text would end in the line
      obtain ⟨hback, hne⟩ := hunended.last hwhole hnil
      obtain ⟨start, c, hline⟩ := (List.eq_nil_or_concat r.line).resolve_left hne
      rw [List.concat_eq_append] at hline
      have htext : endedText lines = (front' ++ (rawText front ++ start)) ++ [c] := by
        rw [hafter, htarget, hsplit, hback]
        unfold rawText
        rw [List.flatMap_append, List.flatMap_singleton, RawLine.text, hnil, hline]
        simp
      have hc := getLast_endedText htext
      have hplainLine := (hunended _ r back hwhole).1 c
        (hline ▸ List.mem_append_right _ (List.mem_singleton.mpr rfl))
      rw [hc] at hplainLine
      exact absurd hplainLine (by decide)

theorem rawText_eq_nil {l : List RawLine} (h : OnlyLastUnended l) (hnil : rawText l = []) :
    l = [] := by
  cases l with
  | nil => rfl
  | cons r l =>
    unfold rawText at hnil
    rw [List.flatMap_cons, List.append_eq_nil_iff, RawLine.text, List.append_eq_nil_iff] at hnil
    exact absurd hnil.1.1 (@OnlyLastUnended.last [] l r _ h rfl hnil.1.2).2

/-- With the file gone nothing outside is kept. -/
theorem nothing_of_deleted {cut : List (Piece Char)}
    (hunended : OnlyLastUnended (Piece.source pieces rest))
    (hbefore : cut.map Piece.before = (pieces.map Piece.before).map rawText)
    (hnil : Piece.target cut (rawText rest) = []) :
    NothingOutside (pieces.map Piece.before) rest := by
  induction pieces generalizing cut with
  | nil =>
    obtain rfl := List.map_eq_nil_iff.mp hbefore
    exact ⟨nofun, rawText_eq_nil hunended hnil⟩
  | cons p pieces ih =>
    cases cut with
    | nil => cases hbefore
    | cons q cut =>
      obtain ⟨hfirst, hcut⟩ := List.cons.inj hbefore
      rw [Piece.target_cons, List.append_eq_nil_iff, List.append_eq_nil_iff] at hnil
      rw [Piece.source_cons, ← List.append_assoc] at hunended
      obtain ⟨hall, hrest⟩ := ih hunended.drop hcut hnil.2.2
      refine ⟨List.forall_mem_cons.mpr ⟨?_, hall⟩, hrest⟩
      have htext : rawText p.before = [] := hfirst ▸ hnil.1
      cases hb : p.before with
      | nil => rfl
      | cons r l =>
        rw [hb] at htext
        unfold rawText at htext
        rw [List.flatMap_cons, List.append_eq_nil_iff, RawLine.text,
          List.append_eq_nil_iff] at htext
        have hwhole : (p.before ++ p.old) ++ Piece.source pieces rest =
            [] ++ r :: (l ++ (p.old ++ Piece.source pieces rest)) := by
          rw [hb, List.nil_append, List.append_assoc]
          rfl
        exact absurd htext.1.1 (hunended.last hwhole htext.1.2).2

end Write

/-- **On the text**: what stays of it when the new lines are written, and when it is deleted. -/
theorem keeps_iff {text : Text} {hunks : List HunkPatch} {newLines : List Text}
    (hplain : ∀ hunk ∈ hunks, ∀ line ∈ hunk.lines, IsPlain line)
    (h : applyHunks (splitlines text) hunks = .ok newLines) :
    ∃ gaps rest, outside text hunks = some (gaps, rest) ∧
      (KeepsRest gaps rest text (some (encodeUtf8 (linesText newLines))) ↔
        EndedPlainly gaps rest) ∧
      (KeepsRest gaps rest text none ↔ NothingOutside gaps rest) := by
  unfold applyHunks at h
  obtain ⟨⟨output, cursor⟩, hrun, h⟩ := result_bind_ok.mp h
  cases h
  rw [← rawLines_line] at hrun ⊢
  obtain ⟨pieces, hkept, hsource, hout, hnew⟩ := hunks_raw (Nat.zero_le _) hrun
  rw [List.drop_zero] at hsource
  have hunended := rawLines_unended text
  rw [hsource] at hunended
  have htext : rawText (Piece.source pieces ((rawLines text).drop cursor)) = text := by
    rw [← hsource, rawText_rawLines]
  have hplainLines : ∀ line ∈ output ++ ((rawLines text).map RawLine.line).drop cursor,
      IsPlain line := by
    intro line hline
    rw [hout, List.nil_append] at hline
    obtain ⟨r, hr, rfl⟩ := List.mem_map.mp hline
    have hfile : ∀ {l : Text}, l ∈ (rawLines text).map RawLine.line → IsPlain l := fun hl =>
      isPlain_splitlines (rawLines_line text ▸ hl)
    rcases Piece.mem_target hr with ⟨p, hp, hr⟩ | hr
    · obtain ⟨hunk, hhunk, start, hp⟩ := hnew p hp
      rw [hp] at hr
      obtain ⟨l, hl, rfl⟩ := List.mem_map.mp hr
      rcases mem_newSide hl with hl | ⟨l', hl', rfl⟩
      · exact hfile (List.mem_of_mem_drop hl)
      · exact fun c hc => hplain hunk hhunk l' hl' c (List.mem_of_mem_tail hc)
    · rw [← hsource] at hr
      exact hfile (List.mem_map_of_mem hr)
  refine ⟨_, _, by unfold outside; rw [← rawLines_line]; exact hkept, ?_, ?_⟩
  · rw [linesText_eq]
    constructor
    · intro hsome
      obtain ⟨cut, hbefore, _, hafter⟩ := hsome
      exact plain_of_keeps hunended hplainLines hbefore (encodeUtf8_injective hafter)
    · intro hended
      obtain ⟨cut, hbefore, hsrc, htgt⟩ := keeps_of_plain hunended hended
      refine ⟨cut, hbefore, htext.symm.trans hsrc, ?_⟩
      rw [hout, List.nil_append, htgt]
      rfl
  · constructor
    · intro hsome
      obtain ⟨cut, hbefore, _, hafter⟩ := hsome
      exact nothing_of_deleted hunended hbefore (encodeUtf8_injective hafter.symm)
    · intro hsome
      obtain ⟨hgaps, hrest⟩ := hsome
      refine ⟨pieces.map fun p => ⟨rawText p.before, rawText p.old, []⟩, ?_, ?_, ?_⟩
      · rw [List.map_map, List.map_map]
        rfl
      · refine htext.symm.trans ?_
        clear hsource hout hkept hnew hgaps htext hunended
        induction pieces with
        | nil => rfl
        | cons p pieces ih =>
          rw [Piece.source_cons, List.map_cons, Piece.source_cons, ← ih]
          unfold rawText
          rw [List.flatMap_append, List.flatMap_append]
      · rw [hrest]
        clear hsource hout hkept hnew htext hunended
        induction pieces with
        | nil => rfl
        | cons p pieces ih =>
          obtain ⟨hfirst, hgaps⟩ := List.forall_mem_cons.mp hgaps
          rw [List.map_cons, Piece.target_cons, hfirst]
          exact ih hgaps

/-! ## The file -/

section File

variable {s s' : Applying} {target : Path}

/-- Backing a file up leaves it. -/
theorem backupFile_content (hrun : backupFile target s = (.ok (), s')) :
    s'.disk.content target = s.disk.content target := by
  rcases Prog.whenever_cases hrun with ⟨_, hrun⟩ | ⟨_, _, rfl⟩
  · obtain ⟨_, s₁, hcopy, hrun⟩ := Prog.bind_ok.mp hrun
    cases hrun
    rcases Prog.whenever_cases hcopy with ⟨_, hcopy⟩ | ⟨_, _, rfl⟩
    · obtain ⟨d, hd, rfl⟩ := onFiles_cases hcopy
      rcases copy2_cases target (backupPath target) s.disk with ⟨b, hp, hcne, _, hok⟩ | ⟨e, herr⟩
      · rw [hok] at hd
        cases hd
        show (s.disk.put _ b hp).content target = _
        rw [Disk.content_put, if_neg (Ne.symm hcne)]
      · rw [herr] at hd
        cases hd
    · rfl
  · rfl

/-- What the new lines are made of. -/
theorem patchedLines_ok {hunks : List HunkPatch} {newLines : List Text} {text : Text}
    (hcontent : s.disk.content target = some (encodeUtf8 text))
    (hrun : patchedLines target hunks s = (.ok newLines, s')) :
    applyHunks (splitlines text) hunks = .ok newLines ∧
      s'.disk.content target = some (encodeUtf8 text) := by
  rcases Prog.ensure_bind hrun with ⟨_, he, _⟩ | ⟨hfile, hrun⟩
  · cases he
  obtain ⟨_, s₁, hbackup, hrun⟩ := Prog.bind_ok.mp hrun
  have hcontent₁ := (backupFile_content hbackup).trans hcontent
  rw [onFiles, readText, Prog.zoom_read] at hrun
  rcases Prog.read_bind hrun with ⟨e, _, he, _⟩ | ⟨read, hread, hrun⟩
  · cases he
  obtain ⟨read', hread', rfl⟩ := readTextOf_ok.mp hread
  obtain rfl : read' = text :=
    encodeUtf8_injective (Option.some.inj (hread'.symm.trans hcontent₁))
  rw [splitlines_translateNewlines] at hrun
  obtain ⟨hlines, rfl⟩ := Prod.mk.inj hrun
  exact ⟨hlines, hcontent₁⟩

/-- Lines that are written are there. -/
theorem writeLines_content {lines : List Text}
    (hrun : onFiles (writeLines target lines) s = (.ok (), s')) :
    s'.disk.content target = some (encodeUtf8 (linesText lines)) := by
  obtain ⟨d, hd, rfl⟩ := onFiles_cases hrun
  rcases writeBytes_cases target (encodeUtf8 (linesText lines)) s.disk with
    ⟨hp, hok⟩ | ⟨_, e, herr⟩
  · rw [writeLines, writeText, hok] at hd
    cases hd
    show (s.disk.put _ _ hp).content target = _
    rw [Disk.content_put, if_pos rfl]
  · rw [writeLines, writeText, herr] at hd
    cases hd

theorem writePatched_content {old : Path} {lines : List Text}
    (hrun : writePatched old target lines s = (.ok (), s')) :
    s'.disk.content target = some (encodeUtf8 (linesText lines)) := by
  unfold writePatched at hrun
  split at hrun
  · exact writeLines_content hrun
  · obtain ⟨_, _, _, hrun⟩ := Prog.bind_ok.mp hrun
    obtain ⟨_, _, _, hrun⟩ := Prog.bind_ok.mp hrun
    obtain ⟨_, _, _, hrun⟩ := Prog.bind_ok.mp hrun
    exact writeLines_content hrun

end File

/-- The file after the patch, where it leads; nothing after a deletion. -/
def fileAfter (root : Path) (patch : FilePatch) (d : FS) : Option Bytes :=
  match patchTarget root patch.newPath with
  | .ok (some target) => d.content target
  | _ => none

theorem patchTarget_none {root : Path} {path : Text} :
    patchTarget root path = .ok none ↔ path = devNull := by
  unfold patchTarget
  split
  next h => exact iff_of_true rfl h
  next h =>
    refine iff_of_false (fun he => ?_) h
    cases hv : validate root path with
    | error e =>
      rw [hv] at he
      cases he
    | ok t =>
      rw [hv] at he
      cases he

/-- **What a patch leaves of the bytes of a file**: a patch that is parsed and applied keeps
the bytes outside the blocks of its hunks exactly if every line there ends in a plain
newline, up to a last one without any that a hunk comes after; one that deletes the file, if
there is nothing outside. -/
theorem patch_keeps_rest_iff (root : Path) (diffText : Text) (patches : List FilePatch)
    (patch : FilePatch) (s s' : Applying) (target : Path) (text : Text)
    (hparse : parseFilePatches root diffText = .ok patches) (hpatch : patch ∈ patches)
    (htarget : patchTarget root patch.oldPath = .ok (some target))
    (hcontent : s.disk.content target = some (encodeUtf8 text))
    (hrun : applyFilePatch root patch s = (.ok (), s')) :
    ∃ gaps rest, outside text patch.hunks = some (gaps, rest) ∧
      (KeepsRest gaps rest text (fileAfter root patch s'.disk) ↔
        if patch.isDelete then NothingOutside gaps rest else EndedPlainly gaps rest) := by
  have hplain := plain_of_parse hparse patch hpatch
  unfold applyFilePatch at hrun
  rw [htarget] at hrun
  rcases Prog.ofExcept_bind hrun with ⟨e, he, _⟩ | ⟨_, hold, hrun⟩
  · cases he
  cases hold
  rcases Prog.ofExcept_bind hrun with ⟨e, _, he, _⟩ | ⟨newTarget, hnew, hrun⟩
  · cases he
  cases newTarget with
  | none =>
    dsimp only at hrun
    obtain ⟨newLines, s₁, hlines, hrun⟩ := Prog.bind_ok.mp hrun
    obtain ⟨gaps, rest, hkept, _, hdeleted⟩ :=
      keeps_iff hplain (patchedLines_ok hcontent hlines).1
    have hdelete : patch.isDelete = true := beq_iff_eq.mpr (patchTarget_none.mp hnew)
    refine ⟨gaps, rest, hkept, ?_⟩
    unfold fileAfter
    rw [hnew, if_pos hdelete]
    exact hdeleted
  | some newTarget =>
    dsimp only at hrun
    obtain ⟨newLines, s₁, hlines, hrun⟩ := Prog.bind_ok.mp hrun
    obtain ⟨gaps, rest, hkept, hwritten, _⟩ :=
      keeps_iff hplain (patchedLines_ok hcontent hlines).1
    have hdelete : ¬ patch.isDelete = true := fun h => by
      rw [patchTarget_none.mpr (beq_iff_eq.mp h)] at hnew
      cases hnew
    refine ⟨gaps, rest, hkept, ?_⟩
    unfold fileAfter
    rw [hnew, if_neg hdelete]
    dsimp only
    rw [writePatched_content hrun]
    exact hwritten

/-- The second line of a file is changed. -/
def secondChanged : Text := "--- a/f\n+++ b/f\n@@ -2 +2 @@\n-b\n+c\n".toList

def secondPatch : FilePatch := ⟨"f".toList, "f".toList, [⟨2, 1, 2, 1, ["-b".toList, "+c".toList]⟩]⟩

/-- A workspace with one file. -/
def withFile (text : String) : Applying := ⟨(World.ofFiles [("f", text)]).disk, [], []⟩

def secondApplied (text : String) : Applying :=
  (applyFilePatch ["ws".toList] secondPatch (withFile text)).2

theorem patch_keeps_rest_plain : ∃ gaps rest,
    outside "a\nb\n".toList secondPatch.hunks = some (gaps, rest) ∧
      (KeepsRest gaps rest "a\nb\n".toList
          (fileAfter ["ws".toList] secondPatch (secondApplied "a\nb\n").disk) ↔
        if secondPatch.isDelete then NothingOutside gaps rest else EndedPlainly gaps rest) :=
  patch_keeps_rest_iff ["ws".toList] secondChanged [secondPatch] secondPatch (withFile "a\nb\n")
    (secondApplied "a\nb\n") ["ws".toList, "f".toList] "a\nb\n".toList (by decide)
    List.mem_cons_self (by decide) (by decide)
    (Prod.ext (by decide) rfl)

/-- A carriage return outside is lost. -/
theorem terminator_lost : ¬ ∀ (root : Path) (diffText : Text) (patches : List FilePatch)
    (patch : FilePatch) (s s' : Applying) (target : Path) (text : Text),
    parseFilePatches root diffText = .ok patches → patch ∈ patches →
    patchTarget root patch.oldPath = .ok (some target) →
    s.disk.content target = some (encodeUtf8 text) →
    applyFilePatch root patch s = (.ok (), s') →
    ∃ gaps rest, outside text patch.hunks = some (gaps, rest) ∧
      KeepsRest gaps rest text (fileAfter root patch s'.disk) := by
  intro hall
  obtain ⟨gaps, rest, houtside, cut, hbefore, _, hafter⟩ := hall ["ws".toList] secondChanged
    [secondPatch] secondPatch (withFile "a\r\nb\n") (secondApplied "a\r\nb\n")
    ["ws".toList, "f".toList] "a\r\nb\n".toList (by decide) List.mem_cons_self
    (by decide) (by decide) (Prod.ext (by decide) rfl)
  have hkept : outside "a\r\nb\n".toList secondPatch.hunks =
      some ([[⟨['a'], ['\r', '\n']⟩]], []) := by decide
  have hfile : (fileAfter ["ws".toList] secondPatch (secondApplied "a\r\nb\n").disk).getD [] =
      encodeUtf8 "a\nc\n".toList := by decide
  rw [hkept] at houtside
  cases houtside
  rw [hfile] at hafter
  have htarget := encodeUtf8_injective hafter
  cases cut with
  | nil => cases hbefore
  | cons p cut =>
    have hfirst : p.before = ['a', '\r', '\n'] := (List.cons.inj hbefore).1
    rw [Piece.target_cons, hfirst] at htarget
    have hsecond : some '\n' = some '\r' := congrArg (fun t : Text => t.tail.head?) htarget
    exact absurd hsecond (by decide)

end Shamsu.Patch
