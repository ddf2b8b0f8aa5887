import Shamsu.Chat.Reads

/-!
# What a read delivers

The rows of a result are lines of the file (`mem_shownRows_range`,
`fileLines_whole`), and the loop's notes of a read depend on few of its fields:
`noted_spec` and `read_tool` say on which, `read_quiet` covers the answers
without content.
-/

namespace Shamsu.Chat

open Shamsu.Lib Shamsu.Py Shamsu.Safety Shamsu.Tools

/-! ## What the rows are -/

theorem rowsOf_of_not_mem {line : Text} (h : '\n' ∉ line) : rowsOf line = [line] := by
  induction line with
  | nil => rfl
  | cons c line ih =>
    rw [List.mem_cons, not_or] at h
    rw [rowsOf, if_neg fun hc => h.1 hc.symm, ih h.2]

theorem rowsOf_append_cons {line : Text} (h : '\n' ∉ line) (rest : Text) :
    rowsOf (line ++ '\n' :: rest) = line :: rowsOf rest := by
  induction line with
  | nil => rw [List.nil_append, rowsOf, if_pos rfl]
  | cons c line ih =>
    rw [List.mem_cons, not_or] at h
    rw [List.cons_append, rowsOf, if_neg fun hc => h.1 hc.symm, ih h.2]

/-- Lines joined by newlines are the rows of the text. -/
theorem rowsOf_join : ∀ {lines : List Text}, lines ≠ [] → (∀ line ∈ lines, '\n' ∉ line) →
    rowsOf (join '\n' lines) = lines
  | [], h, _ => absurd rfl h
  | [line], _, h => by rw [join_singleton, rowsOf_of_not_mem (h line List.mem_cons_self)]
  | a :: b :: lines, _, h => by
    have ih := rowsOf_join (List.cons_ne_nil b lines) fun l hl => h l (List.mem_cons_of_mem _ hl)
    rw [join_cons_cons, rowsOf_append_cons (h a List.mem_cons_self), ih]

theorem mem_numbered {lines : List Text} {n i : Nat} {x : Text} :
    (i, x) ∈ numbered n lines ↔ n ≤ i ∧ lines[i - n]? = some x := by
  induction lines generalizing n with
  | nil => simp [numbered]
  | cons line lines ih =>
    rw [numbered, List.mem_cons, ih, Prod.mk.injEq]
    constructor
    · intro hcase
      rcases hcase with ⟨rfl, rfl⟩ | ⟨hi, hx⟩
      · exact ⟨le_refl _, by simp⟩
      · refine ⟨by omega, ?_⟩
        rwa [show i - n = (i - (n + 1)) + 1 by omega, List.getElem?_cons_succ]
    · intro hsome
      obtain ⟨hi, hx⟩ := hsome
      by_cases h : i = n
      · subst h
        rw [Nat.sub_self, List.getElem?_cons_zero] at hx
        exact .inl ⟨rfl, (Option.some.inj hx).symm⟩
      · rw [show i - n = (i - (n + 1)) + 1 by omega, List.getElem?_cons_succ] at hx
        exact .inr ⟨by omega, hx⟩

/-- A body the tool did not have to cut is all from the file. -/
theorem uncut_cutContent {text : Text}
    (h : (AgentTools.cutContent text).length ≤ AgentTools.maxReadChars) :
    uncut (AgentTools.cutContent text) = text ∧ text.length ≤ AgentTools.maxReadChars := by
  unfold AgentTools.cutContent at h ⊢
  split
  next hlong =>
    rw [if_pos hlong, List.length_append, List.length_take] at h
    have hpos : 0 < (s!"\n... [truncated {text.length - AgentTools.maxReadChars} chars]").toList.length := by
      rw [String.toList_append, List.length_append, String.toList_append, List.length_append]
      have : 0 < (toString "\n... [truncated ").toList.length := by decide
      omega
    omega
  next hshort => exact ⟨List.take_of_length_le (by omega), by omega⟩

/-! ## What the loop leaves of a result -/

/-- The answer is about the same read. -/
structure Answer.About (a : Answer) (result : ToolResult) : Prop where
  ok : a.result.ok = result.ok
  resolvedName : a.result.resolvedName = result.resolvedName
  startLine : a.result.startLine = result.startLine
  endLine : a.result.endLine = result.endLine
  totalLines : a.result.totalLines = result.totalLines
  file : a.result.content.map Prod.fst = result.content.map Prod.fst

/-- An answer about a read with content has content of that file. -/
theorem Answer.About.content {a : Answer} {result : ToolResult} (h : a.About result) {file : Path}
    {body : Text} (hcontent : result.content = some (file, body)) :
    ∃ text, a.result.content = some (file, text) := by
  have hfile := h.file
  rw [hcontent] at hfile
  cases ha : a.result.content with
  | none => rw [ha] at hfile; cases hfile
  | some c =>
    rw [ha] at hfile
    exact ⟨c.2, congrArg some (Prod.ext (Option.some.inj hfile) rfl)⟩

theorem Answer.About.noContent {a : Answer} {result : ToolResult} (h : a.About result)
    (hcontent : result.content = none) : a.result.content = none := by
  have hfile := h.file
  rw [hcontent, Option.map_none, Option.map_eq_none_iff] at hfile
  exact hfile

theorem Answer.About.name {a : Answer} {result : ToolResult} (h : a.About result)
    (args : ReadArgs) : a.name args = ({ result } : Answer).name args := by
  simp only [Answer.name, h.resolvedName]

namespace Reader

variable {r : Reader}

/-- A body is handed on, or the answer is marked as a part. -/
theorem outlineInsteadOfBody_cases (args : ReadArgs) (result : ToolResult) :
    (r.outlineInsteadOfBody args result).About result ∧
      (r.outlineInsteadOfBody args result).unchanged = false ∧
      (r.outlineInsteadOfBody args result).alreadySent = false ∧
      ((r.outlineInsteadOfBody args result).outlined = false
          ∧ (r.outlineInsteadOfBody args result).headAndTail = false
          ∧ (r.outlineInsteadOfBody args result).result.truncated = result.truncated
          ∧ (r.outlineInsteadOfBody args result).result.content = result.content
        ∨ (r.outlineInsteadOfBody args result).result.truncated = true) := by
  have hplain : ({ result } : Answer).About result := ⟨rfl, rfl, rfl, rfl, rfl, rfl⟩
  have hfile (shown : Text) :
      (result.content.map fun c => (c.1, shown)).map Prod.fst = result.content.map Prod.fst := by
    cases result.content <;> rfl
  unfold outlineInsteadOfBody
  dsimp only
  split
  · exact ⟨hplain, rfl, rfl, .inl ⟨rfl, rfl, rfl, rfl⟩⟩
  · split
    · exact ⟨hplain, rfl, rfl, .inl ⟨rfl, rfl, rfl, rfl⟩⟩
    · split
      · unfold headAndTail
        dsimp only
        split
        · exact ⟨⟨rfl, rfl, rfl, rfl, rfl, rfl⟩, rfl, rfl, .inl ⟨rfl, rfl, rfl, rfl⟩⟩
        · exact ⟨⟨rfl, rfl, rfl, rfl, rfl, hfile _⟩, rfl, rfl, .inr rfl⟩
      · split
        · exact ⟨hplain, rfl, rfl, .inl ⟨rfl, rfl, rfl, rfl⟩⟩
        · exact ⟨⟨rfl, rfl, rfl, rfl, rfl, hfile _⟩, rfl, rfl, .inr rfl⟩

theorem toolResult_reads (s : Session) (args : ReadArgs) :
    (r.tools s.workspace).Reads (r.toolResult s args) := by
  unfold toolResult
  split
  next result h => exact AgentTools.readFile_reads h
  next => exact .inl ⟨rfl, rfl⟩

/-- The lines of a range, with their numbers. -/
theorem mem_numbered_range {lines : List Text} {start stop i : Nat} {x : Text} (h1 : 1 ≤ start) :
    (i, x) ∈ numbered start ((lines.take stop).drop (start - 1))
      ↔ start ≤ i ∧ i ≤ stop ∧ lines[i - 1]? = some x := by
  rw [mem_numbered, List.getElem?_drop, List.getElem?_take]
  constructor
  · intro h
    obtain ⟨hi, hx⟩ := h
    rw [show start - 1 + (i - start) = i - 1 by omega] at hx
    split at hx
    · exact ⟨hi, by omega, hx⟩
    · cases hx
  · intro h
    obtain ⟨hi, hstop, hx⟩ := h
    refine ⟨hi, ?_⟩
    rw [show start - 1 + (i - start) = i - 1 by omega, if_pos (by omega), hx]

/-- A read of `file` that comes as the loop takes it. -/
structure ReadAsIs (r : Reader) (result : ToolResult) (file : Path) (body : Text) : Prop where
  /-- Documents, and no other files, are read as documents. -/
  asNamed : r.casing.lower (suffixOf file.name) ∈ AgentTools.documentExtensions
    ↔ result.totalLines = none
  /-- Lines that were asked for, and documents, come uncut. -/
  fits : result.startLine ≠ none ∨ result.totalLines = none →
    body.length ≤ AgentTools.maxReadChars

section

variable {ws : Workspace} {result : ToolResult} {file : Path} {body : Text}

/-- The lines of a file that is read as its name says. -/
theorem fileLines_text {bytes : Bytes} (hcontent : ws.disk.content file = some bytes)
    (hc : r.ReadAsIs result file body)
    (htotal : result.totalLines ≠ none) :
    r.fileLines ws file = splitlines (readReplace bytes) := by
  have hdoc : r.casing.lower (suffixOf file.name) ∉ AgentTools.documentExtensions :=
    fun h => htotal (hc.asNamed.mp h)
  simp only [fileLines, hcontent, Option.map_some, Option.getD_some, textOf, if_neg hdoc]

theorem fileLines_document {bytes : Bytes} {text : Text}
    (hcontent : ws.disk.content file = some bytes)
    (hextracted : r.documentText bytes = .ok text)
    (hc : r.ReadAsIs result file body)
    (htotal : result.totalLines = none) :
    r.fileLines ws file = splitlines text := by
  have hdoc := hc.asNamed.mpr htotal
  simp only [fileLines, hcontent, Option.map_some, Option.getD_some, textOf, if_pos hdoc,
    hextracted, Except.toOption]

/-- A body that was neither cut nor marked is the whole file. -/
theorem fileLines_whole (hread : (r.tools ws).ReadOf file body result)
    (hc : r.ReadAsIs result file body)
    (hstart : result.startLine = none) (htrunc : result.truncated = false) :
    r.fileLines ws file = splitlines (uncut body) := by
  cases hread with
  | document bytes text hcontent hextracted hbody _ _ htotal _ =>
    have hlen := hc.fits (.inr htotal)
    rw [hbody] at hlen ⊢
    rw [(uncut_cutContent hlen).1]
    exact fileLines_document hcontent hextracted hc htotal
  | text bytes hcontent hbody _ _ htotal ht =>
    rw [ht, decide_eq_false_iff_not] at htrunc
    have hcut : AgentTools.cutContent (readReplace bytes) = readReplace bytes := if_neg htrunc
    have hlen : (AgentTools.cutContent (readReplace bytes)).length ≤ AgentTools.maxReadChars := by
      rw [hcut]
      exact Nat.le_of_not_lt htrunc
    rw [hbody, (uncut_cutContent hlen).1]
    exact fileLines_text hcontent hc (by rw [htotal]; exact Option.some_ne_none _)
  | range _ _ _ _ _ h => rw [hstart] at h; cases h

/-- What a range shows of the file is the lines it was asked for. -/
theorem mem_shownRows_range (hread : (r.tools ws).ReadOf file body result)
    (hc : r.ReadAsIs result file body) {start stop : Int}
    (hstart : result.startLine = some start) (hstop : result.endLine = some stop) {i : Nat}
    {x : Text} :
    (i, x) ∈ shownRows { result } body .whole
      ↔ start ≤ i ∧ (i : Int) ≤ stop ∧
        (i, x) ∈ numbered 1 (r.fileLines ws file) := by
  cases hread with
  | document _ _ _ _ _ h => rw [hstart] at h; cases h
  | text _ _ _ h => rw [hstart] at h; cases h
  | range bytes first last hcontent hbody hfirst hlast htotal h1 hle hlen =>
    obtain rfl : start = first := Option.some.inj (hstart.symm.trans hfirst)
    obtain rfl : stop = last := Option.some.inj (hstop.symm.trans hlast)
    have hfits := hc.fits (.inl (by rw [hstart]; exact Option.some_ne_none _))
    have hlines : r.fileLines ws file = splitlines (readReplace bytes) :=
      fileLines_text hcontent hc (by rw [htotal]; exact Option.some_ne_none _)
    rw [hbody] at hfits
    have hne : ((splitlines (readReplace bytes)).take last).drop (first - 1) ≠ [] := by
      rw [← List.length_pos_iff_ne_nil, List.length_drop, List.length_take]
      omega
    have hnl : ∀ line ∈ ((splitlines (readReplace bytes)).take last).drop (first - 1),
        '\n' ∉ line :=
      fun line hl => not_mem_splitlines (List.mem_of_mem_take (List.mem_of_mem_drop hl))
    have hrows : shownRows { result } body .whole
        = numbered first (((splitlines (readReplace bytes)).take last).drop (first - 1)) := by
      simp only [shownRows, Bool.or_self, Bool.false_eq_true, if_false, hfirst, hbody,
        (uncut_cutContent hfits).1, rowsOf_join hne hnl, Int.toNat_natCast]
    rw [hrows, mem_numbered_range h1, hlines, mem_numbered]
    constructor
    · intro hsome
      obtain ⟨hi, hs, hx⟩ := hsome
      exact ⟨by omega, by omega, by omega, hx⟩
    · intro hsome
      obtain ⟨hi, hs, _, hx⟩ := hsome
      exact ⟨by omega, by omega, hx⟩

theorem totalLines_range (hread : (r.tools ws).ReadOf file body result)
    (hc : r.ReadAsIs result file body) {start : Int} (hstart : result.startLine = some start) :
    result.totalLines = some (r.fileLines ws file).length := by
  cases hread with
  | document _ _ _ _ _ h => rw [hstart] at h; cases h
  | text _ _ _ h => rw [hstart] at h; cases h
  | range bytes first last hcontent hbody hfirst hlast htotal h1 hle hlen =>
    have hlines : r.fileLines ws file = splitlines (readReplace bytes) :=
      fileLines_text hcontent hc (by rw [htotal]; exact Option.some_ne_none _)
    rw [hlines, htotal]

theorem exists_shown_of_range (hread : (r.tools ws).ReadOf file body result)
    (hc : r.ReadAsIs result file body) {start stop i : Int}
    (hstart : result.startLine = some start) (hstop : result.endLine = some stop)
    (h₁ : start ≤ i) (h₂ : i ≤ stop) : ∃ x, (i.toNat, x) ∈ shownRows { result } body .whole := by
  have hbounds : 1 ≤ start ∧ stop ≤ (r.fileLines ws file).length := by
    cases hread with
    | document _ _ _ _ _ h => rw [hstart] at h; cases h
    | text _ _ _ h => rw [hstart] at h; cases h
    | range bytes first last hcontent hbody hfirst hlast htotal h1 hle hlen =>
      obtain rfl : start = first := Option.some.inj (hstart.symm.trans hfirst)
      obtain rfl : stop = last := Option.some.inj (hstop.symm.trans hlast)
      have hlines : r.fileLines ws file = splitlines (readReplace bytes) :=
        fileLines_text hcontent hc (by rw [htotal]; exact Option.some_ne_none _)
      rw [hlines]
      omega
  have hlt : i.toNat - 1 < (r.fileLines ws file).length := by omega
  refine ⟨(r.fileLines ws file)[i.toNat - 1], ?_⟩
  rw [mem_shownRows_range hread hc hstart hstop, mem_numbered]
  exact ⟨by omega, by omega, by omega, List.getElem?_eq_getElem hlt⟩

end

/-! ## What a read leaves behind -/

/-- The guard's notes depend on the flags of an answer only. -/
theorem notePartialRead_congr (s s' : Session) (args : ReadArgs) {a b : Answer}
    (hp : s'.partialReads = s.partialReads) (hs : s'.seenRanges = s.seenRanges)
    (hab : b.About a.result) (ht : b.result.truncated = a.result.truncated) :
    (r.notePartialRead s' args b).partialReads = (r.notePartialRead s args a).partialReads
      ∧ (r.notePartialRead s' args b).seenRanges = (r.notePartialRead s args a).seenRanges
      ∧ (r.notePartialRead s' args b).sent = s'.sent
      ∧ (r.notePartialRead s' args b).workspace = s'.workspace := by
  have hname : b.name args = a.name args := by simp only [Answer.name, hab.resolvedName]
  unfold notePartialRead
  simp only [hname, hab.ok, hab.startLine, hab.endLine, hab.totalLines, ht, hp, hs]
  split
  · exact ⟨hp, hs, rfl, rfl⟩
  · split
    · split <;> exact ⟨rfl, rfl, rfl, rfl⟩
    · split <;> exact ⟨rfl, rfl, rfl, rfl⟩

theorem recordRangeSent_keeps (s : Session) (args : ReadArgs) (a : Answer) :
    (r.recordRangeSent s args a).partialReads = s.partialReads
      ∧ (r.recordRangeSent s args a).seenRanges = s.seenRanges
      ∧ (r.recordRangeSent s args a).sent = s.sent
      ∧ (r.recordRangeSent s args a).workspace = s.workspace := by
  unfold recordRangeSent
  split
  · exact ⟨rfl, rfl, rfl, rfl⟩
  · split <;> exact ⟨rfl, rfl, rfl, rfl⟩

/-- The answer is the body, or "unchanged". -/
theorem noteUnchanged_cases (s : Session) (args : ReadArgs) (a : Answer) :
    (∃ digests, r.noteUnchangedSinceLastRead s args a = (a, { s with readDigests := digests }))
      ∨ args.asksForPart = false
        ∧ s.readDigests (r.casing.lower (a.name args)) = some (r.sha256 (encodeUtf8 a.body))
        ∧ ∃ b : Answer, r.noteUnchangedSinceLastRead s args a = (b, s) ∧ b.About a.result
          ∧ b.unchanged = true ∧ b.result.truncated = a.result.truncated := by
  unfold noteUnchangedSinceLastRead
  dsimp only
  split
  · exact .inl ⟨s.readDigests, rfl⟩
  · rename_i hasked
    have hpart : args.asksForPart = false := by
      cases hp : args.asksForPart with
      | false => rfl
      | true => exact absurd (.inr (.inl hp)) hasked
    split
    next hd =>
      have hfile : (a.result.content.map fun c => (c.1, ([] : Text))).map Prod.fst
          = a.result.content.map Prod.fst := by cases a.result.content <;> rfl
      exact .inr ⟨hpart, hd, _, rfl, ⟨rfl, rfl, rfl, rfl, rfl, hfile⟩, rfl, rfl⟩
    next => exact .inl ⟨_, rfl⟩

theorem noted_spec (s : Session) (args : ReadArgs) (result : ToolResult) :
    (r.noted s args result).2.partialReads
        = (r.notePartialRead s args (r.outlineInsteadOfBody args result)).partialReads
      ∧ (r.noted s args result).2.seenRanges
        = (r.notePartialRead s args (r.outlineInsteadOfBody args result)).seenRanges
      ∧ (r.noted s args result).2.sent = s.sent
      ∧ (r.noted s args result).2.workspace = s.workspace
      ∧ (r.noted s args result).1.About result
      ∧ ((r.noted s args result).1 = r.outlineInsteadOfBody args result
        ∨ (r.noted s args result).1.unchanged = true ∧ args.asksForPart = false
          ∧ s.readDigests (r.casing.lower (({ result } : Answer).name args))
            = some (r.sha256 (encodeUtf8 (r.outlineInsteadOfBody args result).body))) := by
  have habout := (outlineInsteadOfBody_cases (r := r) args result).1
  unfold noted
  generalize r.outlineInsteadOfBody args result = a at habout ⊢
  have hname := habout.name args
  have hself : a.About a.result := ⟨rfl, rfl, rfl, rfl, rfl, rfl⟩
  rcases noteUnchanged_cases (r := r) s args a with ⟨digests, h⟩ | ⟨hpart, hd, b, h, hb, hu, ht⟩
  · obtain ⟨hp, hs, hsent, hws⟩ := notePartialRead_congr (r := r) s
      { s with readDigests := digests } args rfl rfl hself rfl
    obtain ⟨hp', hs', hsent', hws'⟩ := recordRangeSent_keeps (r := r)
      (r.notePartialRead { s with readDigests := digests } args a) args a
    rw [h]
    exact ⟨hp'.trans hp, hs'.trans hs, hsent'.trans hsent, hws'.trans hws, habout, .inl rfl⟩
  · obtain ⟨hp, hs, hsent, hws⟩ := notePartialRead_congr (r := r) s s args rfl rfl hb ht
    obtain ⟨hp', hs', hsent', hws'⟩ := recordRangeSent_keeps (r := r)
      (r.notePartialRead s args b) args b
    rw [h]
    refine ⟨hp'.trans hp, hs'.trans hs, hsent'.trans hsent, hws'.trans hws, ?_, .inr ⟨hu, hpart, ?_⟩⟩
    · exact ⟨hb.ok.trans habout.ok, hb.resolvedName.trans habout.resolvedName,
        hb.startLine.trans habout.startLine, hb.endLine.trans habout.endLine,
        hb.totalLines.trans habout.totalLines, hb.file.trans habout.file⟩
    · rw [← hname, hd]

/-- A range is answered as the tool has it. -/
theorem noted_of_part {s : Session} {args : ReadArgs} {result : ToolResult}
    (hpart : args.asksForPart = true) : (r.noted s args result).1 = { result } := by
  obtain ⟨_, _, _, _, _, hanswer⟩ := noted_spec (r := r) s args result
  rcases hanswer with ha | ⟨_, hno, _⟩
  · rw [ha]
    unfold outlineInsteadOfBody
    rw [if_pos (.inr (.inl hpart))]
  · rw [hpart] at hno
    cases hno

theorem noteClipped_keeps (s : Session) (args : ReadArgs) (a : Answer) (kept : Kept) :
    (r.noteClipped s args a kept).seenRanges = s.seenRanges
      ∧ (r.noteClipped s args a kept).sent = s.sent
      ∧ (r.noteClipped s args a kept).workspace = s.workspace
      ∧ ∀ key ∈ s.partialReads, key ∈ (r.noteClipped s args a kept).partialReads := by
  unfold noteClipped
  split
  · split
    · exact ⟨rfl, rfl, rfl, fun _ h => h⟩
    · exact ⟨rfl, rfl, rfl, fun _ h => List.mem_cons_of_mem _ h⟩
  · exact ⟨rfl, rfl, rfl, fun _ h => h⟩

theorem execute_cases (s : Session) (args : ReadArgs) :
    r.execute s args = r.noted s args (r.toolResult s args) ∨
      (r.execute s args).1.result.content = none
        ∧ (r.execute s args).2.seenRanges = s.seenRanges
        ∧ (r.execute s args).2.partialReads = s.partialReads
        ∧ (r.execute s args).2.sent = s.sent := by
  unfold execute
  split
  next withdrawn hw =>
    unfold readIsWithdrawn at hw
    dsimp only at hw
    split at hw
    · obtain rfl := Option.some.inj hw
      exact .inr ⟨rfl, rfl, rfl, rfl⟩
    · cases hw
  next =>
    split
    next already ha =>
      unfold alreadySentThisRange at ha
      split at ha
      · dsimp only at ha
        split at ha
        · cases ha
        · obtain rfl := Option.some.inj ha
          exact .inr ⟨rfl, rfl, rfl, rfl⟩
      · cases ha
    next => exact .inl rfl

/-- A read that has no content tells nothing and forgets nothing. -/
theorem read_quiet {s : Session} {args : ReadArgs} (composite : Bool) (kept : Kept)
    (h : (r.execute s args).1.result.content = none)
    (hseen : (r.execute s args).2.seenRanges = s.seenRanges)
    (hflags : (r.execute s args).2.partialReads = s.partialReads)
    (hsent : (r.execute s args).2.sent = s.sent) :
    (r.read s args composite kept).1.result.content = none
      ∧ (r.read s args composite kept).2.seenRanges = s.seenRanges
      ∧ (r.read s args composite kept).2.sent = s.sent
      ∧ ∀ key ∈ s.partialReads, key ∈ (r.read s args composite kept).2.partialReads := by
  unfold read
  generalize r.execute s args = out at h hseen hflags hsent ⊢
  obtain ⟨a, s'⟩ := out
  dsimp only at h hseen hflags hsent ⊢
  have happ (s : Session) (body : Text) : appendTool s a body kept = s := by
    unfold appendTool
    rw [h]
    split <;> simp_all
  rw [happ]
  obtain ⟨h₁, h₂, _, h₃⟩ := noteClipped_keeps (r := r) s' args a kept
  cases composite with
  | true => exact ⟨h, hseen, hsent, fun key hk => hflags ▸ hk⟩
  | false => exact ⟨h, h₁.trans hseen, h₂.trans hsent, fun key hk => h₃ key (hflags ▸ hk)⟩

/-- The session after a read with content. -/
theorem read_tool {s : Session} {args : ReadArgs} (composite : Bool) (kept : Kept) {file : Path}
    {text : Text} (hx : r.execute s args = r.noted s args (r.toolResult s args))
    (hok : (r.noted s args (r.toolResult s args)).1.result.ok = true)
    (hc : (r.noted s args (r.toolResult s args)).1.result.content = some (file, text)) :
    (r.read s args composite kept).1 = (r.noted s args (r.toolResult s args)).1
      ∧ (r.read s args composite kept).2.seenRanges
        = (r.noted s args (r.toolResult s args)).2.seenRanges
      ∧ (r.read s args composite kept).2.sent = (r.noted s args (r.toolResult s args)).2.sent
        ++ [Sent.mk file (shownRows (r.noted s args (r.toolResult s args)).1
          ({ result := r.toolResult s args } : Answer).body kept) false]
      ∧ (r.read s args composite kept).2.workspace
        = (r.noted s args (r.toolResult s args)).2.workspace
      ∧ (∀ key ∈ (r.noted s args (r.toolResult s args)).2.partialReads,
        key ∈ (r.read s args composite kept).2.partialReads)
      ∧ (strip ((r.noted s args (r.toolResult s args)).1.name args) ≠ [] →
        composite = false → (∃ n, kept = .rows n) →
        r.keyOf ((r.noted s args (r.toolResult s args)).1.name args)
          ∈ (r.read s args composite kept).2.partialReads) := by
  unfold read
  rw [hx]
  generalize hout : r.noted s args (r.toolResult s args) = out at hok hc ⊢
  obtain ⟨a, s'⟩ := out
  dsimp only at hok hc ⊢
  have happ (s : Session) (body : Text) : appendTool s a body kept
      = { s with sent := s.sent ++ [{ file := file, rows := shownRows a body kept }] } := by
    unfold appendTool
    rw [hok, hc]
  simp only [happ]
  cases composite with
  | true => exact ⟨trivial, rfl, rfl, rfl, fun _ hk => hk, nofun⟩
  | false =>
    obtain ⟨h₁, h₂, h₃, h₄⟩ := noteClipped_keeps (r := r) s' args a kept
    refine ⟨trivial, h₁, ?_, h₃, h₄, ?_⟩
    · simp only [Bool.false_eq_true, if_false, h₂]
    · intro hname _ h
      obtain ⟨n, rfl⟩ := h
      simp only [Bool.false_eq_true, if_false, noteClipped, if_neg hname]
      exact List.mem_cons_self

/-- A reader that outlines nothing. -/
def plain : Reader where
  casing := .ascii
  allowedReadPaths := none
  documentText := fun _ => .ok []
  sha256 := id
  canOutline := fun _ => false
  renderOutline := fun _ _ _ => []

/-- A workspace with `big.py`. -/
def oneFile (text : String) (h : ∀ p ∈ (Disk.ofFiles
    [([['w'], "big.py".toList], encodeUtf8 text.toList)] : FS).support, ∀ n ∈ p, IsName n) :
    Workspace where
  disk := Disk.ofFiles [([['w'], "big.py".toList], encodeUtf8 text.toList)]
  root := [['w']]
  names := names_of_support h
  isDir_root := by rfl

def twoLines : Workspace := oneFile "a\nb\n" (by decide)

def threeLines : Workspace := oneFile "new\na\nb\n" (by decide)

end Reader

end Shamsu.Chat
