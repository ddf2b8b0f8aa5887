import Shamsu.Chat.Delivered
import Shamsu.Lib.Run

/-!
# Reads answered without content

"Unchanged since you last read it" and "you already have these lines" are to be
true: the lines they speak of, as the file now has them, stand un-elided in the
next prompt. An observer keeps what the two memories of the loop stand for
(`Prompted`): `lent` are the lines delivered by the reads whose ranges are
remembered, `whole` the body a digest was taken of, `promised` the lines that
answers have spoken of since the last prompt.

A sweep clears both memories, so what they stand for is never elided
(`Honest`). They go wrong where a file changes under remembered ranges, where a
remembered read was clipped or outlined, where a tenth of a range is missing,
where two files meet in one key, and where results are elided or left out
between an answer and the prompt it is for. `Careful` leaves these out.
-/

namespace Shamsu.Chat

open Shamsu.Lib Shamsu.Py Shamsu.Safety Shamsu.Tools

/-- A numbered line of a file. -/
abbrev FileLine := Path × Nat × Text

/-- A turn under observation. -/
structure Prompted where
  session : Session
  lent : Text → List FileLine := fun _ => []
  whole : Text → Option (Path × Text) := fun _ => none
  promised : List FileLine := []

/-- A result of the conversation that is not elided has the line. -/
def Visible (s : Session) (line : FileLine) : Prop :=
  ∃ e ∈ s.sent, e.elided = false ∧ e.file = line.1 ∧ line.2 ∈ e.rows

namespace Reader

variable (r : Reader)

/-- The lines an answer without content says the model has. -/
def vouched (s : Session) (args : ReadArgs) (a : Answer) : List FileLine :=
  match (r.toolResult s args).content with
  | none => []
  | some (file, _) =>
    let lines := (numbered 1 (r.fileLines s.workspace file)).map fun row => (file, row)
    if a.unchanged then lines
    else match a.alreadySent, a.result.startLine, a.result.endLine with
      | true, some start, some stop =>
        lines.filter fun line => start ≤ line.2.1 ∧ (line.2.1 : Int) ≤ stop
      | _, _, _ => []

/-- What the observer notes of a read. -/
def observeRead (w : Prompted) (args : ReadArgs) (composite : Bool) (kept : Kept) : Prompted :=
  let a := (r.read w.session args composite kept).1
  let s := (r.read w.session args composite kept).2
  let body := ({ result := r.toolResult w.session args } : Answer).body
  let key := r.casing.lower (a.name args)
  { session := s
    promised := w.promised ++ r.vouched w.session args a
    lent := match a.result.content, a.result.startLine with
      | some (file, _), some _ =>
        Function.update w.lent (r.keyOf (a.name args))
          (w.lent (r.keyOf (a.name args)) ++ (shownRows a body kept).map fun row => (file, row))
      | _, _ => w.lent
    whole :=
      if s.readDigests key = w.session.readDigests key then w.whole
      else match a.result.content with
        | some (file, _) =>
          Function.update w.whole key
            (if kept = .whole ∧ a.result.startLine = none ∧ a.result.truncated = false
              then some (file, body) else none)
        | none => w.whole }

/-- One step of a turn, observed. -/
def observe (w : Prompted) : Act → Prompted
  | .read args composite kept => r.observeRead w args composite kept
  | .sweep elide => { w with session := w.session.swept elide, lent := fun _ => [] }
  | .prompt _ => { w with promised := [] }
  | .message => { w with session := w.session.newMessage, lent := fun _ => [] }
  | act => { w with session := r.step w.session act }

/-- A prompt has the lines that answers have spoken of since the one before. -/
def Truthful (w : Prompted) : Act → Prop
  | .prompt left => ∀ line ∈ w.promised, ∃ e ∈ w.session.sent.zipIdx,
      e.1.elided = false ∧ left e.2 = false ∧ e.1.file = line.1 ∧ line.2 ∈ e.1.rows
  | _ => True

instance (w : Prompted) : ∀ act, Decidable (Truthful w act)
  | .prompt left => inferInstanceAs (Decidable (∀ line ∈ w.promised, ∃ e ∈ w.session.sent.zipIdx,
      e.1.elided = false ∧ left e.2 = false ∧ e.1.file = line.1 ∧ line.2 ∈ e.1.rows))
  | .read .. | .write .. | .edit .. | .other _ | .sweep _ | .message =>
    inferInstanceAs (Decidable True)

/-- A read the memories draw the right conclusions from. -/
structure Answerable (w : Prompted) (args : ReadArgs) (kept : Kept) (result : ToolResult)
    (file : Path) (body : Text) : Prop extends r.ReadAsIs result file body where
  /-- Lines that are read were asked for, and come in full. -/
  asked : result.startLine ≠ none → args.asksForPart = true ∧ kept = .whole
  /-- What is asked for again, if it is nearly all in remembered ranges, is all in them. -/
  covered : ∀ start stop, args.startLine = .number start → args.endLine = .number stop →
    mostlyCovered start stop (w.session.rangesSent (r.keyOf args.filepath)) = true →
    ∀ row ∈ numbered 1 (r.fileLines w.session.workspace file), start ≤ row.1 → row.1 ≤ stop →
      InRanges (w.session.rangesSent (r.keyOf args.filepath)) row.1
  /-- These were ranges of this file, and it still has the lines. -/
  fresh : ∀ start stop, args.startLine = .number start → args.endLine = .number stop →
    mostlyCovered start stop (w.session.rangesSent (r.keyOf args.filepath)) = true →
    ∀ line ∈ w.lent (r.keyOf args.filepath), line.1 = file ∧
      ∀ row ∈ numbered 1 (r.fileLines w.session.workspace file), row.1 = line.2.1 →
        row.2 = line.2.2
  /-- A file with a remembered digest is no outline, and was sent in full; its
  body is the only one with the digest. -/
  repeated : args.asksForPart = false →
    w.session.readDigests (r.casing.lower (({ result } : Answer).name args))
      = some (r.sha256 (encodeUtf8 (r.outlineInsteadOfBody args result).body)) →
    (r.outlineInsteadOfBody args result).result.truncated = false ∧
      ∃ sent, w.whole (r.casing.lower (({ result } : Answer).name args)) = some (file, sent)
        ∧ (r.sha256 (encodeUtf8 sent) = r.sha256 (encodeUtf8 body) → sent = body)

/-- The results that are dropped are of no file the answers have spoken of. -/
def Spares (w : Prompted) (drop : Nat → Bool) : Prop :=
  ∀ e ∈ w.session.sent.zipIdx, drop e.2 = true → ∀ line ∈ w.promised, e.1.file ≠ line.1

/-- A step that leaves the memories true. -/
def Sound (w : Prompted) : Act → Prop
  | .read args _ kept => ∀ file body,
    (r.toolResult w.session args).content = some (file, body) →
      r.Answerable w args kept (r.toolResult w.session args) file body
  | .sweep elide => Spares w elide
  | .prompt left => Spares w left
  | _ => True

end Reader

/-! ## The invariant -/

/-- What the memories stand for is in results that are not elided. -/
structure Honest (r : Reader) (w : Prompted) : Prop where
  covered : ∀ key i, InRanges (w.session.rangesSent key) i →
    ∃ p x, (p, i.toNat, x) ∈ w.lent key
  lent : ∀ key, ∀ line ∈ w.lent key, Visible w.session line
  whole : ∀ key digest, w.session.readDigests key = some digest → ∀ file body,
    w.whole key = some (file, body) → digest = r.sha256 (encodeUtf8 body)
      ∧ ∀ row ∈ numbered 1 (splitlines (uncut body)), Visible w.session (file, row)
  promised : ∀ line ∈ w.promised, Visible w.session line

variable {r : Reader}

theorem honest_start (ws : Workspace) : Honest r { session := { workspace := ws } } where
  covered := by
    intro key i hsome
    obtain ⟨r, hr, _⟩ := hsome
    cases hr
  lent := by intro key line h; cases h
  whole := by intro key digest h; cases h
  promised := by intro line h; cases h

theorem Visible.mono {s s' : Session} (h : ∀ e ∈ s.sent, e.elided = false →
    ∃ e' ∈ s'.sent, e'.elided = false ∧ e'.file = e.file ∧ e'.rows = e.rows) {line : FileLine}
    (hv : Visible s line) : Visible s' line := by
  obtain ⟨e, he, hel, hfile, hrow⟩ := hv
  obtain ⟨e', he', hel', hfile', hrows⟩ := h e he hel
  exact ⟨e', he', hel', hfile'.trans hfile, hrows ▸ hrow⟩

theorem Visible.append {s s' : Session} {more : List Sent} (h : s'.sent = s.sent ++ more)
    {line : FileLine} (hv : Visible s line) : Visible s' line :=
  hv.mono fun e he hel => ⟨e, by rw [h]; exact List.mem_append_left _ he, hel, rfl, rfl⟩

/-- A step that leaves the conversation and the ranges, and may forget digests. -/
theorem Honest.mono {w w' : Prompted} (h : Honest r w)
    (hranges : w'.session.rangesSent = w.session.rangesSent)
    (hdigests : ∀ key digest, w'.session.readDigests key = some digest →
      w.session.readDigests key = some digest)
    (hsent : w'.session.sent = w.session.sent) (hlent : w'.lent = w.lent)
    (hwhole : w'.whole = w.whole) (hpromised : w'.promised = w.promised) : Honest r w' := by
  have hv : ∀ {line}, Visible w.session line → Visible w'.session line :=
    fun hv => hv.append (by rw [hsent, List.append_nil])
  refine ⟨?_, ?_, ?_, ?_⟩
  · rw [hranges, hlent]
    exact h.covered
  · rw [hlent]
    exact fun key line hl => hv (h.lent key line hl)
  · rw [hwhole]
    intro key digest hd file body hw
    obtain ⟨h₁, h₂⟩ := h.whole key digest (hdigests key digest hd) file body hw
    exact ⟨h₁, fun row hrow => hv (h₂ row hrow)⟩
  · rw [hpromised]
    exact fun line hl => hv (h.promised line hl)

/-- **What was promised is in the prompt.** -/
theorem Honest.truthful {w : Prompted} (h : Honest r w) {act : Act} (hc : r.Sound w act) :
    Reader.Truthful w act := by
  cases act with
  | prompt left =>
    intro line hline
    obtain ⟨e, he, hel, hfile, hrow⟩ := h.promised line hline
    obtain ⟨n, hn⟩ := List.mem_iff_getElem?.mp he
    have hmem : (e, n) ∈ w.session.sent.zipIdx := List.mem_zipIdx_iff_getElem?.mpr hn
    refine ⟨(e, n), hmem, hel, ?_, hfile, hrow⟩
    cases hleft : left n with
    | false => rfl
    | true => exact absurd hfile (hc (e, n) hmem hleft line hline)
  | _ => trivial

/-! ## What a read does to the memories -/

namespace Reader

theorem noteClipped_memory (s : Session) (args : ReadArgs) (a : Answer) (kept : Kept) :
    (r.noteClipped s args a kept).rangesSent = s.rangesSent
      ∧ (r.noteClipped s args a kept).readDigests = s.readDigests := by
  unfold noteClipped
  split
  · split <;> exact ⟨rfl, rfl⟩
  · exact ⟨rfl, rfl⟩

theorem appendTool_memory (s : Session) (a : Answer) (body : Text) (kept : Kept) :
    (appendTool s a body kept).rangesSent = s.rangesSent
      ∧ (appendTool s a body kept).readDigests = s.readDigests := by
  unfold appendTool
  split <;> exact ⟨rfl, rfl⟩

theorem notePartialRead_memory (s : Session) (args : ReadArgs) (a : Answer) :
    (r.notePartialRead s args a).rangesSent = s.rangesSent
      ∧ (r.notePartialRead s args a).readDigests = s.readDigests := by
  unfold notePartialRead
  split
  · exact ⟨rfl, rfl⟩
  · dsimp only
    split
    · split <;> exact ⟨rfl, rfl⟩
    · split <;> exact ⟨rfl, rfl⟩

/-- The budget and the conversation leave the memories as `_execute` has them. -/
theorem read_memory (s : Session) (args : ReadArgs) (composite : Bool) (kept : Kept) :
    (r.read s args composite kept).1 = (r.execute s args).1
      ∧ (r.read s args composite kept).2.rangesSent = (r.execute s args).2.rangesSent
      ∧ (r.read s args composite kept).2.readDigests = (r.execute s args).2.readDigests := by
  unfold read
  dsimp only
  refine ⟨rfl, ?_, ?_⟩
  · rw [(appendTool_memory _ _ _ _).1]
    split
    · rfl
    · exact (noteClipped_memory _ _ _ _).1
  · rw [(appendTool_memory _ _ _ _).2]
    split
    · rfl
    · exact (noteClipped_memory _ _ _ _).2

theorem recordRangeSent_congr {s s' : Session} (args : ReadArgs) {a : Answer} {result : ToolResult}
    (hs : s'.rangesSent = s.rangesSent) (ha : a.About result) :
    (r.recordRangeSent s' args a).rangesSent = (r.recordRangeSent s args { result }).rangesSent
      ∧ (r.recordRangeSent s' args a).readDigests = s'.readDigests := by
  have hn : a.name args = ({ result } : Answer).name args := by
    simp only [Answer.name, ha.resolvedName]
  unfold recordRangeSent
  simp only [hn, ha.ok, ha.startLine, ha.endLine, hs]
  split
  · exact ⟨hs, rfl⟩
  · split
    · exact ⟨rfl, rfl⟩
    · exact ⟨hs, rfl⟩

/-- The digests after a read: as before, or with the one of the body. -/
theorem noteUnchanged_digests (s : Session) (args : ReadArgs) (a : Answer) :
    (r.noteUnchangedSinceLastRead s args a).2.rangesSent = s.rangesSent ∧
      ((r.noteUnchangedSinceLastRead s args a).2.readDigests = s.readDigests ∨
        (r.noteUnchangedSinceLastRead s args a).1 = a ∧ a.result.ok = true
          ∧ (r.noteUnchangedSinceLastRead s args a).2.readDigests
            = Function.update s.readDigests (r.casing.lower (a.name args))
              (some (r.sha256 (encodeUtf8 a.body)))) := by
  unfold noteUnchangedSinceLastRead
  dsimp only
  split
  · exact ⟨rfl, .inl rfl⟩
  · rename_i hcond
    split
    · exact ⟨rfl, .inl rfl⟩
    · exact ⟨rfl, .inr ⟨rfl, Bool.not_eq_false _ ▸ fun h => hcond (.inl h), rfl⟩⟩

theorem noted_memory (s : Session) (args : ReadArgs) (result : ToolResult) :
    (r.noted s args result).2.rangesSent = (r.recordRangeSent s args { result }).rangesSent ∧
      ((r.noted s args result).2.readDigests = s.readDigests ∨
        (r.noted s args result).1 = r.outlineInsteadOfBody args result ∧ result.ok = true
          ∧ (r.noted s args result).2.readDigests
            = Function.update s.readDigests (r.casing.lower (({ result } : Answer).name args))
              (some (r.sha256 (encodeUtf8 (r.outlineInsteadOfBody args result).body)))) := by
  have habout := (noted_spec (r := r) s args result).2.2.2.2.1
  have houtline := (outlineInsteadOfBody_cases (r := r) args result).1
  unfold noted at habout ⊢
  generalize r.outlineInsteadOfBody args result = a at habout houtline ⊢
  have hname : a.name args = ({ result } : Answer).name args := by
    simp only [Answer.name, houtline.resolvedName]
  have hmem := noteUnchanged_digests (r := r) s args a
  generalize r.noteUnchangedSinceLastRead s args a = out at habout hmem ⊢
  obtain ⟨b, s'⟩ := out
  dsimp only at habout hmem ⊢
  obtain ⟨hp₁, hp₂⟩ := notePartialRead_memory (r := r) s' args b
  obtain ⟨hr₁, hr₂⟩ := recordRangeSent_congr (r := r) args (hp₁.trans hmem.1) habout
  rw [hr₁, hr₂, hp₂]
  refine ⟨rfl, ?_⟩
  rw [← hname, ← houtline.ok]
  exact hmem.2

/-- The answers that come without the tool. -/
theorem execute_memory_cases (s : Session) (args : ReadArgs) :
    r.execute s args = r.noted s args (r.toolResult s args) ∨
      (r.execute s args).1.result.content = none
        ∧ (r.execute s args).1.unchanged = false
        ∧ (r.execute s args).2.sent = s.sent
        ∧ (r.execute s args).2.rangesSent = s.rangesSent
        ∧ (r.execute s args).2.readDigests = s.readDigests
        ∧ ((r.execute s args).1.alreadySent = false ∨ ∃ start stop,
          args.startLine = .number start ∧ args.endLine = .number stop
            ∧ (r.execute s args).1.result.startLine = some start
            ∧ (r.execute s args).1.result.endLine = some stop
            ∧ mostlyCovered start stop (s.rangesSent (r.keyOf args.filepath)) = true) := by
  unfold execute
  split
  next withdrawn hw =>
    unfold readIsWithdrawn at hw
    dsimp only at hw
    split at hw
    · obtain rfl := Option.some.inj hw
      exact .inr ⟨rfl, rfl, rfl, rfl, rfl, .inl rfl⟩
    · cases hw
  next =>
    split
    next already ha =>
      unfold alreadySentThisRange at ha
      split at ha
      next start stop hstart hstop =>
        dsimp only at ha
        split at ha
        · cases ha
        · rename_i hcond
          obtain rfl := Option.some.inj ha
          refine .inr ⟨rfl, rfl, rfl, rfl, rfl, .inr ⟨start, stop, hstart, hstop, rfl, rfl, ?_⟩⟩
          exact Bool.not_eq_false _ ▸ fun h => hcond (.inr (.inr h))
      · cases ha
    next => exact .inl rfl

theorem read_sent_quiet {s : Session} {args : ReadArgs} (composite : Bool) (kept : Kept)
    (h : (r.execute s args).1.result.content = none) :
    (r.read s args composite kept).2.sent = (r.execute s args).2.sent := by
  unfold read
  generalize r.execute s args = out at h ⊢
  obtain ⟨a, s'⟩ := out
  dsimp only at h ⊢
  have happ (s : Session) (body : Text) : appendTool s a body kept = s := by
    unfold appendTool
    rw [h]
    split <;> simp_all
  rw [happ]
  split
  · rfl
  · exact (noteClipped_keeps _ _ _ _).2.1

/-- An answer without content leaves the memories alone, and promises what the
ranges stand for. -/
theorem honest_quiet {w : Prompted} (h : Honest r w) {args : ReadArgs} {composite : Bool}
    {kept : Kept} (hnone : (r.execute w.session args).1.result.content = none)
    (hsent : (r.execute w.session args).2.sent = w.session.sent)
    (hranges : (r.execute w.session args).2.rangesSent = w.session.rangesSent)
    (hdigests : (r.execute w.session args).2.readDigests = w.session.readDigests)
    (hvouched : ∀ line ∈ r.vouched w.session args (r.execute w.session args).1,
      Visible w.session line) : Honest r (r.observeRead w args composite kept) := by
  obtain ⟨ha, hr, hd⟩ := read_memory (r := r) w.session args composite kept
  have hsent' := read_sent_quiet composite kept hnone
  have hobserve : r.observeRead w args composite kept
      = { w with
          session := (r.read w.session args composite kept).2
          promised := w.promised ++ r.vouched w.session args (r.execute w.session args).1 } := by
    unfold observeRead
    dsimp only
    rw [ha, hd, hdigests, hnone, if_pos rfl]
  have hv : ∀ {line}, Visible w.session line →
      Visible (r.read w.session args composite kept).2 line :=
    fun hv => hv.append (by rw [hsent', hsent, List.append_nil])
  rw [hobserve]
  refine ⟨?_, fun key line hl => hv (h.lent key line hl), ?_, ?_⟩
  · intro key i hi
    exact h.covered key i (by rw [← hranges, ← hr]; exact hi)
  · intro key digest hdig file body hw
    obtain ⟨h₁, h₂⟩ := h.whole key digest (by rw [← hdigests, ← hd]; exact hdig) file body hw
    exact ⟨h₁, fun row hrow => hv (h₂ row hrow)⟩
  · intro line hline
    rcases List.mem_append.mp hline with hl | hl
    · exact hv (h.promised line hl)
    · exact hv (hvouched line hl)

/-- What the ranges cover of the file, as it stands, is visible. -/
theorem visible_of_covered {w : Prompted} (h : Honest r w) {args : ReadArgs} {kept : Kept}
    {file : Path} {body : Text}
    (hc : r.Answerable w args kept (r.toolResult w.session args) file body) {start stop : Int}
    (hstart : args.startLine = .number start) (hstop : args.endLine = .number stop)
    (hmost : mostlyCovered start stop (w.session.rangesSent (r.keyOf args.filepath)) = true)
    {row : Nat × Text} (hrow : row ∈ numbered 1 (r.fileLines w.session.workspace file))
    (h₁ : start ≤ row.1) (h₂ : row.1 ≤ stop) : Visible w.session (file, row) := by
  obtain ⟨p, x, hlent⟩ := h.covered _ _ (hc.covered start stop hstart hstop hmost row hrow h₁ h₂)
  rw [Int.toNat_natCast] at hlent
  obtain ⟨hp, hx⟩ := hc.fresh start stop hstart hstop hmost _ hlent
  have hline := h.lent _ _ hlent
  have hx : row.2 = x := hx row hrow rfl
  rw [show p = file from hp, ← hx] at hline
  exact hline

/-- A result with rows of a file joins the conversation. -/
theorem honest_append {w w' : Prompted} (h : Honest r w) {file : Path} {rows : List (Nat × Text)}
    (hsent : w'.session.sent = w.session.sent ++ [Sent.mk file rows false])
    (hlent : ∀ key, ∀ line ∈ w'.lent key, line ∈ w.lent key ∨ ∃ row ∈ rows, line = (file, row))
    (hcovered : ∀ key i, InRanges (w'.session.rangesSent key) i →
      InRanges (w.session.rangesSent key) i ∧ w.lent key ⊆ w'.lent key
        ∨ ∃ x, (file, i.toNat, x) ∈ w'.lent key)
    (hwhole : ∀ key digest, w'.session.readDigests key = some digest → ∀ p body,
      w'.whole key = some (p, body) →
        w.session.readDigests key = some digest ∧ w.whole key = some (p, body)
          ∨ p = file ∧ digest = r.sha256 (encodeUtf8 body)
            ∧ ∀ row ∈ numbered 1 (splitlines (uncut body)), row ∈ rows)
    (hpromised : ∀ line ∈ w'.promised, Visible w.session line) : Honest r w' := by
  have hold : ∀ {line}, Visible w.session line → Visible w'.session line :=
    fun hv => hv.append hsent
  have hnew : ∀ row ∈ rows, Visible w'.session (file, row) := fun row hrow =>
    ⟨Sent.mk file rows false, by rw [hsent]; exact List.mem_append_right _ (List.mem_singleton.mpr rfl),
      rfl, rfl, hrow⟩
  refine ⟨?_, ?_, ?_, fun line hl => hold (hpromised line hl)⟩
  · intro key i hi
    rcases hcovered key i hi with ⟨hi, hsub⟩ | ⟨x, hx⟩
    · obtain ⟨p, x, hx⟩ := h.covered key i hi
      exact ⟨p, x, hsub hx⟩
    · exact ⟨file, x, hx⟩
  · intro key line hl
    rcases hlent key line hl with hl | ⟨row, hrow, rfl⟩
    · exact hold (h.lent key line hl)
    · exact hnew row hrow
  · intro key digest hd p body hw
    rcases hwhole key digest hd p body hw with ⟨hd, hw⟩ | ⟨rfl, hdig, hrows⟩
    · obtain ⟨h₁, h₂⟩ := h.whole key digest hd p body hw
      exact ⟨h₁, fun row hrow => hold (h₂ row hrow)⟩
    · exact ⟨hdig, fun row hrow => hnew row (hrows row hrow)⟩

/-- The ranges after a read with content. -/
theorem recordRangeSent_spec (s : Session) (args : ReadArgs) (result : ToolResult) :
    (r.recordRangeSent s args { result }).rangesSent = s.rangesSent ∨
      ∃ start stop, result.startLine = some start ∧ result.endLine = some stop
        ∧ (r.recordRangeSent s args { result }).rangesSent
          = Function.update s.rangesSent (r.keyOf (({ result } : Answer).name args))
            (s.rangesSent (r.keyOf (({ result } : Answer).name args)) ++ [(start, stop)]) := by
  unfold recordRangeSent
  split
  · exact .inl rfl
  · split
    next start stop hstart hstop => exact .inr ⟨start, stop, hstart, hstop, rfl⟩
    · exact .inl rfl

/-- What "unchanged" speaks of is visible. -/
theorem visible_of_unchanged {w : Prompted} (h : Honest r w) {args : ReadArgs} {kept : Kept}
    {result : ToolResult} {file : Path} {body : Text} (hcontent : result.content = some (file, body))
    (hread : (r.tools w.session.workspace).ReadOf file body result)
    (hc : r.Answerable w args kept result file body) (hpart : args.asksForPart = false)
    (hd : w.session.readDigests (r.casing.lower (({ result } : Answer).name args))
      = some (r.sha256 (encodeUtf8 (r.outlineInsteadOfBody args result).body)))
    {row : Nat × Text} (hrow : row ∈ numbered 1 (r.fileLines w.session.workspace file)) :
    Visible w.session (file, row) := by
  obtain ⟨htrunc, sent, hwhole, hsame⟩ := hc.repeated hpart hd
  have hplain := (outlineInsteadOfBody_cases (r := r) args result).2.2.2
  obtain ⟨_, _, htr, hcont⟩ := hplain.resolve_right fun ht => by rw [ht] at htrunc; cases htrunc
  have hbody : (r.outlineInsteadOfBody args result).body = body := by
    simp only [Answer.body, hcont, hcontent, Option.map_some, Option.getD_some]
  rw [hbody] at hd
  obtain ⟨hdigest, hrows⟩ := h.whole _ _ hd file sent hwhole
  obtain rfl := hsame hdigest.symm
  have hstart : result.startLine = none := by
    cases hs : result.startLine with
    | none => rfl
    | some n =>
      have hpart' := (hc.asked (by rw [hs]; exact Option.some_ne_none _)).1
      rw [hpart] at hpart'
      cases hpart'
  rw [fileLines_whole hread hc.toReadAsIs hstart (htr ▸ htrunc)] at hrow
  exact hrows row hrow

/-- What the answer vouches for is in front of the model. -/
theorem visible_of_vouched {w : Prompted} (h : Honest r w) {args : ReadArgs} {kept : Kept}
    {file : Path} {body : Text} {line : FileLine}
    (hcontent : (r.toolResult w.session args).content = some (file, body))
    (hread : (r.tools w.session.workspace).ReadOf file body (r.toolResult w.session args))
    (hc : r.Answerable w args kept (r.toolResult w.session args) file body)
    (hline : line ∈ r.vouched w.session args
      (r.noted w.session args (r.toolResult w.session args)).1) : Visible w.session line := by
  obtain ⟨_, _, _, _, _, hanswer⟩ :=
    noted_spec (r := r) w.session args (r.toolResult w.session args)
  obtain ⟨_, houtUnchanged, houtSent, _⟩ :=
    outlineInsteadOfBody_cases (r := r) args (r.toolResult w.session args)
  unfold vouched at hline
  rw [hcontent] at hline
  dsimp only at hline
  rcases hanswer with ha | ⟨hu, hpart, hd⟩
  · rw [ha, houtUnchanged, houtSent] at hline
    cases hline
  · rw [hu, if_pos rfl] at hline
    obtain ⟨row, hrow, rfl⟩ := List.mem_map.mp hline
    exact visible_of_unchanged h hcontent hread hc hpart hd hrow

/-- A range is answered as the tool has it. -/
theorem exists_shown_of_asked {w : Prompted} {args : ReadArgs} {kept : Kept} {file : Path}
    {body : Text} {start stop i : Int}
    (hread : (r.tools w.session.workspace).ReadOf file body (r.toolResult w.session args))
    (hc : r.Answerable w args kept (r.toolResult w.session args) file body)
    (hstart : (r.toolResult w.session args).startLine = some start)
    (hstop : (r.toolResult w.session args).endLine = some stop) (h₁ : start ≤ i) (h₂ : i ≤ stop) :
    ∃ x, (i.toNat, x) ∈ shownRows (r.noted w.session args (r.toolResult w.session args)).1 body
      kept := by
  obtain ⟨hpart, rfl⟩ := hc.asked (by rw [hstart]; exact Option.some_ne_none _)
  rw [noted_of_part hpart]
  exact exists_shown_of_range hread hc.toReadAsIs hstart hstop h₁ h₂

/-- A sound read with content keeps the memories honest. -/
theorem honest_content {w : Prompted} (h : Honest r w) {args : ReadArgs} {composite : Bool}
    {kept : Kept} {file : Path} {body : Text}
    (hx : r.execute w.session args = r.noted w.session args (r.toolResult w.session args))
    (hok : (r.toolResult w.session args).ok = true)
    (hcontent : (r.toolResult w.session args).content = some (file, body))
    (hread : (r.tools w.session.workspace).ReadOf file body (r.toolResult w.session args))
    (hc : r.Answerable w args kept (r.toolResult w.session args) file body) :
    Honest r (r.observeRead w args composite kept) := by
  obtain ⟨_, _, hsent, _, habout, _⟩ :=
    noted_spec (r := r) w.session args (r.toolResult w.session args)
  obtain ⟨houtline, houtUnchanged, houtSent, hplain⟩ :=
    outlineInsteadOfBody_cases (r := r) args (r.toolResult w.session args)
  obtain ⟨hranges, hdigests⟩ := noted_memory (r := r) w.session args (r.toolResult w.session args)
  obtain ⟨text, htext⟩ := habout.content hcontent
  have hname := habout.name args
  have hbody : ({ result := r.toolResult w.session args } : Answer).body = body := by
    simp only [Answer.body, hcontent, Option.map_some, Option.getD_some]
  obtain ⟨hr, _, hrsent, _, _, _⟩ := read_tool composite kept hx
    (habout.ok.trans hok) htext
  obtain ⟨_, hrr, hrd⟩ := read_memory (r := r) w.session args composite kept
  rw [hx, hranges] at hrr
  rw [hx] at hrd
  rw [hsent, hbody] at hrsent
  unfold observeRead
  rw [hr]
  dsimp only
  rw [htext, hname, hbody, habout.startLine]
  dsimp only
  -- left are the four promises: lines answered, ranges sent, whole files, lines vouched for
  refine honest_append h hrsent ?_ ?_ ?_ ?_
  · intro key line hline
    dsimp only at hline
    cases hs : (r.toolResult w.session args).startLine with
    | none =>
      rw [hs] at hline
      exact .inl hline
    | some start =>
      rw [hs] at hline
      dsimp only at hline
      by_cases hk : key = r.keyOf (({ result := r.toolResult w.session args } : Answer).name args)
      · subst hk
        rw [Function.update_self, List.mem_append] at hline
        rcases hline with hl | hl
        · exact .inl hl
        · obtain ⟨row, hrow, rfl⟩ := List.mem_map.mp hl
          exact .inr ⟨row, hrow, rfl⟩
      · rw [Function.update_of_ne hk] at hline
        exact .inl hline
  · intro key i hi
    dsimp only at hi ⊢
    rw [hrr] at hi
    -- a line of a range is an older one or in what was asked for, and then shown
    rcases recordRangeSent_spec (r := r) w.session args
        (r.toolResult w.session args) with hsame | ⟨start, stop, hstart, hstop, hmore⟩
    · rw [hsame] at hi
      refine .inl ⟨hi, ?_⟩
      cases hs : (r.toolResult w.session args).startLine with
      | none => exact fun _ hl => hl
      | some start =>
        dsimp only
        by_cases hk : key = r.keyOf (({ result := r.toolResult w.session args } : Answer).name args)
        · subst hk
          rw [Function.update_self]
          exact List.subset_append_left ..
        · rw [Function.update_of_ne hk]
          exact fun _ hl => hl
    · rw [hmore] at hi
      rw [hstart]
      dsimp only
      by_cases hk : key = r.keyOf (({ result := r.toolResult w.session args } : Answer).name args)
      · subst hk
        rw [Function.update_self, inRanges_append] at hi
        rw [Function.update_self]
        rcases hi with hi | ⟨h₁, h₂⟩
        · exact .inl ⟨hi, List.subset_append_left ..⟩
        · obtain ⟨x, hx⟩ := exists_shown_of_asked hread hc hstart hstop h₁ h₂
          exact .inr ⟨x, List.mem_append_right _ (List.mem_map.mpr ⟨_, hx, rfl⟩)⟩
      · rw [Function.update_of_ne hk] at hi
        rw [Function.update_of_ne hk]
        exact .inl ⟨hi, fun _ hl => hl⟩
  · intro key digest hd p sent hw
    dsimp only at hd hw
    rw [hrd] at hd hw
    -- the digest is of an older answer, or of this one, and then the whole file is shown
    rcases hdigests with hsame | ⟨ha, _, hupdate⟩
    · rw [hsame, if_pos rfl] at hw
      rw [hsame] at hd
      exact .inl ⟨hd, hw⟩
    · rw [hupdate] at hd
      by_cases hk : key = r.casing.lower
          (({ result := r.toolResult w.session args } : Answer).name args)
      · subst hk
        rw [Function.update_self] at hd
        split at hw
        next heq =>
          rw [hupdate, Function.update_self] at heq
          exact .inl ⟨by rw [← heq, hd], hw⟩
        next =>
          rw [Function.update_self] at hw
          split at hw
          next hfull =>
            obtain ⟨hkept, hstart, htrunc⟩ := hfull
            obtain ⟨rfl, rfl⟩ := Prod.mk.inj (Option.some.inj hw)
            rw [ha] at htrunc
            obtain ⟨hout, hht, _, hcont⟩ :=
              hplain.resolve_right fun ht => by rw [ht] at htrunc; cases htrunc
            have hAbody : (r.outlineInsteadOfBody args (r.toolResult w.session args)).body = body := by
              simp only [Answer.body, hcont, hcontent, Option.map_some, Option.getD_some]
            refine .inr ⟨rfl, ?_, fun row hrow => ?_⟩
            · rw [hAbody] at hd
              exact (Option.some.inj hd).symm
            · rw [ha, hkept]
              simpa only [shownRows, hout, houtUnchanged, houtSent, hht, houtline.startLine, hstart,
                Bool.or_self, Bool.false_eq_true, if_false] using hrow
          next => cases hw
      · rw [Function.update_of_ne hk] at hd
        split at hw
        · exact .inl ⟨hd, hw⟩
        · rw [Function.update_of_ne hk] at hw
          exact .inl ⟨hd, hw⟩
  · intro line hline
    rcases List.mem_append.mp hline with hl | hl
    · exact h.promised line hl
    · exact visible_of_vouched h hcontent hread hc hl

/-- A read the tool refuses leaves the memories alone. -/
theorem honest_refused {w : Prompted} (h : Honest r w) {args : ReadArgs} {composite : Bool}
    {kept : Kept}
    (hx : r.execute w.session args = r.noted w.session args (r.toolResult w.session args))
    (hok : (r.toolResult w.session args).ok = false)
    (hcontent : (r.toolResult w.session args).content = none) :
    Honest r (r.observeRead w args composite kept) := by
  obtain ⟨_, _, hsent, _, habout, _⟩ :=
    noted_spec (r := r) w.session args (r.toolResult w.session args)
  obtain ⟨hranges, hdigests⟩ := noted_memory (r := r) w.session args (r.toolResult w.session args)
  have hnone := habout.noContent hcontent
  have hrecord : (r.recordRangeSent w.session args
      { result := r.toolResult w.session args }).rangesSent = w.session.rangesSent := by
    unfold recordRangeSent
    rw [if_pos (.inl hok)]
  refine honest_quiet h (by rw [hx]; exact hnone) (by rw [hx]; exact hsent)
    (by rw [hx, hranges, hrecord]) ?_ ?_
  · rw [hx]
    rcases hdigests with hsame | ⟨_, hyes, _⟩
    · exact hsame
    · rw [hok] at hyes
      cases hyes
  · intro line hline
    unfold vouched at hline
    rw [hcontent] at hline
    cases hline

/-- A read that is answered without the tool. -/
theorem honest_answered {w : Prompted} (h : Honest r w) {args : ReadArgs} {composite : Bool}
    {kept : Kept} (hc : r.Sound w (.read args composite kept))
    (hnone : (r.execute w.session args).1.result.content = none)
    (hunchanged : (r.execute w.session args).1.unchanged = false)
    (hsent : (r.execute w.session args).2.sent = w.session.sent)
    (hranges : (r.execute w.session args).2.rangesSent = w.session.rangesSent)
    (hdigests : (r.execute w.session args).2.readDigests = w.session.readDigests)
    (hsaid : (r.execute w.session args).1.alreadySent = false ∨ ∃ start stop,
      args.startLine = .number start ∧ args.endLine = .number stop
        ∧ (r.execute w.session args).1.result.startLine = some start
        ∧ (r.execute w.session args).1.result.endLine = some stop
        ∧ mostlyCovered start stop (w.session.rangesSent (r.keyOf args.filepath)) = true) :
    Honest r (r.observeRead w args composite kept) := by
  refine honest_quiet h hnone hsent hranges hdigests fun line hline => ?_
  unfold vouched at hline
  split at hline
  · cases hline
  next file body hcontent =>
    have hcare := hc file body hcontent
    dsimp only at hline
    rw [hunchanged, if_neg Bool.false_ne_true] at hline
    rcases hsaid with hno | ⟨start, stop, hstart, hstop, hfrom, hto, hmost⟩
    · rw [hno] at hline
      cases hline
    · cases hkind : (r.execute w.session args).1.alreadySent with
      | false => rw [hkind] at hline; cases hline
      | true =>
        rw [hkind, hfrom, hto] at hline
        obtain ⟨hmem, hin⟩ := List.mem_filter.mp hline
        obtain ⟨row, hrow, rfl⟩ := List.mem_map.mp hmem
        obtain ⟨h₁, h₂⟩ := of_decide_eq_true hin
        exact visible_of_covered h hcare hstart hstop hmost hrow h₁ h₂

end Reader

/-- Whatever is swept, what was promised of other files stays. -/
theorem Visible.swept {w : Prompted} {elide : Nat → Bool} (hs : Reader.Spares w elide)
    {line : FileLine} (hl : line ∈ w.promised) (hv : Visible w.session line) :
    Visible (w.session.swept elide) line := by
  obtain ⟨e, he, hel, hfile, hrow⟩ := hv
  obtain ⟨n, hn⟩ := List.mem_iff_getElem?.mp he
  have hmem : (e, n) ∈ w.session.sent.zipIdx := List.mem_zipIdx_iff_getElem?.mpr hn
  refine ⟨{ e with elided := e.elided || elide n }, ?_, ?_, hfile, hrow⟩
  · exact List.mem_map.mpr ⟨(e, n), hmem, rfl⟩
  · cases helide : elide n with
    | false => simp [hel]
    | true => exact absurd hfile (hs (e, n) hmem helide line hl)

/-- **A sound step keeps the memories honest.** -/
theorem honest_step {w : Prompted} {act : Act} (h : Honest r w) (hc : r.Sound w act) :
    Honest r (r.observe w act) := by
  have hwrote (filepath : Text) (after : Workspace) (ok : Bool) :
      Honest r { w with session := r.wrote w.session filepath after ok } := by
    unfold Reader.wrote
    dsimp only
    split
    · refine h.mono rfl (fun key digest hd => ?_) rfl rfl rfl rfl
      dsimp only at hd
      by_cases hk : key = r.casing.lower (strip filepath)
      · subst hk
        rw [Function.update_self] at hd
        cases hd
      · rwa [Function.update_of_ne hk] at hd
    · exact h.mono rfl (fun _ _ hd => hd) rfl rfl rfl rfl
  cases act with
  | read args composite kept =>
    rcases Reader.execute_memory_cases (r := r) w.session args with
      hx | ⟨hnone, hun, hsent, hranges, hdigests, hsaid⟩
    · rcases Reader.toolResult_reads (r := r) w.session args with
        ⟨hok, hcontent⟩ | ⟨file, body, hok, hcontent, hread⟩
      · exact Reader.honest_refused h hx hok hcontent
      · exact Reader.honest_content h hx hok hcontent hread (hc file body hcontent)
    · exact Reader.honest_answered h hc hnone hun hsent hranges hdigests hsaid
  | write filepath target after ok =>
    show Honest r { w with session := r.step w.session (.write filepath target after ok) }
    unfold Reader.step
    dsimp only
    split
    · exact h
    · exact hwrote filepath after ok
  | edit filepath after ok => exact hwrote filepath after ok
  | other after => exact h.mono rfl (fun _ _ hd => hd) rfl rfl rfl rfl
  | sweep elide =>
    refine ⟨?_, ?_, ?_, fun line hl => (h.promised line hl).swept hc hl⟩
    · intro key i hi
      exact absurd hi not_inRanges_nil
    · intro key line hl
      cases hl
    · intro key digest hd
      cases hd
  | prompt left => exact ⟨h.covered, h.lent, h.whole, fun line hl => by cases hl⟩
  | message =>
    refine ⟨?_, ?_, ?_, h.promised⟩
    · intro key i hi
      exact absurd hi not_inRanges_nil
    · intro key line hl
      cases hl
    · intro key digest hd
      cases hd

/-- **What is said to have been sent stands in the next prompt.** In every
session, from any files: if each step is sound, each prompt has, un-elided, the
lines that reads answered without content since the prompt before it have
spoken of, as the files had them when they did. -/
theorem answers_truthful (r : Reader) (ws : Workspace) (acts : List Act)
    (h : Along r.observe r.Sound { session := { workspace := ws } } acts) :
    Along r.observe Reader.Truthful { session := { workspace := ws } } acts :=
  along_of_invariant (fun _ _ hw hc => honest_step hw hc) (fun _ _ hw hc => hw.truthful hc)
    (honest_start ws) h

/-- Both lines of `big.py` are read, and read again after `meanwhile`. -/
def readTwice (meanwhile : List Act) : List Act :=
  let both : ReadArgs :=
    { filepath := "big.py".toList, startLine := .number 1, endLine := .number 2 }
  .read both false .whole :: meanwhile ++ [.read both false .whole, .prompt fun _ => false]

theorem sound_readTwice :
    Along Reader.plain.observe Reader.plain.Sound { session := { workspace := Reader.twoLines } }
      (readTwice []) := by
  refine ⟨fun file body hcontent => ?_, fun file body hcontent => ?_, ?_, trivial⟩
  · have hfile : (file, body) = ([['w'], "big.py".toList], "a\nb".toList) :=
      Option.some.inj (hcontent.symm.trans (by decide))
    obtain ⟨rfl, rfl⟩ := Prod.mk.inj hfile
    exact {
      asNamed := by decide
      fits := fun _ => by decide
      asked := fun _ => ⟨rfl, rfl⟩
      covered := fun start stop h₁ h₂ h => by
        cases h₁
        cases h₂
        exact absurd h (by decide)
      fresh := fun _ _ _ _ _ line hl => absurd hl List.not_mem_nil
      repeated := fun h => by cases h }
  · have hfile : (file, body) = ([['w'], "big.py".toList], "a\nb".toList) :=
      Option.some.inj (hcontent.symm.trans (by decide +kernel))
    obtain ⟨rfl, rfl⟩ := Prod.mk.inj hfile
    exact {
      asNamed := by decide +kernel
      fits := fun _ => by decide
      asked := fun _ => ⟨rfl, rfl⟩
      covered := fun start stop h₁ h₂ _ => by
        cases h₁
        cases h₂
        decide +kernel
      fresh := fun start stop h₁ h₂ _ => by decide +kernel
      repeated := fun h => by cases h }
  · intro e _ h
    cases h

theorem answers_truthful_readTwice :
    Along Reader.plain.observe Reader.Truthful { session := { workspace := Reader.twoLines } }
      (readTwice []) :=
  answers_truthful Reader.plain Reader.twoLines _ sound_readTwice

/-- An edit puts a line in front: the lines that are asked for again are not the
ones that were sent. -/
theorem answers_untruthful :
    ¬ Along Reader.plain.observe Reader.Truthful { session := { workspace := Reader.twoLines } }
      (readTwice [.edit "big.py".toList Reader.threeLines true]) := by
  decide +kernel

end Shamsu.Chat
