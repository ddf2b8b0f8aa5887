import Shamsu.Chat.Delivered
import Shamsu.Lib.Run

/-!
# Writing over a file that was read in part

`_refuse_blind_overwrite` is to refuse `write_file` on a file of which a read
delivered only a part, until reads have delivered every line it has. An observer
of the session keeps what that speaks of (`Watched`): `owed` are the files still
to be delivered, with the keys their reads were filed under, `pieces` the lines
that the ranges remembered under a key have delivered.

The guard compares texts and counts lines, so it goes by the wrong file or the
wrong lines where two spellings or two files meet in one key, where a clipped
range counts in full, where an outline counts as a range, where "unchanged"
answers for a file that was clipped, and where a file changes between its
pieces. `Careful` leaves these out; `writes_guarded` is about all other runs.
-/

namespace Shamsu.Chat

open Shamsu.Lib Shamsu.Py Shamsu.Safety Shamsu.Tools

/-- A session under observation. -/
structure Watched where
  session : Session
  /-- The keys of the reads that left the file partly delivered. -/
  owed : Path → List Text := fun _ => []
  /-- The lines delivered by the reads whose ranges are remembered. -/
  pieces : Text → List (Path × Nat × Text) := fun _ => []

namespace Reader

variable (r : Reader)

/-- A result of the session had this line of the file. -/
def told (s : Session) (p : Path) (row : Nat × Text) : Bool :=
  s.sent.any fun e => e.file == p && e.rows.contains row

/-- Results of the session had every line the file has. -/
def toldAll (s : Session) (p : Path) : Bool :=
  (numbered 1 (r.fileLines s.workspace p)).all (told s p)

/-- The key a read is filed under. -/
def readKey (args : ReadArgs) (result : ToolResult) : Text :=
  r.keyOf (({ result } : Answer).name args)

/-- What the observer notes of a read. -/
def watchRead (w : Watched) (args : ReadArgs) (composite : Bool) (kept : Kept) : Watched :=
  let a := (r.read w.session args composite kept).1
  let s := (r.read w.session args composite kept).2
  match a.result.content with
  | none => { w with session := s }
  | some (file, _) =>
    let key := r.readKey args a.result
    let rows := shownRows a ({ result := r.toolResult w.session args } : Answer).body kept
    { session := s
      owed :=
        if r.toldAll s file then Function.update w.owed file []
        else if a.unchanged then w.owed
        else Function.update w.owed file (key :: w.owed file)
      pieces :=
        if s.seenRanges key = [] then Function.update w.pieces key []
        else if a.result.startLine.isSome then
          Function.update w.pieces key (w.pieces key ++ rows.map fun row => (file, row))
        else w.pieces }

/-- One step of a session, observed. -/
def watch (w : Watched) : Act → Watched
  | .read args composite kept => r.watchRead w args composite kept
  | .message => { w with session := r.step w.session .message, pieces := fun _ => [] }
  | act => { w with session := r.step w.session act }

/-- A `write_file` on a file that is still owed is refused. -/
def Guarded (w : Watched) : Act → Prop
  | .write filepath target _ _ =>
    w.owed target ≠ [] → (r.refuseBlindOverwrite w.session filepath).isSome = true
  | _ => True

instance (w : Watched) : ∀ act, Decidable (r.Guarded w act)
  | .write filepath target _ _ => inferInstanceAs (Decidable (w.owed target ≠ [] →
      (r.refuseBlindOverwrite w.session filepath).isSome = true))
  | .read .. | .edit .. | .other _ | .sweep _ | .prompt _ | .message =>
    inferInstanceAs (Decidable True)

/-- A read the guard draws the right conclusions from. `result` is what the tool
read: `body`, of `file`. -/
structure CarefulRead (w : Watched) (args : ReadArgs) (composite : Bool) (kept : Kept)
    (result : ToolResult) (file : Path) (body : Text) : Prop extends
    r.ReadAsIs result file body where
  /-- The read has a name. -/
  named : strip (({ result } : Answer).name args) ≠ []
  /-- No other file that is owed goes by that name. -/
  noClash : ∀ p, p ≠ file → r.readKey args result ∉ w.owed p
  /-- Lines that are read were asked for, and come in full. -/
  asked : result.startLine ≠ none → args.asksForPart = true ∧ kept = .whole
  /-- The pieces of a file that is now complete are as the file has them. -/
  fresh : ∀ start stop, result.startLine = some start → result.endLine = some stop →
    result.totalLines.any (fun total : Nat => covers
      (w.session.seenRanges (r.readKey args result) ++ [(start, stop)]) total) = true →
    ∀ piece ∈ w.pieces (r.readKey args result), piece.1 = file ∧
      ∀ line, (piece.2.1, line) ∈ numbered 1 (r.fileLines w.session.workspace file) →
        line = piece.2.2
  /-- Where the budget clips a body, the loop can see it. -/
  clipped : kept = .whole ∨ (r.outlineInsteadOfBody args result).result.truncated = true
    ∨ composite = false ∧ ∃ n, kept = .rows n
  /-- A file read again as it was had been delivered. -/
  repeated : w.session.readDigests (r.casing.lower (({ result } : Answer).name args))
      = some (r.sha256 (encodeUtf8 body)) →
    w.owed file = [] ∨ r.toldAll w.session file = true

/-- A step the guard draws the right conclusions from. -/
def Careful (w : Watched) : Act → Prop
  | .read args composite kept => ∀ file body,
    (r.toolResult w.session args).content = some (file, body) →
      r.CarefulRead w args composite kept (r.toolResult w.session args) file body
  -- the file is spelled as it was for a read that left it partly delivered
  | .write filepath target _ _ => w.owed target ≠ [] → r.keyOf filepath ∈ w.owed target
  | _ => True

variable {r}

/-! ## The invariant -/

/-- What the guard remembers is right about what is owed. -/
structure Tracks (w : Watched) : Prop where
  /-- Each owed file is flagged under each key its reads were filed under. -/
  flagged : ∀ p, ∀ key ∈ w.owed p, key ≠ [] ∧ key ∈ w.session.partialReads
  /-- Each line of a remembered range was delivered. -/
  pieced : ∀ key i, InRanges (w.session.seenRanges key) i →
    ∃ p x, (p, i.toNat, x) ∈ w.pieces key
  told : ∀ key, ∀ piece ∈ w.pieces key, told w.session piece.1 piece.2 = true

theorem tracks_start (ws : Workspace) : Tracks { session := { workspace := ws } } where
  flagged := by intro p key h; cases h
  pieced := by
    intro key i hsome
    obtain ⟨r, hr, _⟩ := hsome
    cases hr
  told := by intro key piece h; cases h

theorem told_of_rows {s s' : Session} (h : ∀ e ∈ s.sent, ∃ e' ∈ s'.sent, e'.file = e.file ∧
    e'.rows = e.rows) {p : Path} {row : Nat × Text} (ht : told s p row = true) :
    told s' p row = true := by
  obtain ⟨e, he, hrow⟩ := List.any_eq_true.mp ht
  obtain ⟨e', he', hfile, hrows⟩ := h e he
  exact List.any_eq_true.mpr ⟨e', he', by rw [hfile, hrows]; exact hrow⟩

/-- A step that leaves the notes of the guard, or adds flags. -/
theorem Tracks.mono {w w' : Watched} (h : Tracks w) (howed : w'.owed = w.owed)
    (hpieces : w'.pieces = w.pieces) (hseen : w'.session.seenRanges = w.session.seenRanges)
    (hflags : ∀ key ∈ w.session.partialReads, key ∈ w'.session.partialReads)
    (hsent : ∀ e ∈ w.session.sent, ∃ e' ∈ w'.session.sent, e'.file = e.file ∧ e'.rows = e.rows) :
    Tracks w' where
  flagged := by
    intro p key hk
    rw [howed] at hk
    exact ⟨(h.flagged p key hk).1, hflags key (h.flagged p key hk).2⟩
  pieced := by
    rw [hseen, hpieces]
    exact h.pieced
  told := by
    rw [hpieces]
    exact fun key piece hp => told_of_rows hsent (h.told key piece hp)

theorem refused_of_flagged {s : Session} {filepath : Text} (hne : r.keyOf filepath ≠ [])
    (h : r.keyOf filepath ∈ s.partialReads) :
    (r.refuseBlindOverwrite s filepath).isSome = true := by
  have hpath : strip filepath ≠ [] := by
    intro hp
    apply hne
    rw [keyOf, hp]
    exact (r.casing.dots [] 0).mpr rfl
  have hflag : r.casing.lower (strip filepath) ∈ s.partialReads := h
  unfold refuseBlindOverwrite
  simp only [hpath, hflag, if_false, if_true, Option.isSome_some]

/-- **A careful write on an owed file is refused.** -/
theorem Tracks.guarded {w : Watched} (h : Tracks w) {act : Act} (hc : r.Careful w act) :
    r.Guarded w act := by
  cases act with
  | write filepath target after ok =>
    intro howed
    have hkey := h.flagged target _ (hc howed)
    exact refused_of_flagged hkey.1 hkey.2
  | _ => trivial

/-! ## A read -/

/-- What is remembered under the key after a read: nothing, what was, or one
range more, of which all lines were shown. -/
inductive Remembers (w : Watched) (s' : Session) (key : Text) (file : Path)
    (rows : List (Nat × Text)) (pieces : Text → List (Path × Nat × Text)) : Prop where
  | none (seen : s'.seenRanges = Function.update w.session.seenRanges key [])
      (pieces : pieces = Function.update w.pieces key [])
  | same (seen : s'.seenRanges = w.session.seenRanges)
      (pieces : pieces = w.pieces ∨ w.session.seenRanges key = [] ∧
        pieces = Function.update w.pieces key [])
  | more (start stop : Int)
      (seen : s'.seenRanges =
        Function.update w.session.seenRanges key (w.session.seenRanges key ++ [(start, stop)]))
      (pieces : pieces = Function.update w.pieces key
        (w.pieces key ++ rows.map fun row => (file, row)))
      (shown : ∀ i, start ≤ i → i ≤ stop → ∃ x, (i.toNat, x) ∈ rows)

/-- A read keeps the remembered ranges to lines that were delivered. -/
theorem Tracks.remembers {w : Watched} (h : Tracks w) {s' : Session} {key : Text} {file : Path}
    {rows : List (Nat × Text)} {pieces : Text → List (Path × Nat × Text)}
    (hsent : s'.sent = w.session.sent ++ [{ file := file, rows := rows }])
    (hr : Remembers w s' key file rows pieces) {owed : Path → List Text}
    (howed : ∀ p, ∀ k ∈ owed p, k ≠ [] ∧ k ∈ s'.partialReads) :
    Tracks { session := s', owed, pieces } := by
  have hold : ∀ {p row}, Reader.told w.session p row = true → Reader.told s' p row = true :=
    told_of_rows fun e he => ⟨e, by rw [hsent]; exact List.mem_append_left _ he, rfl, rfl⟩
  have hnew : ∀ row ∈ rows, Reader.told s' file row = true := by
    intro row hrow
    refine List.any_eq_true.mpr ⟨{ file := file, rows := rows }, ?_, by simpa using hrow⟩
    rw [hsent]
    exact List.mem_append_right _ (List.mem_singleton.mpr rfl)
  refine ⟨howed, ?_, ?_⟩
  · intro k i hi
    change InRanges (s'.seenRanges k) i at hi
    show ∃ p x, (p, i.toNat, x) ∈ pieces k
    cases hr with
    | none hseen hp =>
      simp only [hseen] at hi
      by_cases hk : k = key
      · subst hk
        rw [Function.update_self] at hi
        exact absurd hi not_inRanges_nil
      · rw [Function.update_of_ne hk] at hi
        rw [hp, Function.update_of_ne hk]
        exact h.pieced k i hi
    | same hseen hp =>
      simp only [hseen] at hi
      rcases hp with rfl | ⟨hnil, rfl⟩
      · exact h.pieced k i hi
      · by_cases hk : k = key
        · subst hk
          rw [hnil] at hi
          exact absurd hi not_inRanges_nil
        · rw [Function.update_of_ne hk]
          exact h.pieced k i hi
    | more start stop hseen hp hshown =>
      simp only [hseen] at hi
      by_cases hk : k = key
      · subst hk
        rw [Function.update_self, inRanges_append] at hi
        rw [hp, Function.update_self]
        rcases hi with hi | ⟨h₁, h₂⟩
        · obtain ⟨p, x, hx⟩ := h.pieced k i hi
          exact ⟨p, x, List.mem_append_left _ hx⟩
        · obtain ⟨x, hx⟩ := hshown i h₁ h₂
          exact ⟨file, x, List.mem_append_right _ (List.mem_map.mpr ⟨_, hx, rfl⟩)⟩
      · rw [Function.update_of_ne hk] at hi
        rw [hp, Function.update_of_ne hk]
        exact h.pieced k i hi
  · intro k piece hpiece
    change piece ∈ pieces k at hpiece
    have hcases : piece ∈ w.pieces k ∨ ∃ row ∈ rows, piece = (file, row) := by
      cases hr with
      | none _ hp =>
        by_cases hk : k = key
        · subst hk
          simp [hp] at hpiece
        · rw [hp, Function.update_of_ne hk] at hpiece
          exact .inl hpiece
      | same _ hp =>
        rcases hp with rfl | ⟨_, rfl⟩
        · exact .inl hpiece
        · by_cases hk : k = key
          · subst hk
            simp at hpiece
          · rw [Function.update_of_ne hk] at hpiece
            exact .inl hpiece
      | more _ _ _ hp _ =>
        by_cases hk : k = key
        · subst hk
          rw [hp, Function.update_self, List.mem_append] at hpiece
          rcases hpiece with hpiece | hpiece
          · exact .inl hpiece
          · obtain ⟨row, hrow, rfl⟩ := List.mem_map.mp hpiece
            exact .inr ⟨row, hrow, rfl⟩
        · rw [hp, Function.update_of_ne hk] at hpiece
          exact .inl hpiece
    rcases hcases with hold' | ⟨row, hrow, rfl⟩
    · exact hold (h.told k piece hold')
    · exact hnew row hrow

theorem mem_filter_ne {keys : List Text} {k key : Text} (h : k ∈ keys) (hk : k ≠ key) :
    k ∈ keys.filter (· ≠ key) :=
  List.mem_filter.mpr ⟨h, by simpa using hk⟩

section

variable {s : Session} {args : ReadArgs} {a : Answer} {result : ToolResult}

/-- What the guard notes of a range. -/
theorem notePartialRead_range {start stop : Int} (ha : a.About result) (hok : result.ok = true)
    (hname : strip (({ result } : Answer).name args) ≠ []) (hstart : result.startLine = some start)
    (hstop : result.endLine = some stop) :
    if result.totalLines.any fun total : Nat => covers
        (s.seenRanges (r.readKey args result) ++ [(start, stop)]) total then
      (r.notePartialRead s args a).seenRanges
          = Function.update s.seenRanges (r.readKey args result) []
        ∧ (r.notePartialRead s args a).partialReads
          = s.partialReads.filter (· ≠ r.readKey args result)
    else
      (r.notePartialRead s args a).seenRanges
          = Function.update s.seenRanges (r.readKey args result)
            (s.seenRanges (r.readKey args result) ++ [(start, stop)])
        ∧ (r.notePartialRead s args a).partialReads = r.readKey args result :: s.partialReads := by
  have hn : a.name args = ({ result } : Answer).name args := by
    simp only [Answer.name, ha.resolvedName]
  unfold notePartialRead
  simp only [hn, ha.ok, ha.startLine, ha.endLine, ha.totalLines, readKey, hok, hname, hstart,
    hstop, Bool.true_eq_false, or_self, if_false]
  split <;> exact ⟨rfl, rfl⟩

/-- What the guard notes of a whole file. -/
theorem notePartialRead_whole (ha : a.About result) (hok : result.ok = true)
    (hname : strip (({ result } : Answer).name args) ≠ []) (hstart : result.startLine = none) :
    if a.result.truncated then
      (r.notePartialRead s args a).seenRanges = s.seenRanges
        ∧ (r.notePartialRead s args a).partialReads = r.readKey args result :: s.partialReads
    else
      (r.notePartialRead s args a).seenRanges
          = Function.update s.seenRanges (r.readKey args result) []
        ∧ (r.notePartialRead s args a).partialReads
          = s.partialReads.filter (· ≠ r.readKey args result) := by
  have hn : a.name args = ({ result } : Answer).name args := by
    simp only [Answer.name, ha.resolvedName]
  unfold notePartialRead
  simp only [hn, ha.ok, ha.startLine, readKey, hok, hname, hstart, Bool.true_eq_false, or_self,
    if_false]
  split <;> exact ⟨rfl, rfl⟩

end

theorem mem_sent_last {s : Session} {sent : List Sent} {e : Sent} (h : s.sent = sent ++ [e]) :
    e ∈ s.sent := by
  rw [h]
  exact List.mem_append_right _ (List.mem_singleton.mpr rfl)

theorem toldAll_of_rows {s : Session} {file : Path} {rows : List (Nat × Text)}
    (hmem : Sent.mk file rows false ∈ s.sent)
    (h : ∀ row ∈ numbered 1 (r.fileLines s.workspace file), row ∈ rows ∨ told s file row = true) :
    r.toldAll s file = true := by
  refine List.all_eq_true.mpr fun row hrow => ?_
  rcases h row hrow with hr | ht
  · exact List.any_eq_true.mpr ⟨_, hmem, by simpa using hr⟩
  · exact ht

/-- The flags are right about what a read leaves owed. -/
theorem Tracks.flags {w : Watched} (h : Tracks w) {s' : Session} {key : Text}
    {owed : Path → List Text} (file : Path) (hkey : key ≠ [])
    (hflags : ∀ k ∈ w.session.partialReads, k ≠ key → k ∈ s'.partialReads)
    (hother : ∀ p, p ≠ file → owed p = w.owed p ∧ key ∉ w.owed p)
    (hfile : owed file = [] ∨ key ∈ s'.partialReads ∧
      ∀ k ∈ owed file, k = key ∨ k ∈ w.owed file) :
    ∀ p, ∀ k ∈ owed p, k ≠ [] ∧ k ∈ s'.partialReads := by
  intro p k hk
  by_cases hp : p = file
  · subst hp
    rcases hfile with hnil | ⟨hflag, hkeys⟩
    · rw [hnil] at hk
      cases hk
    · by_cases heq : k = key
      · exact heq ▸ ⟨hkey, hflag⟩
      · have hold := h.flagged p k ((hkeys k hk).resolve_left heq)
        exact ⟨hold.1, hflags k hold.2 heq⟩
  · obtain ⟨hsame, hno⟩ := hother p hp
    rw [hsame] at hk
    have hold := h.flagged p k hk
    exact ⟨hold.1, hflags k hold.2 fun heq => hno (heq ▸ hk)⟩

section

variable {w : Watched} {s' : Session} {key : Text} {file : Path} {unchanged : Bool}

/-- After a read, `owed` is flagged: all was delivered, or nothing was owed, or
the key is flagged. -/
theorem Tracks.flags_watch (h : Tracks w) (hkey : key ≠ [])
    (hflags : ∀ k ∈ w.session.partialReads, k ≠ key → k ∈ s'.partialReads)
    (hclash : ∀ p, p ≠ file → key ∉ w.owed p)
    (hfile : r.toldAll s' file = true ∨ unchanged = true ∧ w.owed file = []
      ∨ key ∈ s'.partialReads) :
    ∀ p, ∀ k ∈ (if r.toldAll s' file then Function.update w.owed file []
      else if unchanged then w.owed
      else Function.update w.owed file (key :: w.owed file)) p,
      k ≠ [] ∧ k ∈ s'.partialReads := by
  refine h.flags file hkey hflags ?_ ?_
  · intro p hp
    refine ⟨?_, hclash p hp⟩
    split
    · exact Function.update_of_ne hp _ _
    · split
      · rfl
      · exact Function.update_of_ne hp _ _
  · split
    next => exact .inl (Function.update_self ..)
    next htold =>
      have hfile := hfile.resolve_left htold
      split
      next hu =>
        rcases hfile with ⟨_, hnil⟩ | hflag
        · exact .inl hnil
        · exact .inr ⟨hflag, fun k hk => .inr hk⟩
      next hu =>
        have hflag := hfile.resolve_left fun hn => hu hn.1
        rw [Function.update_self]
        exact .inr ⟨hflag, fun k hk => List.mem_cons.mp hk⟩

end

section

variable {w : Watched} {args : ReadArgs} {composite : Bool} {kept : Kept} {result : ToolResult}
  {file : Path} {body : Text}

theorem readKey_ne_nil (h : strip (({ result } : Answer).name args) ≠ []) :
    r.readKey args result ≠ [] :=
  fun hk => h ((r.casing.dots _ 0).mp hk)

/-- A range that completes a file has told all of it. -/
theorem toldAll_of_covers (h : Tracks w)
    (hread : (r.tools w.session.workspace).ReadOf file body result)
    (hc : r.CarefulRead w args composite kept result file body) {start stop : Int}
    (hstart : result.startLine = some start) (hstop : result.endLine = some stop)
    (hcovers : result.totalLines.any (fun total : Nat => covers
      (w.session.seenRanges (r.readKey args result) ++ [(start, stop)]) total) = true)
    {s' : Session} (hws : s'.workspace = w.session.workspace)
    (hsent : s'.sent = w.session.sent
      ++ [Sent.mk file (shownRows { result } body .whole) false]) :
    r.toldAll s' file = true := by
  refine toldAll_of_rows (mem_sent_last hsent) ?_
  intro hsome hrow
  obtain ⟨i, x⟩ := hsome
  rw [hws] at hrow
  have hi : 1 ≤ i ∧ i ≤ (r.fileLines w.session.workspace file).length := by
    have hx := mem_numbered.mp hrow
    have := (List.getElem?_eq_some_iff.mp hx.2).1
    omega
  have htotal := totalLines_range hread hc.toReadAsIs hstart
  have hcov := hcovers
  rw [htotal, Option.any_some] at hcov
  have hin := inRanges_of_covers hcov (i := i) (by omega) (by omega)
  rcases inRanges_append.mp hin with hseen | ⟨h₁, h₂⟩
  · -- the line was read before, and the file still has it
    obtain ⟨p, y, hpiece⟩ := h.pieced _ _ hseen
    rw [Int.toNat_natCast] at hpiece
    obtain ⟨hp, hline⟩ := hc.fresh start stop hstart hstop hcovers _ hpiece
    have hxy : x = y := hline x hrow
    have htold := h.told _ _ hpiece
    rw [show p = file from hp, ← hxy] at htold
    right
    refine told_of_rows ?_ htold
    exact fun e he => ⟨e, by rw [hsent]; exact List.mem_append_left _ he, rfl, rfl⟩
  · exact .inl ((mem_shownRows_range hread hc.toReadAsIs hstart hstop).mpr ⟨h₁, h₂, hrow⟩)

/-- A careful read with content keeps the guard right. -/
theorem Tracks.content (h : Tracks w)
    (hx : r.execute w.session args = r.noted w.session args (r.toolResult w.session args))
    (hok : (r.toolResult w.session args).ok = true)
    (hcontent : (r.toolResult w.session args).content = some (file, body))
    (hread : (r.tools w.session.workspace).ReadOf file body (r.toolResult w.session args))
    (hc : r.CarefulRead w args composite kept (r.toolResult w.session args) file body) :
    Tracks (r.watchRead w args composite kept) := by
  obtain ⟨hp, hs, hsent, hws, habout, hanswer⟩ :=
    noted_spec (r := r) w.session args (r.toolResult w.session args)
  obtain ⟨houtline, houtUnchanged, houtSent, hplain⟩ :=
    outlineInsteadOfBody_cases (r := r) args (r.toolResult w.session args)
  obtain ⟨text, htext⟩ := habout.content hcontent
  have hname := habout.name args
  have hkey : r.readKey args (r.noted w.session args (r.toolResult w.session args)).1.result
      = r.readKey args (r.toolResult w.session args) := by
    simp only [readKey, Answer.name, habout.resolvedName]
  obtain ⟨hr, hrs, hrsent, hrws, hrflags, hrclip⟩ := read_tool composite kept hx
    (habout.ok.trans hok) htext
  rw [hname] at hrclip
  have hrclip := hrclip hc.named
  have hbody : ({ result := r.toolResult w.session args } : Answer).body = body := by
    simp only [Answer.body, hcontent, Option.map_some, Option.getD_some]
  have hkeyne := readKey_ne_nil (r := r) hc.named
  have hself : args.asksForPart = true → (r.noted w.session args
      (r.toolResult w.session args)).1 = { result := r.toolResult w.session args } := noted_of_part
  unfold watchRead
  rw [hr]
  dsimp only
  rw [htext]
  dsimp only
  rw [hkey, habout.startLine]
  rw [hp] at hrflags
  rw [hs] at hrs
  rw [hsent, hbody] at hrsent
  rw [hws] at hrws
  rw [hbody]
  generalize (r.read w.session args composite kept).2 = s' at hrs hrsent hrws hrflags hrclip ⊢
  generalize (r.noted w.session args (r.toolResult w.session args)).1 = a
    at habout hanswer hself hrsent ⊢
  generalize hres : r.toolResult w.session args = result at *
  cases hstart : result.startLine with
  | none =>
    have hnote := notePartialRead_whole (r := r) (s := w.session) houtline hok hc.named hstart
    split at hnote
    next htrunc =>
      -- marked as a part: the key is flagged
      obtain ⟨hseen, hflags⟩ := hnote
      rw [hseen] at hrs
      rw [hflags] at hrflags
      refine h.remembers hrsent (.same hrs ?_ :
        Remembers w s' (r.readKey args result) file _ _) (h.flags_watch hkeyne
        (fun k hk _ => hrflags k (List.mem_cons_of_mem _ hk)) hc.noClash
        (.inr (.inr (hrflags _ List.mem_cons_self))))
      rw [hrs]
      split
      next hnil => exact .inr ⟨hnil, rfl⟩
      next => exact .inl rfl
    next htrunc =>
      -- the flag goes: all of the file was shown, or the clipped body flags it again
      obtain ⟨hseen, hflags⟩ := hnote
      rw [hseen] at hrs
      rw [hflags] at hrflags
      obtain ⟨hout, hht, htr, hcont⟩ := hplain.resolve_right htrunc
      have hshown := fileLines_whole hread hc.toReadAsIs hstart (by
        rw [← htr]
        exact Bool.eq_false_iff.mpr htrunc)
      refine h.remembers hrsent (.none hrs ?_) (h.flags_watch hkeyne
        (fun k hk hne => hrflags k (mem_filter_ne hk hne)) hc.noClash ?_)
      · rw [hrs, Function.update_self, if_pos rfl]
      · rcases hanswer with rfl | ⟨hu, _, hd⟩
        · rcases hc.clipped with rfl | ht | ⟨hcomp, n, rfl⟩
          · left
            refine toldAll_of_rows (mem_sent_last hrsent)
              fun row hrow => .inl ?_
            rw [hrws, hshown] at hrow
            simpa only [shownRows, hout, houtUnchanged, houtSent, hht, houtline.startLine, hstart,
              Bool.or_self, Bool.false_eq_true, if_false] using hrow
          · exact absurd ht htrunc
          · exact .inr (.inr (hrclip hcomp ⟨n, rfl⟩))
        · have hbody' : (r.outlineInsteadOfBody args result).body = body := by
            simp only [Answer.body, hcont, hcontent, Option.map_some, Option.getD_some]
          rw [hbody'] at hd
          rcases hc.repeated hd with hnil | htold
          · exact .inr (.inl ⟨hu, hnil⟩)
          · left
            refine toldAll_of_rows (mem_sent_last hrsent)
              fun row hrow => .inr ?_
            rw [hrws] at hrow
            have hrow' := List.all_eq_true.mp htold row hrow
            exact told_of_rows (fun e he => ⟨e, by
              rw [hrsent]
              exact List.mem_append_left _ he, rfl, rfl⟩) hrow'
  | some start =>
    obtain ⟨hpart, rfl⟩ := hc.asked (by rw [hstart]; exact Option.some_ne_none _)
    obtain ⟨stop, hstop⟩ : ∃ stop, result.endLine = some stop := by
      cases hread with
      | document _ _ _ _ _ h => rw [hstart] at h; cases h
      | text _ _ _ h => rw [hstart] at h; cases h
      | range _ _ stop _ _ _ h => exact ⟨_, h⟩
    rw [hself hpart] at hrsent ⊢
    have hnote := notePartialRead_range (r := r) (s := w.session) houtline hok hc.named hstart hstop
    split at hnote
    next hcovers =>
      obtain ⟨hseen, hflags⟩ := hnote
      rw [hseen] at hrs
      rw [hflags] at hrflags
      have htold := toldAll_of_covers h hread hc hstart hstop hcovers hrws hrsent
      refine h.remembers hrsent (.none hrs ?_) (h.flags_watch hkeyne
        (fun k hk hne => hrflags k (mem_filter_ne hk hne)) hc.noClash (.inl htold))
      rw [hrs, Function.update_self, if_pos rfl]
    next hcovers =>
      obtain ⟨hseen, hflags⟩ := hnote
      rw [hseen] at hrs
      rw [hflags] at hrflags
      refine h.remembers hrsent (.more start stop hrs ?_ ?_) (h.flags_watch hkeyne
        (fun k hk _ => hrflags k (List.mem_cons_of_mem _ hk)) hc.noClash
        (.inr (.inr (hrflags _ List.mem_cons_self))))
      · rw [hrs, Function.update_self, if_neg (List.append_ne_nil_of_right_ne_nil _ (by simp))]
        rfl
      · exact fun i => exists_shown_of_range hread hc.toReadAsIs hstart hstop

end

theorem Tracks.quiet {w : Watched} (h : Tracks w) {args : ReadArgs} {composite : Bool}
    {kept : Kept} (hnone : (r.read w.session args composite kept).1.result.content = none)
    (hseen : (r.read w.session args composite kept).2.seenRanges = w.session.seenRanges)
    (hsent : (r.read w.session args composite kept).2.sent = w.session.sent)
    (hflags : ∀ key ∈ w.session.partialReads,
      key ∈ (r.read w.session args composite kept).2.partialReads) :
    Tracks (r.watchRead w args composite kept) := by
  have hw : r.watchRead w args composite kept
      = { w with session := (r.read w.session args composite kept).2 } := by
    unfold watchRead
    dsimp only
    rw [hnone]
  rw [hw]
  exact h.mono rfl rfl hseen hflags fun e he => ⟨e, hsent ▸ he, rfl, rfl⟩

/-- A read the tool refuses. -/
theorem Tracks.refused {w : Watched} (h : Tracks w) {args : ReadArgs} {composite : Bool}
    {kept : Kept}
    (hx : r.execute w.session args = r.noted w.session args (r.toolResult w.session args))
    (hok : (r.toolResult w.session args).ok = false)
    (hcontent : (r.toolResult w.session args).content = none) :
    Tracks (r.watchRead w args composite kept) := by
  obtain ⟨hp, hs, hsent, _, habout, _⟩ :=
    noted_spec (r := r) w.session args (r.toolResult w.session args)
  have houtline := (outlineInsteadOfBody_cases (r := r) args (r.toolResult w.session args)).1
  have hnote : r.notePartialRead w.session args
      (r.outlineInsteadOfBody args (r.toolResult w.session args)) = w.session := by
    unfold notePartialRead
    rw [if_pos (.inl (houtline.ok.trans hok))]
  have hnone := habout.noContent hcontent
  rw [hnote] at hp hs
  obtain ⟨h₁, h₂, h₃, h₄⟩ := read_quiet (r := r) (s := w.session) composite kept
    (by rw [hx]; exact hnone) (by rw [hx]; exact hs)
    (by rw [hx]; exact hp) (by rw [hx]; exact hsent)
  exact h.quiet h₁ h₂ h₃ h₄

/-- **A careful step keeps the guard right.** -/
theorem tracks_step {w : Watched} {act : Act} (h : Tracks w) (hc : r.Careful w act) :
    Tracks (r.watch w act) := by
  have hsame : ∀ e ∈ w.session.sent, ∃ e' ∈ w.session.sent, e'.file = e.file ∧ e'.rows = e.rows :=
    fun e he => ⟨e, he, rfl, rfl⟩
  have hwrote (filepath : Text) (after : Workspace) (ok : Bool) :
      Tracks { w with session := r.wrote w.session filepath after ok } := by
    unfold wrote
    dsimp only
    split <;> exact h.mono rfl rfl rfl (fun _ hk => hk) hsame
  cases act with
  | read args composite kept =>
    rcases execute_cases (r := r) w.session args with hx | ⟨hnone, hseen, hflags, hsent⟩
    · rcases toolResult_reads (r := r) w.session args with ⟨hok, hcontent⟩ | ⟨file, body, hok, hcontent, hread⟩
      · exact h.refused hx hok hcontent
      · exact h.content hx hok hcontent hread (hc file body hcontent)
    · obtain ⟨h₁, h₂, h₃, h₄⟩ := read_quiet (r := r) composite kept
        hnone hseen hflags hsent
      exact h.quiet h₁ h₂ h₃ h₄
  | write filepath target after ok =>
    show Tracks { w with session := r.step w.session (.write filepath target after ok) }
    unfold step
    dsimp only
    split
    · exact h
    · exact hwrote filepath after ok
  | edit filepath after ok => exact hwrote filepath after ok
  | other after => exact h.mono rfl rfl rfl (fun _ hk => hk) hsame
  | sweep elide =>
    refine h.mono rfl rfl rfl (fun _ hk => hk) fun e he => ?_
    obtain ⟨n, hn⟩ := List.mem_iff_getElem?.mp he
    refine ⟨{ e with elided := e.elided || elide n }, ?_, rfl, rfl⟩
    exact List.mem_map.mpr ⟨(e, n), List.mem_zipIdx_iff_getElem?.mpr hn, rfl⟩
  | prompt left => exact h
  | message =>
    refine ⟨h.flagged, ?_, ?_⟩
    · intro key i hi
      exact absurd hi not_inRanges_nil
    · intro key piece hp
      cases hp

/-- **Partly read files are not written over.** In every session, from any
files: if each step is one the guard can judge, each `write_file` on a file that
reads have left partly delivered, and have not delivered since, is refused. -/
theorem writes_guarded (r : Reader) (ws : Workspace) (acts : List Act)
    (h : Along r.watch r.Careful { session := { workspace := ws } } acts) :
    Along r.watch r.Guarded { session := { workspace := ws } } acts :=
  along_of_invariant (fun _ _ hw hc => tracks_step hw hc) (fun _ _ hw hc => hw.guarded hc)
    (tracks_start ws) h

/-- Line 1 of `big.py` is read, and the whole file written under a spelling. -/
def readThenWrite (spelling : String) : List Act :=
  [.read { filepath := "big.py".toList, startLine := .number 1, endLine := .number 1 } false .whole,
    .write spelling.toList [['w'], "big.py".toList] twoLines true]

theorem careful_readThenWrite :
    Along plain.watch plain.Careful { session := { workspace := twoLines } }
      (readThenWrite "big.py") := by
  refine ⟨fun file body hcontent => ?_, ?_, trivial⟩
  · have hfile : (file, body) = ([['w'], "big.py".toList], ['a']) :=
      Option.some.inj (hcontent.symm.trans (by decide))
    obtain ⟨rfl, rfl⟩ := Prod.mk.inj hfile
    exact {
      named := by decide
      noClash := fun _ _ => List.not_mem_nil
      asNamed := by decide
      fits := fun _ => by decide
      asked := fun _ => ⟨rfl, rfl⟩
      fresh := fun _ _ _ _ _ piece hp => absurd hp List.not_mem_nil
      clipped := .inl rfl
      repeated := fun hd => by cases hd }
  · intro _
    decide +kernel

theorem writes_guarded_readThenWrite :
    Along plain.watch plain.Guarded { session := { workspace := twoLines } }
      (readThenWrite "big.py") :=
  writes_guarded plain twoLines _ careful_readThenWrite

/-- With a dot and a slash in front, the same file is written over. -/
theorem writes_unguarded :
    validate [['w']] "./big.py".toList = .ok [['w'], "big.py".toList]
      ∧ ¬ Along plain.watch plain.Guarded { session := { workspace := twoLines } }
        (readThenWrite "./big.py") := by
  refine ⟨rfl, ?_⟩
  decide +kernel

end Reader

end Shamsu.Chat
