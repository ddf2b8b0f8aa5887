import Shamsu.Chat.Edits
import Shamsu.Tools.Failing

/-!
# Refusals put the file back

What an edit that is not applied leaves behind. A tool that refuses changes no
file (`perform_not_ok`); an edit that is judged bad on disk is taken back by
writing the text the file was read as, so its bytes are the old ones exactly
when the file was UTF-8 without carriage returns (`execute_putsBack_iff`).
-/

namespace Shamsu.Chat

open Shamsu.Lib Shamsu.Py Shamsu.Safety Shamsu.Patch Shamsu.Tools

/-! ## Taking an edit back -/

/-- A file whose bytes are those of the text it is read as. -/
def PlainText (b : Bytes) : Prop := ∃ t : Text, '\r' ∉ t ∧ b = encodeUtf8 t

namespace Loop

variable (c : Loop) {w w' : World} {target : Path} {b : Bytes}

/-- What the call answers when it does not apply its edit: the file is as it
was, unless the answer says that it could not be put back. An append that is
applied only adds. -/
def PutsBack (target : Path) (b : Bytes) (call : EditCall) (res : Except Exn Reply) (d' : FS) :
    Prop :=
  ∀ reply, res = .ok reply →
    (reply.ok = false → reply.rolledBack ≠ some false → d'.content target = some b) ∧
    (reply.ok = true → (∃ filepath content, call = .appendFile filepath content) →
      ∃ b', d'.content target = some b' ∧ b <+: b')

/-- The tool applies an edit that erases the last of something. -/
def Erases (filepath : Text) (target : Path) (b : Bytes) (tool : Prog Exn World Reply)
    (w : World) : Prop :=
  strip filepath ≠ [] ∧ ∃ reply w₁ after, tool w = (.ok reply, w₁) ∧ reply.ok = true ∧
    textAt w₁.disk target = some after ∧
    c.symbolsErased (readReplace b) after (suffixOf target.name) ≠ []

/-- The bytes of a file with `content` appended to what it is read as. -/
def appended (b : Bytes) (content : Text) : Bytes :=
  encodeUtf8 (appendedText (readReplace b) content)

/-- A healthy file does not parse any more with `content` at its end. -/
def AppendBreaks (target : Path) (b : Bytes) (content : Text) : Prop :=
  isBlank (readReplace b) = false ∧ c.checkFile target b = none ∧
    (∃ detail, c.checkFile target (appended b content) = some detail) ∧
    c.unfinishedBlocks (readReplace (appended b content)) (suffixOf target.name) = false

/-- When the call puts the file back: an edit that is taken back was made to a
plain text, and an append that stays was made to bytes that begin the text they
are read as. -/
def Undamaged (stamp : Stamp) (target : Path) (b : Bytes) (w : World) : EditCall → Prop
  | .patchFile filepath old new replaceAll =>
    c.Erases filepath target b (c.registry.editFile stamp filepath (c.stripLineNumbers old)
      (c.stripLineNumbers new) replaceAll) w → PlainText b
  | .readAndPatch filepath old new =>
    c.Erases filepath target b (c.registry.editFile stamp filepath (c.stripLineNumbers old)
      (c.stripLineNumbers new) false) w → PlainText b
  | .writeFile filepath content =>
    c.refuseRewrite w.disk (strip filepath) = none →
      c.Erases filepath target b (c.registry.writeFile stamp filepath content true) w →
        PlainText b
  | .appendFile filepath content =>
    strip filepath ≠ [] → content ≠ [] →
      (c.AppendBreaks target b content → PlainText b) ∧
      (¬ c.AppendBreaks target b content → b <+: encodeUtf8 (readReplace b))
  | .replaceSymbol .. => True

variable {c}

theorem plainText_iff {d : FS} (hb : d.content target = some (encodeUtf8 (readReplace b))) :
    d.content target = some b ↔ PlainText b := by
  rw [hb, Option.some.injEq]
  exact encode_readReplace_iff

/-- A reply without an edit, on a disk where the files are the same. -/
theorem putsBack_of_same {d d' : FS} {call : EditCall} {res : Except Exn Reply}
    (hb : d.content target = some b) (hsame : SameFiles d d')
    (hno : ∀ reply, res = .ok reply → reply.ok = false) : PutsBack target b call res d' := by
  intro reply hr
  refine ⟨fun _ _ => (hsame target).trans hb, fun hok => ?_⟩
  rw [hno reply hr] at hok
  cases hok

/-- An edit that stays, of a tool that is not asked to add only. -/
theorem putsBack_of_ok {d' : FS} {call : EditCall} {reply : Reply} (hok : reply.ok = true)
    (hcall : ¬ ∃ filepath content, call = .appendFile filepath content) :
    PutsBack target b call (.ok reply) d' := by
  intro reply' hr
  obtain rfl := Except.ok.inj hr
  refine ⟨fun hno => ?_, fun _ h => absurd h hcall⟩
  rw [hok] at hno
  cases hno

theorem snapshotText_eq {filepath : Text} (hv : validate c.root (strip filepath) = .ok target)
    (hb : w.disk.content target = some b) :
    c.snapshotText filepath w = (.ok (if strip filepath = [] then [] else readReplace b), w) := by
  obtain ⟨h0, _, hloc⟩ := validate_ok.mp hv
  unfold snapshotText
  rw [Prog.read_apply]
  by_cases hs : strip filepath = []
  · rw [if_pos hs, if_pos hs]
  · rw [if_neg hs, if_neg hs, if_neg h0, hloc, textAt, hb]
    rfl

/-- Nothing is missing: the edit stays. -/
theorem erasedADefinition_keeps {filepath before : Text}
    (hv : validate c.root (strip filepath) = .ok target)
    (h : ∀ after, textAt w.disk target = some after →
      c.symbolsErased before after (suffixOf target.name) = []) :
    c.erasedADefinition filepath before w = (.ok none, w) := by
  unfold erasedADefinition
  rw [hv]
  dsimp only
  cases ht : textAt w.disk target with
  | none => rfl
  | some after =>
    dsimp only
    rw [h after ht]

/-- Something is missing: the text the file was read as is written back. -/
theorem erasedADefinition_restores {filepath before after : Text}
    (hv : validate c.root (strip filepath) = .ok target)
    (ht : textAt w.disk target = some after)
    (h : c.symbolsErased before after (suffixOf target.name) ≠ []) :
    ∃ refusal hput, c.erasedADefinition filepath before w =
        (.ok (some refusal), { w with disk := w.disk.put target (encodeUtf8 before) hput }) ∧
      refusal.ok = false ∧ refusal.rolledBack = some true := by
  have hfile : w.disk.isFile target = true := by
    unfold textAt at ht
    obtain ⟨bytes, hb, _⟩ := Option.map_eq_some_iff.mp ht
    exact Disk.isFile_iff.mpr ⟨bytes, hb⟩
  unfold erasedADefinition
  rw [hv]
  dsimp only
  rw [ht]
  dsimp only
  refine ⟨notApplied (strip filepath)
    (c.symbolsErased before after (suffixOf target.name)), canPut_of_isFile hfile, ?_, rfl, rfl⟩
  split
  next he => exact absurd he h
  next =>
    unfold catchOSError
    rw [Prog.handle_apply, Prog.bind_of_ok (onDisk_eq (writeText_of_isFile hfile before))]
    rfl

/-- **Judged edits**: exactly the plain texts survive an edit that is taken back. -/
theorem judged_putsBack_iff {filepath : Text} {call : EditCall} {tool : Prog Exn World Reply}
    {res : Except Exn Reply} (hv : validate c.root (strip filepath) = .ok target)
    (hb : w.disk.content target = some b)
    (htool : ∀ res w', tool w = (res, w') → (∀ reply, res = .ok reply → reply.ok = false) →
      SameFiles w.disk w'.disk)
    (hcall : ¬ ∃ filepath content, call = .appendFile filepath content)
    (h : c.judged filepath tool w = (res, w')) :
    PutsBack target b call res w'.disk ↔ (c.Erases filepath target b tool w → PlainText b) := by
  unfold judged at h
  rw [Prog.bind_of_ok (snapshotText_eq hv hb)] at h
  cases ht : tool w with
  | mk r₁ w₁ =>
    cases r₁ with
    | error e =>
      rw [Prog.bind_apply, Prog.handle_apply, ht] at h
      cases h
      have hsame := htool _ _ ht fun reply hr => by cases hr
      refine iff_of_true (putsBack_of_same hb hsame fun reply hr => ?_) ?_
      · cases hr; rfl
      · intro hsome
        obtain ⟨_, _, _, _, ht', _⟩ := hsome
        rw [ht] at ht'
        cases ht'
    | ok reply =>
      rw [Prog.bind_apply, Prog.handle_apply, ht] at h
      dsimp only at h
      cases hok : reply.ok with
      | false =>
        rw [hok] at h
        cases h
        have hsame := htool _ _ ht fun reply' hr => Except.ok.inj hr ▸ hok
        refine iff_of_true (putsBack_of_same hb hsame fun reply' hr => Except.ok.inj hr ▸ hok) ?_
        intro hsome
        obtain ⟨_, _, _, _, ht', hok', _⟩ := hsome
        obtain ⟨hr, _⟩ := Prod.mk.inj (ht.symm.trans ht')
        rw [← Except.ok.inj hr, hok] at hok'
        cases hok'
      | true =>
        by_cases hs : strip filepath = []
        · rw [hok] at h
          simp only [hs, ne_eq, not_true_eq_false, decide_false, Bool.and_false,
            Bool.false_eq_true, if_false] at h
          cases h
          exact iff_of_true (putsBack_of_ok hok hcall) fun he => absurd hs he.1
        · rw [hok] at h
          simp only [hs, ne_eq, not_false_eq_true, decide_true, Bool.and_true, if_true,
            if_false] at h
          by_cases he : c.Erases filepath target b tool w
          · obtain ⟨_, _, w₂, after, ht', _, htext, herased⟩ := id he
            obtain ⟨_, rfl⟩ := Prod.mk.inj (ht.symm.trans ht')
            obtain ⟨refusal, hput, hrun, hno, hrolled⟩ :=
              erasedADefinition_restores hv htext herased
            rw [Prog.bind_of_ok hrun] at h
            cases h
            have hcontent : (w₁.disk.put target (encodeUtf8 (readReplace b)) hput).content target
                = some (encodeUtf8 (readReplace b)) := by
              rw [Disk.content_put, if_pos rfl]
            constructor
            · intro hp _
              refine (plainText_iff hcontent).mp ((hp refusal rfl).1 hno ?_)
              rw [hrolled]
              simp
            · intro hplain reply' hr
              obtain rfl := Except.ok.inj hr
              refine ⟨fun _ _ => (plainText_iff hcontent).mpr (hplain he), fun hok' => ?_⟩
              rw [hno] at hok'
              cases hok'
          · have hkeeps : ∀ after, textAt w₁.disk target = some after →
                c.symbolsErased (readReplace b) after (suffixOf target.name) = [] := by
              intro after htext
              by_contra hne
              exact he ⟨hs, reply, w₁, after, ht, hok, htext, hne⟩
            rw [Prog.bind_of_ok (erasedADefinition_keeps hv hkeeps)] at h
            cases h
            exact iff_of_true (putsBack_of_ok hok hcall) fun he' => absurd he' he

/-- `replace_symbol` judges before it writes. -/
theorem replaceSymbolIn_putsBack {filepath symbol content : Text} {call : EditCall}
    {res : Except Exn Reply} (hb : w.disk.content target = some b)
    (hcall : ¬ ∃ filepath content, call = .appendFile filepath content)
    (h : c.replaceSymbolIn filepath symbol content w = (res, w')) :
    PutsBack target b call res w'.disk := by
  have hreply : ∀ {reply : Reply}, ((Except.ok reply : Except Exn Reply), w) = (res, w') →
      reply.ok = false → PutsBack target b call res w'.disk := by
    intro reply h hno
    obtain ⟨rfl, rfl⟩ := Prod.mk.inj h
    exact putsBack_of_same hb (SameFiles.refl _) fun reply' hr => Except.ok.inj hr ▸ hno
  unfold replaceSymbolIn at h
  dsimp only at h
  split at h
  · exact hreply h rfl
  · split at h
    · exact hreply h rfl
    next place hv =>
      split at h
      · exact hreply h rfl
      next original ho =>
        split at h
        · exact hreply h rfl
        next body hbody =>
          have hfile : w.disk.isFile place = true := by
            obtain ⟨bytes, hbytes, _⟩ := Option.map_eq_some_iff.mp ho
            exact Disk.isFile_iff.mpr ⟨bytes, hbytes⟩
          unfold catchOSError at h
          rw [Prog.handle_apply,
            Prog.bind_of_ok (onDisk_eq (writeText_of_isFile hfile body))] at h
          cases h
          exact putsBack_of_ok rfl hcall

/-- The judgement of an append says what `AppendBreaks` says. -/
theorem appendBrokeIt_iff {d : FS} {content : Text}
    (hd : d.content target = some (appended b content)) :
    (∃ why, (if (!isBlank (readReplace b) && (c.checkFile target b).isNone) = true then
      c.appendBrokeIt d target else none) = some why) ↔ c.AppendBreaks target b content := by
  unfold AppendBreaks appendBrokeIt
  rw [hd]
  dsimp only
  cases hblank : isBlank (readReplace b) with
  | true => simp
  | false =>
    cases hhealthy : c.checkFile target b with
    | some detail => simp
    | none =>
      cases hbroke : c.checkFile target (appended b content) with
      | none => simp
      | some detail =>
        cases hopen : c.unfinishedBlocks (readReplace (appended b content))
            (suffixOf target.name) with
        | true => simp
        | false => simp

/-- An append to a file: the bytes it leaves, and whether it is taken back. -/
theorem appendFile_run {filepath content : Text} {res : Except Exn Reply}
    (hv : validate c.root (strip filepath) = .ok target) (hb : w.disk.content target = some b)
    (hs : strip filepath ≠ []) (hc : content ≠ [])
    (h : c.appendFile filepath content w = (res, w')) :
    ∃ reply, res = .ok reply ∧
      ((c.AppendBreaks target b content ∧ reply.ok = false ∧ reply.rolledBack = some true ∧
        w'.disk.content target = some (encodeUtf8 (readReplace b))) ∨
      (¬ c.AppendBreaks target b content ∧ reply.ok = true ∧
        w'.disk.content target = some (appended b content))) := by
  have hfile : w.disk.isFile target = true := Disk.isFile_iff.mpr ⟨b, hb⟩
  have hpres : w.disk.present target = true := Disk.present_of_isFile hfile
  have hclear : w.disk.isClear target.parent = true :=
    Disk.isClear_of_isDir (Disk.isDir_dropLast hpres)
  have hfile₁ := (Grown.mkdirs hclear).file target hfile
  unfold appendFile at h
  dsimp only at h
  rw [if_neg (by simp [hs, hc]), hv] at h
  dsimp only at h
  rw [if_pos hpres, readBytesOf_ok.mpr hb] at h
  dsimp only [Except.map] at h
  unfold catchOSError at h
  rw [Prog.handle_apply, Prog.bind_of_ok (onDisk_eq (mkdirP_eq hclear)),
    Prog.bind_of_ok (onDisk_eq (writeText_of_isFile hfile₁ _)),
    Prog.bind_of_ok (Prog.gets_apply _ _)] at h
  rw [hpres, hb] at h
  simp only [Bool.true_and, Option.bind_some] at h
  have hcontent : ((w.disk.mkdirs target.parent hclear).put target
      (encodeUtf8 (appendedText (readReplace b) content)) (canPut_of_isFile hfile₁)).content target
        = some (appended b content) := by
    rw [Disk.content_put, if_pos rfl]
    rfl
  generalize (w.disk.mkdirs target.parent hclear).put target
    (encodeUtf8 (appendedText (readReplace b) content)) (canPut_of_isFile hfile₁) = d₂
    at h hcontent
  have hfile₂ : d₂.isFile target = true := Disk.isFile_iff.mpr ⟨_, hcontent⟩
  have hjudge := appendBrokeIt_iff (c := c) hcontent
  cases hj : (if (!isBlank (readReplace b) && (c.checkFile target b).isNone) = true then
      c.appendBrokeIt d₂ target else none) with
  | none =>
    rw [hj] at h hjudge
    cases h
    refine ⟨_, rfl, Or.inr ⟨fun hbreaks => ?_, rfl, hcontent⟩⟩
    obtain ⟨why, hwhy⟩ := hjudge.mpr hbreaks
    cases hwhy
  | some why =>
    rw [hj] at h hjudge
    dsimp only at h
    rw [Prog.bind_apply, Prog.handle_apply,
      onDisk_eq (writeText_of_isFile hfile₂ (readReplace b))] at h
    cases h
    refine ⟨_, rfl, Or.inl ⟨hjudge.mp ⟨why, rfl⟩, rfl, rfl, ?_⟩⟩
    rw [Disk.content_put, if_pos rfl]

theorem appendFile_putsBack_iff {filepath content : Text} {res : Except Exn Reply}
    (hv : validate c.root (strip filepath) = .ok target) (hb : w.disk.content target = some b)
    (h : c.appendFile filepath content w = (res, w')) :
    PutsBack target b (.appendFile filepath content) res w'.disk ↔
      (strip filepath ≠ [] → content ≠ [] →
        (c.AppendBreaks target b content → PlainText b) ∧
        (¬ c.AppendBreaks target b content → b <+: encodeUtf8 (readReplace b))) := by
  by_cases hargs : strip filepath = [] ∨ content = []
  · unfold appendFile at h
    dsimp only at h
    rw [if_pos hargs] at h
    cases h
    refine iff_of_true ?_ fun hs hc => (hargs.elim hs hc).elim
    exact putsBack_of_same hb (SameFiles.refl _) fun reply hr => by cases hr; rfl
  · obtain ⟨hs, hc⟩ := not_or.mp hargs
    obtain ⟨reply, rfl, hrun⟩ := appendFile_run hv hb hs hc h
    rcases hrun with ⟨hbreaks, hno, hrolled, hcontent⟩ | ⟨hstays, hok, hcontent⟩
    · constructor
      · refine fun hp _ _ => ⟨fun _ => (plainText_iff hcontent).mp ((hp reply rfl).1 hno ?_),
          fun hn => absurd hbreaks hn⟩
        rw [hrolled]
        simp
      · intro hu reply' hr
        obtain rfl := Except.ok.inj hr
        refine ⟨fun _ _ => (plainText_iff hcontent).mpr ((hu hs hc).1 hbreaks), fun hok => ?_⟩
        rw [hno] at hok
        cases hok
    · have hprefix : b <+: appended b content ↔ b <+: encodeUtf8 (readReplace b) := by
        unfold appended appendedText
        rw [List.append_assoc]
        exact prefix_readReplace_append
      constructor
      · intro hp _ _
        obtain ⟨b', hb', hpre⟩ := (hp reply rfl).2 hok ⟨filepath, content, rfl⟩
        rw [hcontent, Option.some.injEq] at hb'
        exact ⟨fun hbreaks => absurd hbreaks hstays, fun _ => hprefix.mp (hb' ▸ hpre)⟩
      · intro hu reply' hr
        obtain rfl := Except.ok.inj hr
        refine ⟨fun hno => ?_, fun _ _ => ⟨_, hcontent, hprefix.mpr ((hu hs hc).2 hstays)⟩⟩
        rw [hok] at hno
        cases hno

theorem editFile_not_ok {stamp : Stamp} {filepath old new : Text} {replaceAll : Bool} :
    ∀ res w', c.registry.editFile stamp filepath old new replaceAll w = (res, w') →
      (∀ reply, res = .ok reply → reply.ok = false) → SameFiles w.disk w'.disk := by
  intro res w' h hno
  unfold Registry.editFile at h
  refine perform_not_ok ?_ h hno
  intro p hp
  exact PlanOk.of_onlyWrites (Registry.editPlan_onlyWrites hp)

theorem writeFile_not_ok {stamp : Stamp} {filepath content : Text} {overwrite : Bool} :
    ∀ res w', c.registry.writeFile stamp filepath content overwrite w = (res, w') →
      (∀ reply, res = .ok reply → reply.ok = false) → SameFiles w.disk w'.disk := by
  intro res w' h hno
  unfold Registry.writeFile at h
  refine perform_not_ok ?_ h hno
  intro p hp
  exact PlanOk.of_onlyWrites (Registry.writePlan_onlyWrites hp)

/-- **Refusals put the file back**, exactly when the call is `Undamaged`: for
every file, whatever its bytes, and every call that edits it. -/
theorem execute_putsBack_iff (c : Loop) (stamp : Stamp) (call : EditCall) (w : World)
    (target : Path) (b : Bytes) (hv : validate c.root (strip call.filepath) = .ok target)
    (hb : w.disk.content target = some b) :
    PutsBack target b call (c.execute stamp call w).1 (c.execute stamp call w).2.disk ↔
      c.Undamaged stamp target b w call := by
  have hrun : c.execute stamp call w
      = ((c.execute stamp call w).1, (c.execute stamp call w).2) := rfl
  generalize (c.execute stamp call w).1 = res, (c.execute stamp call w).2 = w' at hrun ⊢
  cases call with
  | patchFile filepath old new replaceAll =>
    exact judged_putsBack_iff hv hb editFile_not_ok (by rintro ⟨_, _, h⟩; cases h) hrun
  | readAndPatch filepath old new =>
    exact judged_putsBack_iff hv hb editFile_not_ok (by rintro ⟨_, _, h⟩; cases h) hrun
  | writeFile filepath content =>
    have hcall : ¬ ∃ f t, EditCall.writeFile filepath content = .appendFile f t := by
      rintro ⟨_, _, h⟩; cases h
    rw [execute, Prog.bind_of_ok (Prog.gets_apply _ w)] at hrun
    cases hr : c.refuseRewrite w.disk (strip filepath) with
    | some why =>
      rw [hr] at hrun
      cases hrun
      refine iff_of_true (putsBack_of_same hb (SameFiles.refl _) fun reply h => ?_) fun hn => ?_
      · cases h; rfl
      · rw [hr] at hn; cases hn
    | none =>
      rw [hr] at hrun
      rw [judged_putsBack_iff hv hb writeFile_not_ok hcall hrun]
      exact ⟨fun h _ => h, fun h => h hr⟩
  | appendFile filepath content => exact appendFile_putsBack_iff hv hb hrun
  | replaceSymbol filepath symbol content =>
    exact iff_of_true (replaceSymbolIn_putsBack hb (by rintro ⟨_, _, h⟩; cases h) hrun) trivial

/-- A loop for concrete runs: the user says yes to everything, nothing is
checked, a Python file declares what its `def` lines name, and a text that
occurs once is replaced. -/
def agreeable : Loop where
  registry :=
    { engine := Engine.agreeable
      casing := Casing.ascii
      readOnly := false
      dryRun := false
      allowedWritePaths := none
      allowedReadPaths := none
      readAliases := []
      checkText := fun _ _ => none
      gutting := fun _ _ => none
      looksElided := fun _ => false
      unwrap := fun _ => none
      replaceIn := fun content old new _ =>
        if count old content = 1 then .ok (replaceOne old new content)
        else .error "old_string not found or not unique." }
  checkFile := fun _ _ => none
  unfinishedBlocks := fun _ _ => false
  outline := fun text suffix =>
    if suffix = ".py".toList then
      ((splitlines text).filter fun l => "def ".toList.isPrefixOf l).map fun l =>
        (l.drop 4).takeWhile (· ≠ '(')
    else []
  outline_nil := by
    intro suffix
    split <;> rfl
  stripLineNumbers := fun t => t
  refuseRewrite := fun _ _ => none
  replaceSymbol := fun _ _ _ _ => .error "no such symbol"

/-- A plain text is put back when the patch would erase its one function. -/
theorem execute_putsBack_plain :
    PutsBack ["ws".toList, "a.py".toList] (encodeUtf8 "def f():\n    pass\n".toList)
      (.patchFile "a.py".toList "def f():\n".toList "if 1:\n".toList false)
      (agreeable.execute ⟨['t'], ['1']⟩
        (.patchFile "a.py".toList "def f():\n".toList "if 1:\n".toList false)
        (World.ofFiles [("a.py", "def f():\n    pass\n")])).1
      (agreeable.execute ⟨['t'], ['1']⟩
        (.patchFile "a.py".toList "def f():\n".toList "if 1:\n".toList false)
        (World.ofFiles [("a.py", "def f():\n    pass\n")])).2.disk :=
  (execute_putsBack_iff agreeable _ _ _ _ _ (by decide) (by decide)).mpr
    fun _ => ⟨_, by decide, rfl⟩

/-- With carriage returns it is refused, said to be back as it was, and changed. -/
theorem execute_putsBack_fails :
    Prog.returns (fun reply w' => !reply.ok && reply.rolledBack == some true &&
        w'.disk.content ["ws".toList, "a.py".toList] !=
          some (encodeUtf8 "def f():\r\n    pass\r\n".toList))
      (agreeable.execute ⟨['t'], ['1']⟩
        (.patchFile "a.py".toList "def f():\n".toList "if 1:\n".toList false)
        (World.ofFiles [("a.py", "def f():\r\n    pass\r\n")])) = true := by
  decide

end Loop

end Shamsu.Chat
