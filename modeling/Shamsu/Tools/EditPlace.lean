import Shamsu.Tools.EditText
import Shamsu.Tools.Failing

/-!
# What an edit leaves of a file

`edit_file` with the search of `Tools.EditText`: the file it names has the content it had,
or one place of it is changed (`editFile_keepsRest`). The file is read with its newlines
translated and written as it was read, so that a carriage return goes wherever it is; and
a block that was found by its lines is replaced where its text is found first.
-/

namespace Shamsu.Tools

open Shamsu.Lib Shamsu.Py Shamsu.Safety Shamsu.Patch

namespace Registry

/-- The registry of a session with that request, which searches as `edit_file` does. -/
def searching (r : Registry) (userRequest : Text) : Registry :=
  { r with replaceIn := Tools.replaceIn userRequest }

variable (r : Registry)

/-- The file that an edit goes to. -/
def editTarget (d : FS) (filepath : Text) : Except Exn Path := do
  let filepath ← r.resolvedReadPath d (r.scopedWritePath filepath)
  validate r.root (normalizeWorkspacePath filepath)

/-- **What `edit_file` promises**: unless it reports ok every file is as it was, and where it
does the place that was matched is changed in the file it names. -/
def KeepsRest (old : Text) (replaceAll : Bool) (d d' : FS) (res : Except Exn Reply) : Prop :=
  ((∀ reply, res = .ok reply → reply.ok = false) → SameFiles d d') ∧
  ∀ reply, res = .ok reply → reply.ok = true →
    ∃ target content result, validate r.root reply.filepath = .ok target ∧
      d.content target = some (encodeUtf8 content) ∧
      d'.content target = some (encodeUtf8 result) ∧ InPlace content old replaceAll result

/-- If something is found in the file, then the file has no carriage return, and a block that
a repair finds is at one place of it. -/
def PlainEdit (userRequest : Text) (d : FS) (filepath old new : Text) (replaceAll : Bool) :
    Prop :=
  ∀ target content sub, r.editTarget d filepath = .ok target →
    d.content target = some (encodeUtf8 content) →
    Found userRequest (translateNewlines content) old new replaceAll sub →
    '\r' ∉ content ∧ BlockOnce (translateNewlines content) old sub

end Registry

section Edit

variable {r : Registry} {d : FS} {p : Plan} {filepath old new : Text} {replaceAll : Bool}
  {w w' : World} {stamp : Stamp}

/-- An edit is refused, or planned where it was found. -/
theorem editPlan_cases (hdry : r.dryRun = false)
    (h : r.editPlan d filepath old new replaceAll = .ok p) :
    (∃ reply, p = .reply reply ∧ reply.ok = false) ∨
    ∃ path target text result, p = .write path target result false ∧
      validate r.root path = .ok target ∧ r.editTarget d filepath = .ok target ∧
      readTextOf d target = .ok text ∧ r.replaceIn text old new replaceAll = .ok result := by
  -- a branch for each refusal of the source, in its order
  unfold Registry.editPlan at h
  rcases Registry.plan_else h with rfl | ⟨_, h⟩
  · exact Or.inl ⟨_, rfl, rfl⟩
  obtain ⟨path, hpath, h⟩ := result_bind_ok.mp h
  split at h
  next refusal hscope =>
    refine Or.inl ⟨refusal, (Except.ok.inj h).symm, ?_⟩
    unfold Registry.outsideAllowedScope at hscope
    split at hscope
    · cases hscope
    · dsimp only at hscope
      split at hscope
      · cases hscope
      · cases hscope
        rfl
  rw [if_neg (by rw [hdry]; exact Bool.false_ne_true)] at h
  rcases Registry.plan_else h with rfl | ⟨_, h⟩
  · exact Or.inl ⟨_, rfl, rfl⟩
  rcases Registry.plan_else h with rfl | ⟨_, h⟩
  · exact Or.inl ⟨_, rfl, rfl⟩
  rcases Registry.plan_else h with rfl | ⟨_, h⟩
  · exact Or.inl ⟨_, rfl, rfl⟩
  rcases Registry.plan_guarded h with ⟨_, rfl⟩ | ⟨target, hv, h⟩
  · exact Or.inl ⟨_, rfl, rfl⟩
  rcases Registry.plan_then h with rfl | ⟨_, h⟩
  · exact Or.inl ⟨_, rfl, rfl⟩
  split at h
  · exact Or.inl ⟨_, (Except.ok.inj h).symm, rfl⟩
  next text htext =>
  split at h
  · exact Or.inl ⟨_, (Except.ok.inj h).symm, rfl⟩
  next result hresult =>
  split at h
  · exact Or.inl ⟨_, (Except.ok.inj h).symm, rfl⟩
  · exact Or.inr ⟨_, target, text, result, (Except.ok.inj h).symm, hv,
      result_bind_ok.mpr ⟨path, hpath, hv⟩, htext, hresult⟩

/-- A write that goes through leaves the content it was given. -/
theorem commitWrite_content {path content : Text} {target : Path} {create : Bool}
    (h : r.commitWrite stamp path target content create w = (.ok (), w')) :
    w'.disk.content target = some (encodeUtf8 content) := by
  unfold Registry.commitWrite at h
  -- begin, copy, the parents, and then the write
  obtain ⟨_, w₁, _, h⟩ := Prog.bind_ok.mp h
  obtain ⟨_, w₂, _, h⟩ := Prog.bind_ok.mp h
  obtain ⟨_, w₃, _, h⟩ := Prog.bind_ok.mp h
  obtain ⟨_, w₄, hwritten, h⟩ := Prog.bind_ok.mp h
  -- recording leaves the disk alone
  have hdisk : w₄.disk = w'.disk :=
    DiskKeeps.of_run (R := Eq) (DiskKeeps.bind (DiskKeeps.recordAfter _ _ _) fun _ =>
      DiskKeeps.bind Registry.finalize_diskKeeps fun _ => DiskKeeps.pure _) h
  obtain ⟨d, hd, rfl⟩ := onDisk_cases hwritten
  rw [← hdisk]
  rcases writeBytes_cases target (encodeUtf8 content) w₃.disk with ⟨_, hok⟩ | ⟨_, e, herr⟩
  · rw [writeText, hok] at hd
    cases hd
    rw [Disk.content_put, if_pos rfl]
  · rw [writeText, herr] at hd
    cases hd

/-- What an edit that reports ok did: the file is there and has the content that the search
made of it. -/
theorem editFile_wrote {reply : Reply} (hdry : r.dryRun = false)
    (h : r.editFile stamp filepath old new replaceAll w = (.ok reply, w'))
    (hok : reply.ok = true) :
    ∃ target text result, validate r.root reply.filepath = .ok target ∧
      r.editTarget w.disk filepath = .ok target ∧ readTextOf w.disk target = .ok text ∧
      r.replaceIn text old new replaceAll = .ok result ∧
      w'.disk.content target = some (encodeUtf8 result) := by
  unfold Registry.editFile Registry.perform at h
  rcases Prog.read_bind h with ⟨_, _, he, _⟩ | ⟨p, hp, h⟩
  · cases he
  rcases editPlan_cases hdry hp with
    ⟨reply', rfl, hno⟩ | ⟨path, target, text, result, rfl, hv, htarget, htext, hresult⟩
  · cases h
    rw [hno] at hok
    cases hok
  · unfold Registry.carryOut at h
    obtain ⟨answer, w₁, _, h⟩ := Prog.bind_ok.mp h
    cases answer with
    | false =>
      cases h
      cases hok
    | true =>
      obtain ⟨_, w₂, hcommit, h⟩ := Prog.bind_ok.mp h
      cases h
      exact ⟨target, text, result, hv, htarget, htext, hresult, commitWrite_content hcommit⟩

/-- An edit that does not report ok leaves every file. -/
theorem editFile_failed {res : Except Exn Reply}
    (h : r.editFile stamp filepath old new replaceAll w = (res, w'))
    (hno : ∀ reply, res = .ok reply → reply.ok = false) : SameFiles w.disk w'.disk := by
  unfold Registry.editFile at h
  refine perform_not_ok ?_ h hno
  intro p hp
  exact PlanOk.of_onlyWrites (Registry.editPlan_onlyWrites hp)

/-- An edit keeps the rest of the file, for a registry that searches as `edit_file` does. -/
theorem keepsRest_of_searching {userRequest : Text} {res : Except Exn Reply}
    (hsearch : r.replaceIn = replaceIn userRequest) (hdry : r.dryRun = false)
    (hplain : r.PlainEdit userRequest w.disk filepath old new replaceAll)
    (h : r.editFile stamp filepath old new replaceAll w = (res, w')) :
    r.KeepsRest old replaceAll w.disk w'.disk res := by
  refine ⟨editFile_failed h, ?_⟩
  intro reply heq hok
  subst heq
  obtain ⟨target, text, result, hv, htarget, htext, hresult, hwrote⟩ :=
    editFile_wrote hdry h hok
  obtain ⟨content, hcontent, rfl⟩ := readTextOf_ok.mp htext
  rw [hsearch] at hresult
  have hplain := fun sub => hplain target content sub htarget hcontent
  have hplace := replaceIn_place (fun sub hsub => (hplain sub hsub).2) hresult
  obtain ⟨sub, hsub⟩ := exists_found hresult
  rw [translateNewlines_of_not_mem (hplain sub hsub).1] at hplace
  exact ⟨target, content, result, hv, hcontent, hwrote, hplace⟩

end Edit

/-- A workspace with `notes.md` in it. -/
def notes (text : String) : World := .ofFiles [("notes.md", text)]

/-- What is outside of the place that was matched keeps its carriage returns. -/
theorem InPlace.carriage_return {content old result : Text} (h : InPlace content old false result)
    (hin : old <:+: content) (hold : '\r' ∉ old) (hdecoded : '\r' ∉ decodeLiteralEscapes old)
    (hcr : '\r' ∈ content) : '\r' ∈ result := by
  rcases h with ⟨sub, hsub, _, h⟩ | ⟨hno, _⟩
  · rw [if_neg (by simp)] at h
    obtain ⟨before, after, new, rfl, rfl⟩ := h
    have hsub : '\r' ∉ sub := by
      rcases hsub with rfl | rfl
      · exact hold
      · exact hdecoded
    rcases List.mem_append.mp hcr with hcr | hcr
    · exact List.mem_append_left _ hcr
    · rcases List.mem_append.mp hcr with hcr | hcr
      · exact absurd hcr hsub
      · exact List.mem_append_right _ (List.mem_append_right _ hcr)
  · exact absurd hin hno

end Shamsu.Tools
