import Shamsu.Tools.Failing

/-!
# The logical tools

`shamsu/tools/logical.py`: with logical tools enabled, `write_file`,
`edit_file` and `append_file` become `file.patch` (`_alias_patch_args`,
`_execute_file_patch`), without them `AgentToolRegistry.execute` calls the
methods itself. Both are for a call that is permitted.

The alias drops `overwrite`, and `file.patch` sets it: `alias_agrees_iff`.
-/

namespace Shamsu.Tools

open Shamsu.Lib Shamsu.Py Shamsu.Safety Shamsu.Patch

/-- The low-level tools that have an alias to `file.patch`. -/
inductive PatchTool where
  | writeFile
  | editFile
  | appendFile

/-- `str(value)`, for a value that is no string. -/
abbrev Render := Value → Text

section Arguments

variable (render : Render) (casing : Casing)

/-- `str(value)` of any value. -/
def asText : Value → Text
  | .str t => t
  | v => render v

/-- `str(arguments.get(key) or "")`. -/
def argument (args : Dict) (key : String) : Text :=
  match dictGet args key with
  | some v => if v.truthy then asText render v else []
  | none => []

/-- `_as_bool`. -/
def asBool (value : Option Value) (default : Bool) : Bool :=
  match value with
  | none | some .none | some (.str []) => default
  | some (.bool b) => b
  | some v => casing.lower (strip (asText render v))
      ∈ ["1", "true", "yes", "y", "on"].map String.toList

end Arguments

/-- `_alias_patch_args`: `arguments.get(key, default)` item by item. -/
def aliasPatchArgs (tool : PatchTool) (args : Dict) : Dict :=
  let item (key : String) (default : Value) : Text × Value :=
    (key.toList, (dictGet args key).getD default)
  match tool with
  | .editFile =>
    [("operation".toList, .str "replace".toList), item "filepath" (.str []),
      item "old_string" (.str []), item "new_string" (.str []),
      item "replace_all" (.bool false)]
  | .appendFile =>
    [("operation".toList, .str "append".toList), item "filepath" (.str []),
      item "content" (.str [])]
  | .writeFile =>
    [("operation".toList, .str "write".toList), item "filepath" (.str []),
      item "content" (.str [])]

namespace Registry

variable (r : Registry) (render : Render) (stamp : Stamp)

/-- `AgentToolRegistry.execute`, for a permitted low-level call. -/
def executeLowLevel (tool : PatchTool) (args : Dict) : Prog Exn World Reply :=
  match tool with
  | .editFile =>
    r.editFile stamp (argument render args "filepath") (argument render args "old_string")
      (argument render args "new_string")
      (asBool render r.casing (dictGet args "replace_all") false)
  | .appendFile =>
    r.appendFile stamp (argument render args "filepath") (argument render args "content")
  | .writeFile =>
    r.writeFile stamp (argument render args "filepath") (argument render args "content")
      (asBool render r.casing (dictGet args "overwrite") true)

/-- `_execute_file_patch`. -/
def executeFilePatch (args : Dict) : Prog Exn World Reply :=
  -- only these letters have the letters of the three words as their lower case
  let operation := Casing.ascii.lower (strip (argument render args "operation"))
  let filepath := argument render args "filepath"
  if operation = "replace".toList then
    r.editFile stamp filepath (argument render args "old_string")
      (argument render args "new_string")
      (asBool render r.casing (dictGet args "replace_all") false)
  else if operation = "append".toList then
    r.appendFile stamp filepath (argument render args "content")
  else if operation = "write".toList then
    r.writeFile stamp filepath (argument render args "content") true
  else
    pure { ok := false, filepath,
           message := "file.patch operation must be replace, append, or write." }

/-- The same call with logical tools: the alias, then the logical tool. -/
def executeLogical (tool : PatchTool) (args : Dict) : Prog Exn World Reply :=
  r.executeFilePatch render stamp (aliasPatchArgs tool args)

/-- What `execute` answers, ok or not; an exception is an answer that is not. -/
def returned (x : Prog Exn World Reply) (w : World) : Bool × World :=
  match x w with
  | (.ok reply, w') => (reply.ok, w')
  | (.error _, w') => (false, w')

/-- The same flag, and the same files outside `.shamsu`. -/
def Agree (root : Path) (x y : Bool × World) : Prop :=
  x.1 = y.1 ∧ ∀ p, IsUserPath root p → x.2.disk.content p = y.2.disk.content p

/-! ## Two tools agree -/

variable {r render stamp} {w : World}

theorem Agree.refl {root : Path} (x : Bool × World) : Agree root x x := ⟨rfl, fun _ _ => rfl⟩

theorem argument_of_getD (args : Dict) {args' : Dict} (key : String)
    (h : dictGet args' key = some ((dictGet args key).getD (.str []))) :
    argument render args' key = argument render args key := by
  unfold argument
  rw [h]
  cases dictGet args key <;> rfl

/-- The alias of `edit_file` and `append_file` is the same call. -/
theorem executeLogical_eq {tool : PatchTool} {args : Dict} (h : tool ≠ .writeFile) :
    r.executeLogical render stamp tool args = r.executeLowLevel render stamp tool args := by
  cases tool with
  | writeFile => exact absurd rfl h
  | editFile =>
    have hop : Casing.ascii.lower (strip (argument render (aliasPatchArgs .editFile args)
        "operation")) = "replace".toList := rfl
    have hflag : asBool render r.casing
        (dictGet (aliasPatchArgs .editFile args) "replace_all") false
          = asBool render r.casing (dictGet args "replace_all") false := by
      have hget : dictGet (aliasPatchArgs .editFile args) "replace_all"
          = some ((dictGet args "replace_all").getD (.bool false)) := rfl
      rw [hget]
      cases dictGet args "replace_all" <;> rfl
    unfold executeLogical executeFilePatch executeLowLevel
    dsimp only
    rw [if_pos hop, hflag, argument_of_getD args "filepath" rfl,
      argument_of_getD args "old_string" rfl, argument_of_getD args "new_string" rfl]
  | appendFile =>
    have hop : Casing.ascii.lower (strip (argument render (aliasPatchArgs .appendFile args)
        "operation")) = "append".toList := rfl
    unfold executeLogical executeFilePatch executeLowLevel
    dsimp only
    rw [hop, if_neg (by decide), if_pos rfl, argument_of_getD args "filepath" rfl,
      argument_of_getD args "content" rfl]

/-- The alias of `write_file` always overwrites. -/
theorem executeLogical_write {args : Dict} :
    r.executeLogical render stamp .writeFile args
      = r.writeFile stamp (argument render args "filepath") (argument render args "content")
          true := by
  have hop : Casing.ascii.lower (strip (argument render (aliasPatchArgs .writeFile args)
      "operation")) = "write".toList := rfl
  unfold executeLogical executeFilePatch
  dsimp only
  rw [hop, if_neg (by decide), if_neg (by decide), if_pos rfl,
    argument_of_getD args "filepath" rfl, argument_of_getD args "content" rfl]

/-! ## Overwriting -/

/-- The write that only `overwrite` decides about: nothing refuses it, `path` is
a file, and what is sent is not what it contains. -/
structure Replaces (r : Registry) (d : FS) (filepath content path : Text) (target : Path)
    (text : Text) : Prop where
  changes : r.readOnly = false ∧ r.dryRun = false
  resolved : ∃ x, r.resolvedReadPath d (r.scopedWritePath filepath) = .ok x ∧
    r.outsideAllowedScope d x = none ∧ path = normalizeWorkspacePath x ∧ path ≠ []
  filled : ¬ (isBlank content ∧ nameOf path ≠ "__init__.py".toList)
  unwrapped : text = (r.unwrap content).getD content
  unbroken : r.breaksAWorkingFile d (locate r.root path) text = none
  ungutted : ((d.content (locate r.root path)).bind fun b => r.gutting (readReplace b) text) = none
  inside : validate r.root path = .ok target
  file : d.isFile target = true
  differs : (readTextOf d target).toOption.getD [] ≠ text

variable {d : FS} {filepath content path text : Text} {target : Path}

/-- Without `overwrite` such a write is refused, with it it is planned. -/
theorem Replaces.plans (h : r.Replaces d filepath content path target text) :
    r.writePlan d filepath content true = .ok (.write path target text false) ∧
      ∃ reply, r.writePlan d filepath content false = .ok (.reply reply) ∧ reply.ok = false := by
  obtain ⟨x, hx, hscope, rfl, hne⟩ := h.resolved
  obtain ⟨hread, hdry⟩ := h.changes
  have hdir : d.isDir target = false := by
    by_contra hdir
    have hfile := h.file
    rw [Disk.isFile_eq_false_of_isDir (by simpa using hdir)] at hfile
    cases hfile
  have hplan : ∀ overwrite, r.writePlan d filepath content overwrite
      = if overwrite then .ok (.write (normalizeWorkspacePath x) target text false)
        else .ok (.reply { ok := false, filepath := normalizeWorkspacePath x, message :=
          "File already exists. Set overwrite=true if overwriting is intended." }) := by
    intro overwrite
    unfold writePlan
    rw [if_neg (by simp [hread]), hx]
    dsimp only [bind, Except.bind]
    rw [hscope]
    dsimp only
    rw [if_neg (by simp [hdry]), if_neg hne, if_neg h.filled, ← h.unwrapped]
    rw [h.unbroken]
    dsimp only
    rw [h.ungutted]
    dsimp only
    rw [h.inside]
    unfold guarded
    dsimp only
    rw [if_neg (by simp [hdir]), if_pos h.file]
    cases overwrite with
    | true => rw [if_pos rfl, if_neg h.differs, if_pos rfl]; rfl
    | false => rw [if_neg (by simp), if_neg (by simp)]; rfl
  exact ⟨hplan true, _, hplan false, rfl⟩

/-- Any other write is the same with and without, or refused with and without. -/
theorem writePlan_cases (r : Registry) (d : FS) (filepath content : Text) :
    r.writePlan d filepath content false = r.writePlan d filepath content true ∨
    (∃ reply reply', r.writePlan d filepath content false = .ok (.reply reply) ∧
      r.writePlan d filepath content true = .ok (.reply reply') ∧ reply.ok = reply'.ok) ∨
    ∃ path target text, r.Replaces d filepath content path target text := by
  -- before it is known that the file is there, `overwrite` is not looked at
  have same : (∃ res, ∀ overwrite, r.writePlan d filepath content overwrite = res) →
      r.writePlan d filepath content false = r.writePlan d filepath content true :=
    fun ⟨_, h⟩ => (h false).trans (h true).symm
  by_cases hread : r.readOnly = true
  · exact Or.inl (same ⟨_, fun overwrite => by rw [writePlan, if_pos hread]⟩)
  cases hx : r.resolvedReadPath d (r.scopedWritePath filepath) with
  | error e =>
    exact Or.inl (same ⟨.error e, fun overwrite => by rw [writePlan, if_neg hread, hx]; rfl⟩)
  | ok x =>
  cases hscope : r.outsideAllowedScope d x with
  | some refusal =>
    exact Or.inl (same ⟨_, fun overwrite => by
      simp only [writePlan, if_neg hread, hx, bind, Except.bind, hscope]; rfl⟩)
  | none =>
  by_cases hdry : r.dryRun = true
  · exact Or.inl (same ⟨_, fun overwrite => by
      simp only [writePlan, if_neg hread, hx, bind, Except.bind, hscope, if_pos hdry]; rfl⟩)
  clear same
  simp only [writePlan, if_neg hread, hx, bind, Except.bind, hscope, if_neg hdry]
  by_cases hne : normalizeWorkspacePath x = []
  · simp only [if_pos hne, true_or]
  by_cases hfilled : isBlank content = true ∧
      nameOf (normalizeWorkspacePath x) ≠ "__init__.py".toList
  · simp only [if_neg hne, if_pos hfilled, true_or]
  simp only [if_neg hne, if_neg hfilled]
  cases hbroken : r.breaksAWorkingFile d (locate r.root (normalizeWorkspacePath x))
      ((r.unwrap content).getD content) with
  | some broken => exact Or.inl rfl
  | none =>
  cases hgutted : (d.content (locate r.root (normalizeWorkspacePath x))).bind fun bytes =>
      r.gutting (readReplace bytes) ((r.unwrap content).getD content) with
  | some gutted => exact Or.inl rfl
  | none =>
  cases hv : validate r.root (normalizeWorkspacePath x) with
  | error e => exact Or.inl rfl
  | ok target =>
  simp only [guarded]
  by_cases hdir : d.isDir target = true
  · simp only [if_pos hdir, true_or]
  by_cases hfile : d.isFile target = true
  · right
    by_cases hsame : (readTextOf d target).toOption.getD [] = (r.unwrap content).getD content
    · simp only [if_neg hdir, if_pos hfile, if_pos hsame]
      exact Or.inl ⟨_, _, rfl, rfl, rfl⟩
    · exact Or.inr ⟨_, target, _, ⟨eq_false_of_ne_true hread, eq_false_of_ne_true hdry⟩,
        ⟨x, hx, hscope, rfl, hne⟩, hfilled, rfl, hbroken, hgutted, hv, hfile, hsame⟩
  · simp only [if_neg hdir, if_neg hfile, true_or]

/-- What is planned as a write creates a file, or replaces one that may be overwritten. -/
theorem writePlan_write {overwrite create : Bool}
    (h : r.writePlan d filepath content overwrite = .ok (.write path target text create)) :
    (∃ x, r.resolvedReadPath d (r.scopedWritePath filepath) = .ok x ∧
        path = normalizeWorkspacePath x) ∧
      ((create = true ∧ d.isFile target = false ∧ d.isDir target = false) ∨
        (create = false ∧ overwrite = true ∧ r.Replaces d filepath content path target text)) := by
  unfold writePlan at h
  rcases plan_else h with he | ⟨hread, h⟩
  · cases he
  obtain ⟨x, hx, h⟩ := result_bind_ok.mp h
  split at h
  · cases h
  next hscope =>
  rcases plan_else h with he | ⟨hdry, h⟩
  · cases he
  rcases plan_else h with he | ⟨hne, h⟩
  · cases he
  rcases plan_else h with he | ⟨hfilled, h⟩
  · cases he
  dsimp only at h
  split at h
  · cases h
  next hbroken =>
  split at h
  · cases h
  next hgutted =>
  rcases plan_guarded h with ⟨_, he⟩ | ⟨t, hv, h⟩
  · cases he
  rcases plan_else h with he | ⟨hdir, h⟩
  · cases he
  by_cases hfile : d.isFile t = true
  · rw [if_pos hfile] at h
    rcases plan_then h with he | ⟨how, h⟩
    · cases he
    rcases plan_else h with he | ⟨hsame, h⟩
    · cases he
    cases h
    exact ⟨⟨x, hx, rfl⟩, Or.inr ⟨rfl, how,
      ⟨eq_false_of_ne_true hread, eq_false_of_ne_true hdry⟩,
      ⟨x, hx, hscope, rfl, hne⟩, hfilled, rfl, hbroken, hgutted, hv, hfile, hsame⟩⟩
  · rw [if_neg hfile] at h
    rcases plan_then h with he | ⟨_, h⟩
    · cases he
    obtain ⟨rfl, rfl, -, rfl⟩ := Plan.write.inj (Except.ok.inj h)
    exact ⟨⟨x, hx, rfl⟩,
      Or.inl ⟨rfl, eq_false_of_ne_true hfile, eq_false_of_ne_true hdir⟩⟩

/-- The user agrees to the write and a copy of the file can be kept. -/
def Keeps (r : Registry) (stamp : Stamp) (path : Text) (w : World) : Prop :=
  ∃ w', (do let _ ← r.approved .fileEdit [path]; r.keepCopy stamp path) w = (.ok (), w')

/-- With the user's yes, such a write returns ok exactly when its copy is kept,
and otherwise it changes no file. -/
theorem Replaces.returned (stamp : Stamp)
    (hyes : ∀ request, (ask r.engine.prompts w.memory request).1 = true)
    (h : r.Replaces w.disk filepath content path target text) :
    ((returned (r.writeFile stamp filepath content true) w).1 = true ↔ r.Keeps stamp path w) ∧
      ((returned (r.writeFile stamp filepath content true) w).1 = false →
        SameFiles w.disk (returned (r.writeFile stamp filepath content true) w).2.disk) := by
  obtain ⟨hplan, -⟩ := h.plans
  obtain ⟨w₁, hask, hdisk⟩ : ∃ w₁, r.approved .fileEdit [path] w = (.ok true, w₁) ∧
      w₁.disk = w.disk := by
    refine ⟨(r.approved .fileEdit [path] w).2, ?_, rfl⟩
    rw [← hyes ⟨.fileEdit, [path]⟩]
    rfl
  have hrun : r.writeFile stamp filepath content true w
      = (r.commitWrite stamp path target text false >>= fun _ =>
          pure { ok := true, message := s!"Wrote {str path}.", filepath := path }) w₁ := by
    have hcall : r.call stamp (.writeFile filepath content true) w = _ := call_of_ok hplan
    have hask' : r.approved (if false = true then .fileWrite else .fileEdit) [path] w
        = (.ok true, w₁) := hask
    rw [carryOut, Prog.bind_of_ok hask'] at hcall
    exact hcall
  have hkeeps : r.Keeps stamp path w ↔
      ∃ w', r.commitWrite stamp path target text false w₁ = (.ok (), w') := by
    unfold Keeps
    rw [Prog.bind_of_ok hask]
    exact (commitWrite_iff_kept h.inside (hdisk ▸ h.file)).symm
  rw [hkeeps]
  unfold Registry.returned
  rw [hrun]
  cases hcommit : r.commitWrite stamp path target text false w₁ with
  | mk res w₂ =>
    cases res with
    | ok =>
      rw [Prog.bind_of_ok hcommit]
      exact ⟨iff_of_true rfl ⟨w₂, rfl⟩, fun hno => by cases hno⟩
    | error e =>
      rw [Prog.bind_of_error hcommit]
      refine ⟨iff_of_false (by simp) ?_, fun _ => ?_⟩
      · intro hsome
        obtain ⟨w', h⟩ := hsome
        cases h
      · have := commitWrite_error h.inside hcommit
        rwa [hdisk] at this

/-- The writes the alias performs and the tool refuses: `overwrite` is off, and
nothing else stops the write. -/
def Forces (r : Registry) (render : Render) (stamp : Stamp) (tool : PatchTool) (args : Dict)
    (w : World) : Prop :=
  tool = .writeFile ∧ asBool render r.casing (dictGet args "overwrite") true = false ∧
    ∃ path target text, r.Replaces w.disk (argument render args "filepath")
      (argument render args "content") path target text ∧ r.Keeps stamp path w

/-- **The alias agrees with its tool** but for the writes that it forces. -/
theorem alias_agrees_iff (r : Registry) (render : Render) (stamp : Stamp) (tool : PatchTool)
    (args : Dict) (w : World)
    (hyes : ∀ request, (ask r.engine.prompts w.memory request).1 = true) :
    Agree r.root (returned (r.executeLowLevel render stamp tool args) w)
        (returned (r.executeLogical render stamp tool args) w) ↔
      ¬ r.Forces render stamp tool args w := by
  by_cases htool : tool = .writeFile
  swap
  · rw [executeLogical_eq htool]
    exact iff_of_true (Agree.refl _) fun h => htool h.1
  subst htool
  rw [executeLogical_write]
  unfold executeLowLevel Forces
  dsimp only
  cases hover : asBool render r.casing (dictGet args "overwrite") true with
  | true => exact iff_of_true (Agree.refl _) fun h => by cases h.2.1
  | false =>
    generalize argument render args "filepath" = filepath
    generalize argument render args "content" = content
    have hreply : ∀ {overwrite reply},
        r.writePlan w.disk filepath content overwrite = .ok (.reply reply) →
          returned (r.writeFile stamp filepath content overwrite) w = (reply.ok, w) := by
      intro overwrite reply hplan
      have hcall : r.writeFile stamp filepath content overwrite w = (.ok reply, w) :=
        call_of_ok (c := .writeFile filepath content overwrite) hplan
      unfold Registry.returned
      rw [hcall]
    by_cases hrep : ∃ path target text, r.Replaces w.disk filepath content path target text
    · obtain ⟨path, target, text, h⟩ := hrep
      obtain ⟨hplan, reply, hrefused, hno⟩ := h.plans
      obtain ⟨hok, hsame⟩ := h.returned stamp hyes
      rw [hreply hrefused, hno]
      constructor
      · intro hsome hgiven
        obtain ⟨hflag, _⟩ := hsome
        obtain ⟨_, _, path', target', text', h', hkeeps⟩ := hgiven
        -- the plan tells what is written
        obtain ⟨hplan', -⟩ := h'.plans
        rw [hplan] at hplan'
        cases hplan'
        rw [hok.mpr hkeeps] at hflag
        cases hflag
      · intro hnot
        have hfalse : (returned (r.writeFile stamp filepath content true) w).1 = false :=
          eq_false_of_ne_true fun htrue =>
            hnot ⟨rfl, rfl, path, target, text, h, hok.mp htrue⟩
        exact ⟨hfalse.symm, fun p _ => (hsame hfalse p).symm⟩
    · refine iff_of_true ?_ fun ⟨_, _, path, target, text, h, _⟩ => hrep ⟨path, target, text, h⟩
      rcases writePlan_cases r w.disk filepath content with hsame | ⟨reply, reply', h, h', hok⟩ | h
      · have hrun : r.writeFile stamp filepath content false w
            = r.writeFile stamp filepath content true w := by
          unfold writeFile perform
          rw [Prog.bind_apply, Prog.bind_apply]
          simp only [Prog.read, hsame]
        unfold Registry.returned
        rw [hrun]
        exact Agree.refl _
      · rw [hreply h, hreply h', hok]
        exact Agree.refl _
      · exact absurd h hrep

/-- The registry of a session without a scope. -/
def anyPath : Registry := { notesOnly with allowedWritePaths := none }

/-- The arguments of a `write_file` call. -/
def writeArgs (overwrite : Bool) : Dict :=
  [("filepath".toList, .str "a.txt".toList), ("content".toList, .str "b".toList),
    ("overwrite".toList, .bool overwrite)]

theorem anyPath_agrees (request : ApprovalRequest) :
    (ask anyPath.engine.prompts none request).1 = true := by
  simp [ask, anyPath, notesOnly, Engine.agreeable]

/-- A write that may overwrite. -/
theorem alias_agrees_overwrite :
    Agree anyPath.root
      (returned (anyPath.executeLowLevel (fun _ => []) ⟨['t'], ['1']⟩ .writeFile (writeArgs true))
        (World.ofFiles [("a.txt", "a")]))
      (returned (anyPath.executeLogical (fun _ => []) ⟨['t'], ['1']⟩ .writeFile (writeArgs true))
        (World.ofFiles [("a.txt", "a")])) :=
  (alias_agrees_iff anyPath (fun _ => []) ⟨['t'], ['1']⟩ .writeFile (writeArgs true)
    (World.ofFiles [("a.txt", "a")]) anyPath_agrees).mpr fun h => by
      have hoff := h.2.1
      revert hoff
      decide

/-- One that may not is refused, and made all the same through its alias. -/
theorem alias_overwrites :
    ¬ Agree anyPath.root
      (returned (anyPath.executeLowLevel (fun _ => []) ⟨['t'], ['1']⟩ .writeFile (writeArgs false))
        (World.ofFiles [("a.txt", "a")]))
      (returned (anyPath.executeLogical (fun _ => []) ⟨['t'], ['1']⟩ .writeFile (writeArgs false))
        (World.ofFiles [("a.txt", "a")])) := by
  intro h
  have hfile := h.2 ["ws".toList, "a.txt".toList] (by decide)
  revert hfile
  decide

end Registry

end Shamsu.Tools
