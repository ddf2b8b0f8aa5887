import Shamsu.Lib.Run
import Shamsu.Py.Search
import Shamsu.Tools.Scope

/-!
# The write scope of a task contract

`shamsu/plans/contracts.py`: `validate_contract` compares the allowed, the expected and the
forbidden paths of a contract, and `request_scope_expansion` adds a path to the allowed and the
expected ones.

Validation asks for no forbidden path inside an allowed one, the expansion for no forbidden path
that is written like the one it adds. Neither asks what lies inside a forbidden directory, and the
expansion does not ask what validation does: `sound_run_iff` says which requests keep a contract
sound, over any number of them.
-/

namespace Shamsu.Tasks.WriteScope

open Shamsu.Lib Shamsu.Py Shamsu.Safety Shamsu.Tools

/-! ## Contracts -/

structure ScopeDecision where
  path : Text
  reason : Text
  source : String
  deriving DecidableEq, Repr

/-- `FilePreflightResult`, as far as an expansion changes it. -/
structure FilePreflightResult where
  selectedFiles : List Text
  allowedWritePaths : List Text
  expectedWritePaths : List Text
  rationale : List ScopeDecision
  deriving DecidableEq, Repr

structure TaskContract where
  taskId : Text
  runId : Text
  objective : Text
  candidateFiles : List Text
  allowedWritePaths : List Text
  expectedWritePaths : List Text
  forbiddenPaths : List Text
  acceptanceCriteria : List Text
  verificationRequirements : List Text
  fileSelectionRationale : List ScopeDecision
  preflight : Option FilePreflightResult
  deriving DecidableEq, Repr

/-- `_normalize_hint`. -/
def normalizeHint (path : Text) : Text :=
  (posixText (strip path)).dropWhile fun c => c == '.' || c == '/'

/-- One turn of the loop of `_dedupe`. -/
def dedupeStep (out : List Text) (value : Text) : List Text :=
  if normalizeHint value ≠ [] ∧ normalizeHint value ∉ out then out ++ [normalizeHint value]
  else out

/-- `_dedupe`. -/
def dedupe (values : List Text) : List Text := values.foldl dedupeStep []

/-- One turn of the loop of `_normalize_paths`: the paths and the errors. -/
def normalizeStep (root : Path) (label : String) (acc : List Text × List String) (raw : Text) :
    List Text × List String :=
  let path := normalizeHint raw
  if path = [] then acc
  else
    match validate root path with
    | .error exc =>
      (acc.1, acc.2 ++ [s!"{label}: {str path} is outside workspace ({exc.message})"])
    | .ok resolved =>
      let normalized := posix (relativeTo root resolved)
      if normalized ∉ acc.1 then (acc.1 ++ [normalized], acc.2) else acc

/-- `_normalize_paths`. -/
def normalizePaths (root : Path) (label : String) (paths : List Text) : List Text × List String :=
  paths.foldl (normalizeStep root label) ([], [])

/-- `_path_in_scope`. -/
def pathInScope (path : Text) (allowed : List Text) : Bool := allowed.any (covers path ·)

/-- `validate_contract`: the errors. -/
def validateContract (root : Path) (c : TaskContract) : List String :=
  let id := str c.taskId
  let allowed := normalizePaths root "allowed_write_paths" c.allowedWritePaths
  let expected := normalizePaths root "expected_write_paths" c.expectedWritePaths
  let forbidden := normalizePaths root "forbidden_paths" c.forbiddenPaths
  (if c.taskId = [] then ["task_id is required"] else []) ++
    (if c.runId = [] then ["run_id is required"] else []) ++
    (if strip c.objective = [] then [s!"{id}: objective is required"] else []) ++
    (if c.acceptanceCriteria = [] then [s!"{id}: acceptance_criteria is required"] else []) ++
    (if c.verificationRequirements = [] then
      [s!"{id}: verification_requirements is required"] else []) ++
    allowed.2 ++ expected.2 ++ forbidden.2 ++
    (expected.1.filter fun path => allowed.1 ≠ [] && !pathInScope path allowed.1).map
      (fun path => s!"{id}: expected path {str path} is outside allowed_write_paths") ++
    (forbidden.1.filter fun path => pathInScope path allowed.1).map
      fun path => s!"{id}: forbidden path {str path} conflicts with allowed_write_paths"

structure ScopeExpansionResult where
  ok : Bool
  contract : TaskContract
  message : String
  path : Text

/-- What a request that is approved does to the contract. -/
def TaskContract.widen (c : TaskContract) (normalized reason : Text) : TaskContract :=
  let allowed := dedupe (c.allowedWritePaths ++ [normalized])
  let expected := dedupe (c.expectedWritePaths ++ [normalized])
  let rationale :=
    c.fileSelectionRationale ++ [⟨normalized, (strip reason).take 300, "scope_expansion"⟩]
  { c with
    allowedWritePaths := allowed
    expectedWritePaths := expected
    candidateFiles := dedupe (c.candidateFiles ++ [normalized])
    fileSelectionRationale := rationale
    preflight := c.preflight.map fun _ => ⟨allowed, allowed, expected, rationale⟩ }

/-- `request_scope_expansion`: `none` is the `IndexError` of a path that is normalised to
nothing the second time. -/
def requestScopeExpansion (root : Path) (c : TaskContract) (path reason : Text) :
    Option ScopeExpansionResult :=
  let hint := normalizeHint path
  if hint = [] then some ⟨false, c, "Scope expansion rejected: missing path.", []⟩
  else
    let checked := normalizePaths root "scope_expansion" [hint]
    if checked.2 ≠ [] then
      some ⟨false, c, "Scope expansion rejected: " ++ "; ".intercalate checked.2, hint⟩
    else
      match checked.1 with
      | [] => none
      | normalized :: _ =>
        if normalized ∈ c.forbiddenPaths then
          some ⟨false, c, s!"Scope expansion rejected: {str normalized} is forbidden.", normalized⟩
        else if strip reason = [] then
          some ⟨false, c, "Scope expansion rejected: reason is required.", normalized⟩
        else if normalized ∈ c.allowedWritePaths then
          some ⟨true, c, s!"{str normalized} is already in the locked write scope.", normalized⟩
        else
          some ⟨true, c.widen normalized reason,
            s!"Scope expansion approved for {str normalized}.", normalized⟩

/-- A request: the path and the reason. -/
structure Request where
  path : Text
  reason : Text

/-- The contract after a request. -/
def expand (root : Path) (c : TaskContract) (r : Request) : TaskContract :=
  ((requestScopeExpansion root c r.path r.reason).map (·.contract)).getD c

/-! ## Places -/

/-- Where a path of a contract leads: the names below the root. -/
def placeOf (root : Path) (x : Text) : Option (List Text) :=
  match validate root (normalizeHint x) with
  | .ok target => some (relativeTo root target)
  | .error _ => none

/-- `r` is where one of the paths leads. -/
def Leads (root : Path) (paths : List Text) (r : List Text) : Prop :=
  ∃ x ∈ paths, normalizeHint x ≠ [] ∧ placeOf root x = some r

/-- Each of the paths leads somewhere in the workspace. -/
def Placed (root : Path) (paths : List Text) : Prop :=
  ∀ x ∈ paths, normalizeHint x ≠ [] → ∃ r, placeOf root x = some r

/-- `r` is in the scope of the place `a`: it is that place, or below it where it is not the
workspace itself. -/
def InScope (a r : List Text) : Prop := r = a ∨ (a ≠ [] ∧ a <+: r)

/-- Normalising the paths once more changes none. -/
def Settled (paths : List Text) : Prop :=
  ∀ x ∈ paths, normalizeHint (normalizeHint x) = normalizeHint x

/-- No allowed path equals a forbidden one, or lies inside it. -/
def Safe (root : Path) (c : TaskContract) : Prop :=
  ∀ r i, Leads root c.allowedWritePaths r → Leads root c.forbiddenPaths i → ¬ i <+: r

/-- A contract that validates, is safe, and whose paths are settled. -/
structure Sound (root : Path) (c : TaskContract) : Prop where
  valid : validateContract root c = []
  safe : Safe root c
  allowed : Settled c.allowedWritePaths
  expected : Settled c.expectedWritePaths

/-- The path that a request gets through the checks of `request_scope_expansion`. -/
def Granted (root : Path) (c : TaskContract) (r : Request) (normalized : Text) : Prop :=
  (∃ place, Leads root [normalizeHint r.path] place ∧ normalized = posix place) ∧
    normalized ∉ c.forbiddenPaths ∧ strip r.reason ≠ [] ∧ normalized ∉ c.allowedWritePaths

/-- What the path must meet: normalised once more it leads to a place that is neither inside nor
around a forbidden one, and that has all the expected ones where nothing is allowed yet. -/
structure Fits (root : Path) (c : TaskContract) (normalized : Text) : Prop where
  settled : Settled [normalizeHint normalized]
  placed : Placed root [normalizeHint normalized]
  clear : ∀ r, Leads root [normalizeHint normalized] r → ∀ i, Leads root c.forbiddenPaths i →
    ¬ i <+: r ∧ ¬ InScope r i
  covers : ∀ r, Leads root [normalizeHint normalized] r → (∀ a, ¬ Leads root c.allowedWritePaths a) →
    ∀ e, Leads root c.expectedWritePaths e → InScope r e

/-- The condition on a request, in the contract that it finds. -/
def Fitting (root : Path) (c : TaskContract) (r : Request) : Prop :=
  ∀ normalized, Granted root c r normalized → Fits root c normalized

/-! ## What the loops find -/

section Places

variable {root : Path} {paths values : List Text} {x t : Text} {r a : List Text}

theorem leads_nil : ¬ Leads root [] r := by
  intro h
  obtain ⟨x, hx, _⟩ := h
  cases hx

theorem leads_cons : Leads root (x :: paths) r ↔
    (normalizeHint x ≠ [] ∧ placeOf root x = some r) ∨ Leads root paths r := by
  simp [Leads]

theorem leads_singleton :
    Leads root [x] r ↔ normalizeHint x ≠ [] ∧ placeOf root x = some r := by
  rw [leads_cons, or_iff_left leads_nil]

theorem placed_cons : Placed root (x :: paths) ↔
    (normalizeHint x ≠ [] → ∃ r, placeOf root x = some r) ∧ Placed root paths :=
  List.forall_mem_cons

theorem normalizeStep_blank {label : String} {acc : List Text × List String}
    (h : normalizeHint x = []) : normalizeStep root label acc x = acc := if_pos h

theorem normalizeStep_ok {label : String} {acc : List Text × List String}
    (h : normalizeHint x ≠ []) (hr : placeOf root x = some r) :
    normalizeStep root label acc x =
      if posix r ∉ acc.1 then (acc.1 ++ [posix r], acc.2) else acc := by
  unfold placeOf at hr
  unfold normalizeStep
  rw [if_neg h]
  split at hr
  next target htarget =>
    rw [Option.some_inj.mp hr.symm, htarget]
  next => cases hr

theorem normalizeStep_error (label : String) (acc : List Text × List String)
    (h : normalizeHint x ≠ []) (hr : placeOf root x = none) :
    ∃ message, normalizeStep root label acc x = (acc.1, acc.2 ++ [message]) := by
  unfold placeOf at hr
  unfold normalizeStep
  rw [if_neg h]
  split at hr
  next => cases hr
  next exc hexc =>
    rw [hexc]
    exact ⟨_, rfl⟩

theorem exists_place_cons {P : List Text → Prop} : (∃ r, Leads root (x :: paths) r ∧ P r) ↔
    (∃ r, Leads root [x] r ∧ P r) ∨ ∃ r, Leads root paths r ∧ P r := by
  simp only [@leads_cons root paths, leads_singleton, or_and_right, exists_or]

/-- One path: its place is among the paths after it, and without one there is an error. -/
theorem normalizeStep_spec {label : String} (acc : List Text × List String) (x : Text) :
    (∀ t, t ∈ (normalizeStep root label acc x).1 ↔
      t ∈ acc.1 ∨ ∃ r, Leads root [x] r ∧ t = posix r) ∧
    ((normalizeStep root label acc x).2 = [] ↔ acc.2 = [] ∧ Placed root [x]) := by
  have hsingle : Placed root [x] ↔ (normalizeHint x ≠ [] → ∃ r, placeOf root x = some r) :=
    List.forall_mem_singleton
  by_cases hx : normalizeHint x = []
  · rw [normalizeStep_blank hx, hsingle]
    refine ⟨fun t => (or_iff_left ?_).symm, (and_iff_left fun h => absurd hx h).symm⟩
    intro h
    obtain ⟨r, hr, _⟩ := h
    exact (leads_singleton.mp hr).1 hx
  · cases hr : placeOf root x with
    | none =>
      obtain ⟨message, hstep⟩ := normalizeStep_error label acc hx hr
      rw [hstep, hsingle]
      constructor
      · intro t
        refine (or_iff_left ?_).symm
        intro h
        obtain ⟨r, hleads, _⟩ := h
        rw [leads_singleton, hr] at hleads
        cases hleads.2
      · constructor
        · intro h
          exact absurd h (List.append_ne_nil_of_right_ne_nil _ (List.cons_ne_nil _ _))
        · intro h
          obtain ⟨r, hplace⟩ := h.2 hx
          rw [hr] at hplace
          cases hplace
    | some r =>
      have hplace : ∀ t, (∃ r, Leads root [x] r ∧ t = posix r) ↔ t = posix r := by
        intro t
        constructor
        · intro h
          obtain ⟨r', hleads, ht⟩ := h
          rw [leads_singleton, hr] at hleads
          rw [ht, Option.some_inj.mp hleads.2]
        · intro ht
          exact ⟨r, leads_singleton.mpr ⟨hx, hr⟩, ht⟩
      rw [normalizeStep_ok hx hr, hsingle]
      by_cases hmem : posix r ∈ acc.1
      · -- the place is there already
        rw [if_neg (not_not_intro hmem)]
        refine ⟨fun t => ?_, (and_iff_left fun _ => ⟨r, hr⟩).symm⟩
        rw [hplace]
        refine (or_iff_left_of_imp ?_).symm
        intro ht
        rwa [ht]
      · rw [if_pos hmem]
        refine ⟨fun t => ?_, (and_iff_left fun _ => ⟨r, hr⟩).symm⟩
        rw [hplace, List.mem_append, List.mem_singleton]

/-- The loop of `_normalize_paths`. -/
theorem normalize_loop {label : String} (acc : List Text × List String) (l : List Text) :
    (∀ t, t ∈ (l.foldl (normalizeStep root label) acc).1 ↔
      t ∈ acc.1 ∨ ∃ r, Leads root l r ∧ t = posix r) ∧
    ((l.foldl (normalizeStep root label) acc).2 = [] ↔ acc.2 = [] ∧ Placed root l) := by
  induction l generalizing acc with
  | nil =>
    refine ⟨fun t => (or_iff_left ?_).symm, (and_iff_left ?_).symm⟩
    · intro h
      exact leads_nil h.choose_spec.1
    · exact fun x hx => absurd hx List.not_mem_nil
  | cons x l ih =>
    obtain ⟨hmem, herrors⟩ := ih (normalizeStep root label acc x)
    obtain ⟨hone, honeErrors⟩ := @normalizeStep_spec root label acc x
    rw [List.foldl_cons]
    refine ⟨fun t => ?_, ?_⟩
    · rw [hmem, hone, or_assoc, ← exists_place_cons]
    · rw [herrors, honeErrors, and_assoc, @placed_cons root l]
      exact and_congr_right fun _ => and_congr_left fun _ => List.forall_mem_singleton

theorem mem_normalizePaths {label : String} :
    t ∈ (normalizePaths root label paths).1 ↔ ∃ r, Leads root paths r ∧ t = posix r :=
  ((normalize_loop ([], []) paths).1 t).trans (or_iff_right List.not_mem_nil)

theorem normalizePaths_errors {label : String} :
    (normalizePaths root label paths).2 = [] ↔ Placed root paths :=
  (normalize_loop ([], []) paths).2.trans (and_iff_right rfl)

theorem normalizePaths_eq_nil {label : String} :
    (normalizePaths root label paths).1 = [] ↔ ∀ r, ¬ Leads root paths r := by
  rw [List.eq_nil_iff_forall_not_mem]
  simp only [mem_normalizePaths]
  constructor
  · intro h r hr
    exact h (posix r) ⟨r, hr, rfl⟩
  · intro h t ht
    obtain ⟨r, hr, _⟩ := ht
    exact h r hr

/-- The loop of `_dedupe`. -/
theorem mem_dedupe_loop (out l : List Text) :
    t ∈ l.foldl dedupeStep out ↔ t ∈ out ∨ (t ≠ [] ∧ ∃ x ∈ l, normalizeHint x = t) := by
  induction l generalizing out with
  | nil =>
    refine (or_iff_left ?_).symm
    intro h
    obtain ⟨_, x, hx, _⟩ := h
    cases hx
  | cons x l ih =>
    have hstep : t ∈ dedupeStep out x ↔ t ∈ out ∨ (t ≠ [] ∧ normalizeHint x = t) := by
      unfold dedupeStep
      by_cases hnew : normalizeHint x ≠ [] ∧ normalizeHint x ∉ out
      · rw [if_pos hnew, List.mem_append, List.mem_singleton]
        refine or_congr_right ⟨fun ht => ⟨ht ▸ hnew.1, ht.symm⟩, fun h => h.2.symm⟩
      · rw [if_neg hnew]
        refine (or_iff_left_of_imp ?_).symm
        intro h
        by_contra hmem
        rw [h.2] at hnew
        exact hnew ⟨h.1, hmem⟩
    rw [List.foldl_cons, ih, hstep, or_assoc, ← and_or_left]
    simp

theorem mem_dedupe : t ∈ dedupe values ↔ t ≠ [] ∧ ∃ x ∈ values, normalizeHint x = t :=
  (mem_dedupe_loop [] values).trans (or_iff_right List.not_mem_nil)

/-! ## Scopes and places -/

theorem posix_injective (hr : ∀ n ∈ r, IsName n) (ha : ∀ n ∈ a, IsName n)
    (h : posix r = posix a) : r = a := by
  rw [← parts_posix hr, h, parts_posix ha]

/-- The text of a place ends in its last name. -/
theorem posix_ends (init : List Text) (n : Text) : ∃ before, posix (init ++ [n]) = before ++ n := by
  cases init with
  | nil => exact ⟨[], by simp [posix, join_singleton]⟩
  | cons m init =>
    refine ⟨join '/' (m :: init) ++ ['/'], ?_⟩
    unfold posix
    rw [if_neg (by simp), join_append (by simp) (by simp), join_singleton]
    simp

theorem rstripSlash_snoc {s : Text} {c : Char} (h : c ≠ '/') : rstripSlash (s ++ [c]) = s ++ [c] :=
  List.rdropWhile_concat_neg _ _ _ (by simpa using h)

theorem rstripSlash_posix (ha : ∀ n ∈ a, IsName n) : rstripSlash (posix a) = posix a := by
  rcases List.eq_nil_or_concat a with rfl | ⟨init, n, rfl⟩
  · rfl
  · rw [List.concat_eq_append] at ha ⊢
    obtain ⟨hn, _, _, hno, _⟩ := ha n (by simp)
    obtain ⟨before, hbefore⟩ := posix_ends init n
    rcases List.eq_nil_or_concat n with hnil | ⟨m, c, rfl⟩
    · exact absurd hnil hn
    · rw [hbefore, List.concat_eq_append, ← List.append_assoc]
      apply rstripSlash_snoc
      intro hc
      rw [hc] at hno
      exact hno (by simp)

/-- The text of a place starts with its first name. -/
theorem posix_opens (n : Text) (names : List Text) : ∃ rest, posix (n :: names) = n ++ rest := by
  unfold posix
  rw [if_neg (List.cons_ne_nil _ _)]
  cases names with
  | nil => exact ⟨[], by rw [join_singleton, List.append_nil]⟩
  | cons m names => exact ⟨_, join_cons_cons n m names⟩

/-- No place starts with a dot and a slash. -/
theorem posix_no_dot (hr : ∀ n ∈ r, IsName n) (s : Text) : posix r ≠ '.' :: '/' :: s := by
  intro h
  cases r with
  | nil => cases h
  | cons n r =>
    obtain ⟨hn, hdot, _, hslash, _⟩ := hr n List.mem_cons_self
    obtain ⟨rest, hrest⟩ := posix_opens n r
    rw [hrest] at h
    match n, hn with
    | [c], _ => exact hdot (by rw [(List.cons.inj h).1])
    | c :: d :: n, _ =>
      have hd : d = '/' := (List.cons.inj (List.cons.inj h).2).1
      exact hslash (by rw [hd]; simp)

/-- `_path_in_scope`, for two places. -/
theorem covers_posix (hr : ∀ n ∈ r, IsName n) (ha : ∀ n ∈ a, IsName n) :
    covers (posix r) (posix a) = true ↔ InScope a r := by
  unfold covers
  rw [rstripSlash_posix ha, Bool.or_eq_true, beq_iff_eq, List.isPrefixOf_iff_prefix]
  constructor
  · intro h
    rcases h with heq | hprefix
    · exact Or.inl (posix_injective hr ha heq)
    · -- behind the slash are the parts of the place that the scope does not have
      obtain ⟨s, hs⟩ := hprefix
      have hparts : r = parts (posix a) ++ parts s := by
        rw [← parts_posix hr, ← hs, List.append_assoc, List.singleton_append, parts_append_cons]
      cases a with
      | nil =>
        exact absurd hs.symm (posix_no_dot hr s)
      | cons m a =>
        rw [parts_posix ha] at hparts
        exact Or.inr ⟨List.cons_ne_nil _ _, by rw [hparts]; exact List.prefix_append _ _⟩
  · intro h
    rcases h with rfl | ⟨hne, hprefix⟩
    · exact Or.inl rfl
    · obtain ⟨s, rfl⟩ := hprefix
      cases s with
      | nil => exact Or.inl (by rw [List.append_nil])
      | cons n s =>
        refine Or.inr ⟨join '/' (n :: s), ?_⟩
        unfold posix
        rw [if_neg hne, if_neg (by simp [hne]), join_append hne (List.cons_ne_nil _ _)]
        simp

/-- A place is of names. -/
theorem isName_placeOf (hroot : ∀ n ∈ root, IsName n) (h : placeOf root x = some r) :
    ∀ n ∈ r, IsName n := by
  unfold placeOf at h
  split at h
  next target htarget =>
    obtain ⟨s, rfl, hs⟩ := names_of_validate hroot htarget
    rw [relativeTo_append] at h
    rwa [← Option.some_inj.mp h]
  next => cases h

theorem Leads.names (hroot : ∀ n ∈ root, IsName n) (h : Leads root paths r) :
    ∀ n ∈ r, IsName n := by
  obtain ⟨x, _, _, hr⟩ := h
  exact isName_placeOf hroot hr

/-- A place in the scope of paths. -/
theorem pathInScope_iff (hroot : ∀ n ∈ root, IsName n) {label : String}
    (hr : ∀ n ∈ r, IsName n) :
    pathInScope (posix r) (normalizePaths root label paths).1 = true ↔
      ∃ a, Leads root paths a ∧ InScope a r := by
  unfold pathInScope
  rw [List.any_eq_true]
  constructor
  · intro h
    obtain ⟨item, hitem, hcovers⟩ := h
    obtain ⟨a, ha, rfl⟩ := mem_normalizePaths.mp hitem
    exact ⟨a, ha, (covers_posix hr (ha.names hroot)).mp hcovers⟩
  · intro h
    obtain ⟨a, ha, hscope⟩ := h
    exact ⟨posix a, mem_normalizePaths.mpr ⟨a, ha, rfl⟩,
      (covers_posix hr (ha.names hroot)).mpr hscope⟩

theorem pathInScope_places (hroot : ∀ n ∈ root, IsName n) {label label' : String} {P : Prop} :
    (∀ t ∈ (normalizePaths root label paths).1,
        P → pathInScope t (normalizePaths root label' values).1 = true) ↔
      ∀ r, Leads root paths r → P → ∃ a, Leads root values a ∧ InScope a r := by
  constructor
  · intro h r hr hP
    exact (pathInScope_iff hroot (hr.names hroot)).mp
      (h _ (mem_normalizePaths.mpr ⟨r, hr, rfl⟩) hP)
  · intro h t ht hP
    obtain ⟨r, hr, rfl⟩ := mem_normalizePaths.mp ht
    exact (pathInScope_iff hroot (hr.names hroot)).mpr (h r hr hP)

end Places

/-! ## Validation -/

section Validation

variable {root : Path} {c : TaskContract}

/-- What validation asks of the fields that are no paths. -/
structure Complete (c : TaskContract) : Prop where
  taskId : c.taskId ≠ []
  runId : c.runId ≠ []
  objective : strip c.objective ≠ []
  acceptanceCriteria : c.acceptanceCriteria ≠ []
  verificationRequirements : c.verificationRequirements ≠ []

/-- What it asks of the paths, as places. -/
structure Scoped (root : Path) (c : TaskContract) : Prop where
  allowed : Placed root c.allowedWritePaths
  expected : Placed root c.expectedWritePaths
  forbidden : Placed root c.forbiddenPaths
  covered : ∀ e, Leads root c.expectedWritePaths e → (∃ a, Leads root c.allowedWritePaths a) →
    ∃ a, Leads root c.allowedWritePaths a ∧ InScope a e
  apart : ∀ i, Leads root c.forbiddenPaths i →
    ¬ ∃ a, Leads root c.allowedWritePaths a ∧ InScope a i

theorem error_unless {P : Prop} [Decidable P] {message : String} :
    (if P then [message] else []) = [] ↔ ¬ P := by
  by_cases h : P
  · rw [if_pos h]
    exact ⟨fun hnil => absurd hnil (List.cons_ne_nil _ _), fun hnot => absurd h hnot⟩
  · rw [if_neg h]
    exact ⟨fun _ => h, fun _ => rfl⟩

theorem validate_iff (hroot : ∀ n ∈ root, IsName n) :
    validateContract root c = [] ↔ Complete c ∧ Scoped root c := by
  have hallowed : (normalizePaths root "allowed_write_paths" c.allowedWritePaths).1 ≠ [] ↔
      ∃ a, Leads root c.allowedWritePaths a := by
    rw [ne_eq, normalizePaths_eq_nil, not_forall_not]
  have hcovered : (∀ t ∈ (normalizePaths root "expected_write_paths" c.expectedWritePaths).1,
      (∃ a, Leads root c.allowedWritePaths a) → pathInScope t
        (normalizePaths root "allowed_write_paths" c.allowedWritePaths).1 = true) ↔ _ :=
    pathInScope_places hroot
  have hapart : (∀ t ∈ (normalizePaths root "forbidden_paths" c.forbiddenPaths).1,
      ¬ pathInScope t (normalizePaths root "allowed_write_paths" c.allowedWritePaths).1 = true) ↔
      ∀ i, Leads root c.forbiddenPaths i →
        ¬ ∃ a, Leads root c.allowedWritePaths a ∧ InScope a i := by
    constructor
    · intro h i hi
      rw [← pathInScope_iff hroot (hi.names hroot)]
      exact h _ (mem_normalizePaths.mpr ⟨i, hi, rfl⟩)
    · intro h t ht
      obtain ⟨i, hi, rfl⟩ := mem_normalizePaths.mp ht
      rw [pathInScope_iff hroot (hi.names hroot)]
      exact h i hi
  have hexpected : (∀ t ∈ (normalizePaths root "expected_write_paths" c.expectedWritePaths).1,
      ¬ (decide ((normalizePaths root "allowed_write_paths" c.allowedWritePaths).1 ≠ []) &&
        !pathInScope t (normalizePaths root "allowed_write_paths" c.allowedWritePaths).1) = true) ↔
      ∀ e, Leads root c.expectedWritePaths e → (∃ a, Leads root c.allowedWritePaths a) →
        ∃ a, Leads root c.allowedWritePaths a ∧ InScope a e := by
    rw [← hcovered]
    refine forall₂_congr fun t _ => ?_
    rw [Bool.and_eq_true, decide_eq_true_eq, hallowed, not_and, Bool.not_eq_true', Bool.not_eq_false]
  unfold validateContract
  simp only [List.append_eq_nil_iff, error_unless, normalizePaths_errors, List.map_eq_nil_iff,
    List.filter_eq_nil_iff, hexpected, hapart]
  constructor
  · intro h
    obtain ⟨⟨⟨⟨⟨⟨⟨⟨⟨h1, h2⟩, h3⟩, h4⟩, h5⟩, hallowed⟩, hexpected⟩, hforbidden⟩, hcovered⟩, hapart⟩ := h
    exact ⟨⟨h1, h2, h3, h4, h5⟩, hallowed, hexpected, hforbidden, hcovered, hapart⟩
  · intro h
    obtain ⟨⟨h1, h2, h3, h4, h5⟩, hallowed, hexpected, hforbidden, hcovered, hapart⟩ := h
    exact ⟨⟨⟨⟨⟨⟨⟨⟨⟨h1, h2⟩, h3⟩, h4⟩, h5⟩, hallowed⟩, hexpected⟩, hforbidden⟩, hcovered⟩, hapart⟩

end Validation

/-! ## An expansion -/

section Expansion

variable {root : Path} {c : TaskContract} {r : Request} {l : List Text} {n reason : Text}

/-- A path that is settled leads where its normal form leads. -/
theorem placeOf_hint {x : Text} (h : normalizeHint (normalizeHint x) = normalizeHint x) :
    placeOf root (normalizeHint x) = placeOf root x := by
  unfold placeOf
  rw [h]

/-- What holds of all paths after one is added. -/
theorem forall_dedupe {P : Text → Prop} (hblank : P []) :
    (∀ t ∈ dedupe (l ++ [n]), P t) ↔ (∀ x ∈ l, P (normalizeHint x)) ∧ P (normalizeHint n) := by
  constructor
  · intro h
    have hone : ∀ x ∈ l ++ [n], P (normalizeHint x) := by
      intro x hx
      by_cases hnil : normalizeHint x = []
      · rwa [hnil]
      · exact h _ (mem_dedupe.mpr ⟨hnil, x, hx, rfl⟩)
    exact ⟨fun x hx => hone x (List.mem_append_left _ hx), hone n (by simp)⟩
  · intro h t ht
    obtain ⟨_, x, hx, rfl⟩ := mem_dedupe.mp ht
    rcases List.mem_append.mp hx with hl | hn
    · exact h.1 x hl
    · rw [List.mem_singleton.mp hn]
      exact h.2

theorem settled_dedupe (hl : Settled l) :
    Settled (dedupe (l ++ [n])) ↔ Settled [normalizeHint n] := by
  have hall := forall_dedupe (l := l) (n := n)
    (P := fun t => normalizeHint (normalizeHint t) = normalizeHint t) rfl
  have hone : Settled [normalizeHint n] ↔ _ := List.forall_mem_singleton
  refine hall.trans ((and_iff_right fun x hx => ?_).trans hone.symm)
  rw [hl x hx, hl x hx]

theorem placed_dedupe (hl : Settled l) :
    Placed root (dedupe (l ++ [n])) ↔ Placed root l ∧ Placed root [normalizeHint n] := by
  unfold Placed
  rw [forall_dedupe (fun h => absurd rfl h), List.forall_mem_singleton]
  refine and_congr_left fun _ => forall₂_congr fun x hx => ?_
  rw [hl x hx, placeOf_hint (hl x hx)]

theorem leads_dedupe (hl : Settled l) {p : List Text} :
    Leads root (dedupe (l ++ [n])) p ↔ Leads root l p ∨ Leads root [normalizeHint n] p := by
  have hnot := forall_dedupe (l := l) (n := n)
    (P := fun t => ¬ (normalizeHint t ≠ [] ∧ placeOf root t = some p)) (fun h => h.1 rfl)
  have hold : (∀ x ∈ l, ¬ (normalizeHint (normalizeHint x) ≠ [] ∧
      placeOf root (normalizeHint x) = some p)) ↔
        ∀ x ∈ l, ¬ (normalizeHint x ≠ [] ∧ placeOf root x = some p) := by
    refine forall₂_congr fun x hx => ?_
    rw [hl x hx, placeOf_hint (hl x hx)]
  rw [hold] at hnot
  rw [← not_iff_not, not_or, leads_singleton]
  unfold Leads
  simp only [not_exists, not_and] at hnot ⊢
  exact hnot

theorem leads_unique {x : Text} {p q : List Text} (hp : Leads root [x] p) (hq : Leads root [x] q) :
    p = q := by
  rw [leads_singleton] at hp hq
  exact Option.some_inj.mp (hp.2.symm.trans hq.2)

theorem Leads.placed {x : Text} {p : List Text} (h : Leads root [x] p) : Placed root [x] :=
  List.forall_mem_singleton.mpr fun _ => ⟨p, (leads_singleton.mp h).2⟩

/-- What a request does: it adds the path that is granted, or leaves the contract as it is. -/
theorem expand_cases (root : Path) (c : TaskContract) (r : Request) :
    (∃ n, Granted root c r n ∧ (∀ m, Granted root c r m → m = n) ∧
      expand root c r = c.widen n r.reason) ∨
    ((∀ n, ¬ Granted root c r n) ∧ expand root c r = c) := by
  unfold expand requestScopeExpansion
  by_cases hhint : normalizeHint r.path = []
  · refine Or.inr ⟨fun n hn => ?_, by rw [if_pos hhint]; rfl⟩
    obtain ⟨⟨p, hp, _⟩, _⟩ := hn
    rw [hhint, leads_singleton] at hp
    exact hp.1 rfl
  rw [if_neg hhint]
  -- each check of the request refuses what the grant excludes, in the order of the source
  by_cases herrors : (normalizePaths root "scope_expansion" [normalizeHint r.path]).2 = []
  · rw [if_neg (not_not_intro herrors)]
    cases hpaths : (normalizePaths root "scope_expansion" [normalizeHint r.path]).1 with
    | nil =>
      refine Or.inr ⟨fun n hn => ?_, rfl⟩
      obtain ⟨⟨p, hp, _⟩, _⟩ := hn
      exact normalizePaths_eq_nil.mp hpaths p hp
    | cons n rest =>
      obtain ⟨p, hp, hn⟩ := mem_normalizePaths.mp (by rw [hpaths]; exact List.mem_cons_self)
      have honly : ∀ m, Granted root c r m → m = n := by
        intro m hm
        obtain ⟨⟨q, hq, hqm⟩, _⟩ := hm
        rw [hqm, hn, leads_unique hq hp]
      by_cases hforbidden : n ∈ c.forbiddenPaths
      · refine Or.inr ⟨fun m hm => ?_, by simp only [if_pos hforbidden]; rfl⟩
        rw [honly m hm] at hm
        exact hm.2.1 hforbidden
      by_cases hreason : strip r.reason = []
      · refine Or.inr ⟨fun m hm => hm.2.2.1 hreason, ?_⟩
        simp only [if_neg hforbidden, if_pos hreason]
        rfl
      by_cases hallowed : n ∈ c.allowedWritePaths
      · refine Or.inr ⟨fun m hm => ?_, ?_⟩
        · rw [honly m hm] at hm
          exact hm.2.2.2 hallowed
        · simp only [if_neg hforbidden, if_neg hreason, if_pos hallowed]
          rfl
      · refine Or.inl ⟨n, ⟨⟨p, hp, hn⟩, hforbidden, hreason, hallowed⟩, honly, ?_⟩
        simp only [if_neg hforbidden, if_neg hreason, if_neg hallowed]
        rfl
  · refine Or.inr ⟨fun n hn => ?_, by rw [if_pos herrors]; rfl⟩
    obtain ⟨⟨p, hp, _⟩, _⟩ := hn
    exact herrors (normalizePaths_errors.mpr hp.placed)

theorem fits_of_sound (hroot : ∀ n ∈ root, IsName n) (h : Sound root c)
    (hwide : Sound root (c.widen n reason)) : Fits root c n := by
  obtain ⟨_, hscoped⟩ := (validate_iff hroot).mp hwide.valid
  have hadded : ∀ p, Leads root [normalizeHint n] p →
      Leads root (c.widen n reason).allowedWritePaths p := by
    intro p hp
    exact (leads_dedupe h.allowed).mpr (Or.inr hp)
  refine ⟨(settled_dedupe h.allowed).mp hwide.allowed,
    ((placed_dedupe h.allowed).mp hscoped.allowed).2, ?_, ?_⟩
  · intro p hp i hi
    refine ⟨hwide.safe p i (hadded p hp) hi, ?_⟩
    intro hin
    exact hscoped.apart i hi ⟨p, hadded p hp, hin⟩
  · intro p hp hnone e he
    obtain ⟨a, ha, hin⟩ := hscoped.covered e ((leads_dedupe h.expected).mpr (Or.inl he))
      ⟨p, hadded p hp⟩
    rcases (leads_dedupe h.allowed).mp ha with hold | hnew
    · exact absurd hold (hnone a)
    · rwa [leads_unique hnew hp] at hin

theorem sound_of_fits (hroot : ∀ n ∈ root, IsName n) (h : Sound root c) (hfits : Fits root c n) :
    Sound root (c.widen n reason) := by
  obtain ⟨hcomplete, hscoped⟩ := (validate_iff hroot).mp h.valid
  have hallowed : ∀ p, Leads root (c.widen n reason).allowedWritePaths p ↔
      Leads root c.allowedWritePaths p ∨ Leads root [normalizeHint n] p :=
    fun p => leads_dedupe h.allowed
  have hexpected : ∀ p, Leads root (c.widen n reason).expectedWritePaths p ↔
      Leads root c.expectedWritePaths p ∨ Leads root [normalizeHint n] p :=
    fun p => leads_dedupe h.expected
  refine ⟨(validate_iff hroot).mpr ⟨?_, ?_, ?_, hscoped.forbidden, ?_, ?_⟩, ?_,
    (settled_dedupe h.allowed).mpr hfits.settled, (settled_dedupe h.expected).mpr hfits.settled⟩
  · exact ⟨hcomplete.taskId, hcomplete.runId, hcomplete.objective, hcomplete.acceptanceCriteria,
      hcomplete.verificationRequirements⟩
  · exact (placed_dedupe h.allowed).mpr ⟨hscoped.allowed, hfits.placed⟩
  · exact (placed_dedupe h.expected).mpr ⟨hscoped.expected, hfits.placed⟩
  · intro e he hsome
    rcases (hexpected e).mp he with hold | hnew
    · by_cases hnone : ∃ a, Leads root c.allowedWritePaths a
      · obtain ⟨a, ha, hin⟩ := hscoped.covered e hold hnone
        exact ⟨a, (hallowed a).mpr (Or.inl ha), hin⟩
      · -- nothing was allowed: it is the path that is added
        obtain ⟨a, ha⟩ := hsome
        rw [not_exists] at hnone
        have hadded := ((hallowed a).mp ha).resolve_left (hnone a)
        exact ⟨a, ha, hfits.covers a hadded hnone e hold⟩
    · exact ⟨e, (hallowed e).mpr (Or.inr hnew), Or.inl rfl⟩
  · intro i hi hsome
    obtain ⟨a, ha, hin⟩ := hsome
    rcases (hallowed a).mp ha with hold | hnew
    · exact hscoped.apart i hi ⟨a, hold, hin⟩
    · exact (hfits.clear a hnew i hi).2 hin
  · intro p i hp hi
    rcases (hallowed p).mp hp with hold | hnew
    · exact h.safe p i hold hi
    · exact (hfits.clear p hnew i hi).1

theorem sound_step (hroot : ∀ n ∈ root, IsName n) (h : Sound root c) :
    Fitting root c r ↔ Sound root (expand root c r) := by
  rcases expand_cases root c r with ⟨n, hn, honly, heq⟩ | ⟨hnone, heq⟩
  · rw [heq]
    constructor
    · intro hfit
      exact sound_of_fits hroot h (hfit n hn)
    · intro hwide m hm
      rw [honly m hm]
      exact fits_of_sound hroot h hwide
  · rw [heq]
    exact iff_of_true (fun n hn => absurd hn (hnone n)) h

end Expansion

/-- **Any requests keep a sound contract sound exactly when each that is granted fits.** -/
theorem sound_run_iff {root : Path} (hroot : ∀ n ∈ root, IsName n) {c : TaskContract}
    (h : Sound root c) (requests : List Request) :
    Along (expand root) (Fitting root) c requests ↔ Always (expand root) (Sound root) c requests :=
  along_iff_always (fun _ _ hs => sound_step hroot hs) h

/-- A contract for one file, with a directory that is forbidden. -/
def gameContract : TaskContract where
  taskId := "t1".toList
  runId := "plan".toList
  objective := "scoring".toList
  candidateFiles := []
  allowedWritePaths := ["game.py".toList]
  expectedWritePaths := ["game.py".toList]
  forbiddenPaths := ["secrets".toList]
  acceptanceCriteria := ["it scores".toList]
  verificationRequirements := ["pytest".toList]
  fileSelectionRationale := []
  preflight := none

theorem gameContract_places {p : List Text} :
    (Leads [] gameContract.allowedWritePaths p ↔ p = ["game.py".toList]) ∧
      (Leads [] gameContract.expectedWritePaths p ↔ p = ["game.py".toList]) ∧
      (Leads [] gameContract.forbiddenPaths p ↔ p = ["secrets".toList]) := by
  have hgame : placeOf [] "game.py".toList = some ["game.py".toList] := by decide
  have hsecrets : placeOf [] "secrets".toList = some ["secrets".toList] := by decide
  have hleads : Leads [] ["game.py".toList] p ↔ p = ["game.py".toList] := by
    rw [leads_singleton, hgame, and_iff_right (by decide), Option.some_inj, eq_comm]
  have hforbidden : Leads [] ["secrets".toList] p ↔ p = ["secrets".toList] := by
    rw [leads_singleton, hsecrets, and_iff_right (by decide), Option.some_inj, eq_comm]
  exact ⟨hleads, hleads, hforbidden⟩

theorem gameContract_sound : Sound [] gameContract := by
  refine ⟨by decide, ?_, ?_, ?_⟩
  · intro p i hp hi
    rw [gameContract_places.1] at hp
    rw [gameContract_places.2.2] at hi
    rw [hp, hi]
    decide
  · unfold Settled
    decide
  · unfold Settled
    decide

theorem sound_run_collision :
    Along (expand []) (Fitting []) gameContract [⟨"collision.py".toList, "helpers".toList⟩] ↔
      Always (expand []) (Sound []) gameContract [⟨"collision.py".toList, "helpers".toList⟩] :=
  sound_run_iff (by intro n hn; cases hn) gameContract_sound _

/-- A request for a file in the forbidden directory is approved. -/
theorem forbidden_directory_entered : ¬ ∀ (root : Path) (_ : ∀ n ∈ root, IsName n)
    (c : TaskContract) (requests : List Request), validateContract root c = [] →
      Always (expand root) (fun c => validateContract root c = [] ∧ Safe root c) c requests := by
  intro h
  have hrun := h [] (by intro n hn; cases hn) gameContract
    [⟨"secrets/key.py".toList, "helpers".toList⟩] gameContract_sound.valid
  have hkey : Leads [] (expand [] gameContract
      ⟨"secrets/key.py".toList, "helpers".toList⟩).allowedWritePaths
        ["secrets".toList, "key.py".toList] :=
    ⟨"secrets/key.py".toList, by decide, by decide, by decide⟩
  have hsecrets : Leads [] (expand [] gameContract
      ⟨"secrets/key.py".toList, "helpers".toList⟩).forbiddenPaths ["secrets".toList] :=
    ⟨"secrets".toList, by decide, by decide, by decide⟩
  exact hrun.2.2 _ _ hkey hsecrets (by decide)

end Shamsu.Tasks.WriteScope
