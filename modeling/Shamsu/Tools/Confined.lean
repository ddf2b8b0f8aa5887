import Shamsu.Tools.Reading
import Shamsu.Tools.Scope

/-!
# The read scope keeps its reads

What a read tool discloses lies in the scope as long as the text that is looked
up is the text that was checked (`Honest`): `_inside_allowed_read_scope`
normalises its argument once more. Two tools go past their check all the same:
`grep_files` searches the directory of an allowed file, and `read_file` lists
the candidates of a missing document unfiltered (`Contained`).
-/

namespace Shamsu.Tools

open Shamsu.Lib Shamsu.Py Shamsu.Safety

/-! ## The scope -/

namespace AgentTools

variable (t : AgentTools) (allowed : List Text)

/-- `p` is one of the allowed paths or lies inside one of them. The set is kept
in lower case, so letter case does not count. -/
def InScope (p : Path) : Prop :=
  ∃ item ∈ allowed, t.root <+: locate t.root item ∧ t.root <+: p ∧
    (relativeTo t.root (locate t.root item)).map t.casing.lower
      <+: (relativeTo t.root p).map t.casing.lower

instance (p : Path) : Decidable (t.InScope allowed p) :=
  inferInstanceAs (Decidable (∃ item ∈ allowed, _))

variable {t allowed}

/-- What lies below the scope is in it. -/
theorem InScope.below {p q : Path} (h : t.InScope allowed p) (hpq : p <+: q) :
    t.InScope allowed q := by
  obtain ⟨item, hitem, hroot, hp, hpre⟩ := h
  obtain ⟨s, rfl⟩ := hpq
  obtain ⟨r, rfl⟩ := hp
  refine ⟨item, hitem, hroot, (List.prefix_append _ _).trans (List.prefix_append _ _), ?_⟩
  rw [relativeTo_append] at hpre
  rw [List.append_assoc, relativeTo_append, List.map_append]
  exact hpre.trans (List.prefix_append _ _)

/-- Letter case does not count. -/
theorem InScope.of_lower {r r' : List Text} (h : t.InScope allowed (t.root ++ r))
    (he : r'.map t.casing.lower = r.map t.casing.lower) : t.InScope allowed (t.root ++ r') := by
  obtain ⟨item, hitem, hroot, _, hpre⟩ := h
  refine ⟨item, hitem, hroot, List.prefix_append _ _, ?_⟩
  rw [relativeTo_append] at hpre ⊢
  rwa [he]

theorem isName_root : ∀ n ∈ t.root, IsName n :=
  t.workspace.names _ (Disk.present_of_isDir t.workspace.isDir_root)

theorem validate_names {x : Text} {target : Path} (h : validate t.root x = .ok target) :
    ∃ r, target = t.root ++ r ∧ ∀ n ∈ r, IsName n :=
  names_of_validate isName_root h

theorem inScope_of_inside (hs : t.allowedReadPaths = some allowed) {x : Text} {target : Path}
    (hin : t.insideAllowedReadScope x = true)
    (hv : validate t.root (normalizeOr x x) = .ok target) : t.InScope allowed target := by
  unfold insideAllowedReadScope at hin
  rw [hs] at hin
  simp only [scopeKey, hv, List.any_eq_true] at hin
  obtain ⟨item, hitem, hc⟩ := hin
  obtain ⟨r, rfl, hr⟩ := validate_names hv
  rw [relativeTo_append] at hc
  exact inside_of_covers hr hitem hc

variable (t allowed)

/-- A text that passes the check leads into the scope. -/
def Honest (x : Text) : Prop :=
  t.insideAllowedReadScope x = true → ∀ target, validate t.root x = .ok target →
    t.InScope allowed target

variable {t allowed}

/-- A text that normalisation leaves as it is. -/
theorem honest_of_settled (hs : t.allowedReadPaths = some allowed) {x : Text}
    (hx : normalizeOr x x = x) : t.Honest allowed x := by
  intro hin target hv
  exact inScope_of_inside hs hin (hx.symm ▸ hv)

/-! ## What the helpers find -/

theorem mem_addCandidate {ranked : List (Nat × List Text)} {rank : Nat} {rel : List Text}
    {x : Nat × List Text} (h : x ∈ addCandidate ranked rank rel) :
    x ∈ ranked ∨ x = (rank, rel) := by
  unfold addCandidate at h
  split at h
  · exact Or.inl h
  · simpa using h

theorem mem_foldl_addCandidate : ∀ {passes acc : List (Nat × List Text)} {x : Nat × List Text},
    x ∈ passes.foldl (fun acc x => addCandidate acc x.1 x.2) acc → x ∈ acc ∨ x ∈ passes := by
  intro passes
  induction passes with
  | nil => exact fun h => Or.inl h
  | cons y passes ih =>
    intro acc x h
    rcases ih h with h | h
    · rcases mem_addCandidate h with h | h
      · exact Or.inl h
      · exact Or.inr (h ▸ List.mem_cons_self ..)
    · exact Or.inr (List.mem_cons_of_mem _ h)

theorem mem_candidatePasses {c : Casing} {all : List (List Text)} {requested : Text}
    {x : Nat × List Text} (h : x ∈ candidatePasses c all requested) : x.2 ∈ all := by
  simp only [candidatePasses, List.mem_append, List.mem_map, Option.mem_toList,
    List.mem_filterMap, List.mem_flatMap] at h
  rcases h with ((((⟨rel, hrel, rfl⟩ | ⟨rel, hrel, hx⟩) | ⟨_, _, rel, hrel, rfl⟩)
    | ⟨rel, hrel, rfl⟩) | h) | h
  · exact List.mem_reverse.mp (List.mem_of_find?_eq_some hrel)
  · split at hx
    · exact Option.some.inj hx ▸ hrel
    · split at hx
      · exact Option.some.inj hx ▸ hrel
      · cases hx
  · exact List.mem_reverse.mp (List.mem_of_find?_eq_some hrel)
  · exact List.mem_of_mem_filter hrel
  · split at h
    · obtain ⟨rel, hrel, rfl⟩ := List.mem_map.mp h
      exact List.mem_of_mem_filter hrel
    · cases h
  · split at h
    · obtain ⟨rel, hrel, rfl⟩ := List.mem_map.mp h
      exact List.mem_of_mem_filter hrel
    · cases h

/-- A file the walk finds, by its names from the root on. -/
theorem isName_of_walk {rel : List Text}
    (h : rel ∈ (walkWorkspaceFiles t.disk t.root).map (relativeTo t.root)) :
    ∀ n ∈ rel, IsName n := by
  obtain ⟨p, hp, rfl⟩ := List.mem_map.mp h
  obtain ⟨_, hf⟩ := mem_walkWorkspaceFiles hp
  exact fun n hn => t.workspace.names p (Disk.present_of_isFile hf) n (List.mem_of_mem_drop hn)

theorem isName_findPathCandidates {x : Text} {rel : List Text}
    (h : rel ∈ findPathCandidates t.casing t.disk t.root x) : ∀ n ∈ rel, IsName n := by
  unfold findPathCandidates at h
  dsimp only at h
  split at h
  · cases h
  · obtain ⟨y, hy, rfl⟩ := List.mem_map.mp h
    rcases mem_foldl_addCandidate (List.mem_mergeSort.mp (List.mem_of_mem_take hy)) with h | h
    · cases h
    · exact isName_of_walk (mem_candidatePasses h)

theorem isName_findFilesByQuery {x : Text} {limit : Int} {rel : List Text}
    (h : rel ∈ findFilesByQuery t.casing t.disk t.root x limit) : ∀ n ∈ rel, IsName n := by
  unfold findFilesByQuery at h
  dsimp only at h
  split at h
  · cases h
  · refine isName_of_walk (t := t) ?_
    split at h
    all_goals
      have := List.mem_of_mem_take h
      simp only [List.mem_append, List.mem_filter] at this
      tauto

/-- What passes the filter is in the scope when the names are honest. -/
theorem inScope_scopedCandidates {found : List (List Text)}
    (hnames : ∀ rel ∈ found, ∀ n ∈ rel, IsName n)
    (hhonest : ∀ rel ∈ found, t.Honest allowed (posix rel)) :
    ∀ p ∈ t.scopedCandidates found, t.InScope allowed p := by
  intro p hp
  obtain ⟨rel, hrel, rfl⟩ := List.mem_map.mp hp
  obtain ⟨hfound, hin⟩ := List.mem_filter.mp hrel
  have hn := hnames rel hfound
  refine hhonest rel hfound hin _ (validate_ok.mpr ⟨?_, List.prefix_append _ _, locate_posix hn⟩)
  exact not_mem_posix (fun n h => (hn n h).2.2.2.2) (by decide) (by decide)

theorem mem_directoryListing {dir p : Path} (h : p ∈ t.directoryListing dir) : dir <+: p := by
  obtain ⟨n, _, rfl⟩ := List.mem_map.mp h
  exact List.prefix_append _ _

theorem mem_grepLoop {query : Text} {extensions : List Text} : ∀ {files : List Path} {limit : Nat}
    {m : Match}, m ∈ (t.grepLoop query extensions limit files).1 → m.file ∈ files := by
  intro files
  induction files with
  | nil => intro limit m h; cases h
  | cons p files ih =>
    intro limit m h
    have hfile : ∀ m ∈ t.grepFile query p, m.file = p := by
      intro m hm
      unfold grepFile at hm
      split at hm
      · cases hm
      · obtain ⟨_, _, rfl⟩ := List.mem_map.mp hm
        rfl
    rw [grepLoop] at h
    split at h
    · exact List.mem_cons_of_mem _ (ih h)
    · dsimp only at h
      split at h
      · exact hfile m (List.mem_of_mem_take h) ▸ List.mem_cons_self ..
      · rcases List.mem_append.mp h with h | h
        · exact hfile m h ▸ List.mem_cons_self ..
        · exact List.mem_cons_of_mem _ (ih h)

/-- What equals names up to letter case has no `..` and no `/` in it. -/
theorem not_mem_of_map_lower {c : Casing} {r names : List Text}
    (he : r.map c.lower = names.map c.lower) (hr : ∀ n ∈ r, IsName n) :
    dotDot ∉ names ∧ ['/'] ∉ names := by
  have hback : ∀ m ∈ names, ∃ n ∈ r, c.lower n = c.lower m := by
    intro m hm
    have hm' : c.lower m ∈ names.map c.lower := List.mem_map_of_mem hm
    rw [← he] at hm'
    exact List.mem_map.mp hm'
  constructor
  · intro hm
    obtain ⟨n, hn, hl⟩ := hback dotDot hm
    have hdd : c.lower dotDot = dotDot := (c.dots dotDot 2).mpr rfl
    exact (hr n hn).2.2.1 ((c.dots n 2).mp (hl.trans hdd))
  · intro hm
    obtain ⟨n, hn, hl⟩ := hback ['/'] hm
    have hslash : c.lower ['/'] = c.lower [] ++ '/' :: c.lower [] := c.lower_slash [] []
    refine c.plain n '/' (by simp) (hr n hn).2.2.2.1 ?_
    rw [hl, hslash]
    exact List.mem_append_right _ (List.mem_cons_self ..)

/-- The case-insensitive lookup stays where the check looked. -/
theorem inScope_pathExistsCaseInsensitive (hs : t.allowedReadPaths = some allowed) {x : Text}
    {p : Path} (hin : t.insideAllowedReadScope x = true) (h0 : '\x00' ∉ x)
    (h : pathExistsCaseInsensitive t.casing t.disk t.root x = some p) :
    t.InScope allowed p := by
  unfold pathExistsCaseInsensitive at h
  dsimp only at h
  split at h
  · cases h
  next hne =>
    split at h
    next q hq =>
      split at h
      · cases h
      · obtain rfl := Option.some.inj h
        have hpres := present_resolveCase (Disk.present_of_isDir t.workspace.isDir_root) hq
        obtain ⟨r, rfl, hr⟩ := resolveCase_lower hq
        have hnames : ∀ n ∈ r, IsName n := fun n hn =>
          t.workspace.names _ hpres n (List.mem_append_right _ hn)
        obtain ⟨hdd, hslash⟩ := not_mem_of_map_lower hr hnames
        cases ha : isAbsolute (normalizeWorkspacePath x) with
        | true =>
          -- no file is called "/"
          rw [ha] at hslash
          exact absurd (List.mem_cons_self ..) hslash
        | false =>
          rw [ha] at hr hdd
          have hloc : locate t.root (normalizeWorkspacePath x)
              = t.root ++ parts (normalizeWorkspacePath x) := by
            unfold locate
            rw [ha]
            exact resolveFrom_eq_append hdd _
          have hv : validate t.root (normalizeOr x x)
              = .ok (t.root ++ parts (normalizeWorkspacePath x)) := by
            rw [normalizeOr, if_neg hne]
            exact validate_ok.mpr ⟨fun hm => h0 (nul_normalizeWorkspacePath hm),
              List.prefix_append _ _, hloc⟩
          exact (inScope_of_inside hs hin hv).of_lower hr
    next => cases h

/-! ## The tools -/

/-- What a read of one file discloses is that file. -/
theorem readExistingFile_disclosed {asked resolved : Text} {target p : Path}
    {startLine endLine : Option Int}
    (h : p ∈ disclosedBy (t.readExistingFile asked resolved target startLine endLine)) :
    p = target := by
  unfold readExistingFile at h
  split at h
  · split at h
    next e he =>
      split at h
      · simpa [disclosedBy, ToolResult.disclosed] using h
      · cases h
    next bytes hb =>
      dsimp only at h
      split at h
      · simpa [disclosedBy, ToolResult.disclosed] using h
      · split at h
        next refused hr =>
          have : refused.disclosed = [] := by
            unfold refuseImpossibleRange at hr
            split at hr
            · obtain rfl := Option.some.inj hr
              rfl
            · split at hr
              · obtain rfl := Option.some.inj hr
                rfl
              · cases hr
          rw [disclosedBy, this] at h
          cases h
        next => simpa [disclosedBy, ToolResult.disclosed] using h
  · simpa [disclosedBy, ToolResult.disclosed] using h

theorem notAFile_disclosed {normalized : Text} {candidates : List Path} {hint : String} :
    (t.notAFile normalized candidates hint).disclosed = candidates := by
  simp [notAFile, ToolResult.disclosed]

variable (t allowed)

/-- The names a filter looks at do not mislead it. -/
def HonestNames (found : List (List Text)) : Prop := ∀ rel ∈ found, t.Honest allowed (posix rel)

/-- The candidates `_read_pdf` lists for a missing document are in the scope. -/
def ContainedDocument (x : Text) : Prop :=
  t.casing.lower (suffixOf (nameOf x)) ∈ documentExtensions →
    t.insideAllowedReadScope x = true → ∀ target, validate t.root x = .ok target →
      t.disk.isFile target = false →
        ∀ rel ∈ findPathCandidates t.casing t.disk t.root x, t.InScope allowed (t.root ++ rel)

/-- The directory `grep_files` searches is in the scope, when it is asked about
a file. -/
def ContainedSearch (x : Text) : Prop :=
  t.insideAllowedReadScope x = true → ∀ target, validate t.root x = .ok target →
    t.disk.isFile target = true → t.InScope allowed target.parent

variable {t allowed}

theorem rootListing_inScope {item : Text} (hitem : item ∈ allowed) {shown : List Path}
    (h : t.rootListing item = .ok shown) : ∀ p ∈ shown, t.InScope allowed p := by
  unfold rootListing at h
  cases hv : validate t.root item with
  | error e => rw [hv] at h; cases h
  | ok target =>
    rw [hv] at h
    obtain rfl : _ = shown := Except.ok.inj h
    intro p hp
    split at hp
    · obtain ⟨hpre, _⟩ := mem_walkWorkspaceFiles (List.mem_of_mem_take hp)
      obtain ⟨_, hroot, hloc⟩ := validate_ok.mp hv
      have hself : t.InScope allowed target :=
        ⟨item, hitem, hloc ▸ hroot, hroot, hloc ▸ List.prefix_refl _⟩
      exact hself.below hpre
    · cases hp

theorem mapM_rootListing : ∀ {items : List Text} {listings : List (List Path)},
    items.mapM t.rootListing = .ok listings → (∀ item ∈ items, item ∈ allowed) →
      ∀ p ∈ listings.flatten, t.InScope allowed p := by
  intro items
  induction items with
  | nil =>
    intro listings h _ p hp
    rw [List.mapM_nil] at h
    obtain rfl : [] = listings := Except.ok.inj h
    cases hp
  | cons item items ih =>
    intro listings h hmem p hp
    rw [List.mapM_cons] at h
    cases h₁ : t.rootListing item with
    | error e => rw [h₁] at h; cases h
    | ok shown =>
      cases h₂ : items.mapM t.rootListing with
      | error e => rw [h₁, h₂] at h; cases h
      | ok rest =>
        rw [h₁, h₂] at h
        obtain rfl : shown :: rest = listings := Except.ok.inj h
        rw [List.flatten_cons, List.mem_append] at hp
        rcases hp with hp | hp
        · exact rootListing_inScope (hmem item (List.mem_cons_self ..)) h₁ p hp
        · exact ih h₂ (fun i hi => hmem i (List.mem_cons_of_mem _ hi)) p hp

theorem listFiles_inScope (hs : t.allowedReadPaths = some allowed) {path : Text}
    (hh : t.Honest allowed (t.scopedReadPath (normalizeOr path ['.']))) :
    ∀ p ∈ disclosedBy (t.listFiles path), t.InScope allowed p := by
  intro p hp
  unfold listFiles at hp
  dsimp only at hp
  split at hp
  next items hitems _ =>
    obtain rfl : allowed = items := Option.some.inj (hs.symm.trans hitems)
    cases hm : allowed.mapM t.rootListing with
    | error e => rw [hm] at hp; cases hp
    | ok listings =>
      rw [hm] at hp
      refine mapM_rootListing hm (fun i hi => hi) p ?_
      simpa [disclosedBy, ToolResult.disclosed, bind, Except.bind, pure, Except.pure] using hp
  next =>
    split at hp
    next hin =>
      cases hv : validate t.root (t.scopedReadPath (normalizeOr path ['.'])) with
      | error e => rw [hv] at hp; cases hp
      | ok target =>
        rw [hv] at hp
        simp only [bind, Except.bind] at hp
        split at hp
        · have hd : p ∈ t.directoryListing target := by
            simpa [disclosedBy, ToolResult.disclosed, pure, Except.pure] using hp
          exact (hh hin target hv).below (mem_directoryListing hd)
        · cases hp
    next => cases hp

theorem readPdf_inScope {x : Text} (hin : t.insideAllowedReadScope x = true)
    (hh : t.Honest allowed x) (hd : t.ContainedDocument allowed x)
    (hdoc : t.casing.lower (suffixOf (nameOf x)) ∈ documentExtensions) :
    ∀ p ∈ disclosedBy (t.readPdf x), t.InScope allowed p := by
  intro p hp
  unfold readPdf at hp
  split at hp
  next e he => split at hp <;> cases hp
  next target hv =>
    split at hp
    next hf =>
      cases hb : readBytesOf t.disk target with
      | error e => rw [hb] at hp; cases hp
      | ok bytes =>
        cases ht : t.documentText bytes with
        | error e => simp only [hb, ht, bind, Except.bind] at hp; cases hp
        | ok text =>
          simp only [hb, ht, bind, Except.bind] at hp
          have : p = target := by
            simpa [disclosedBy, ToolResult.disclosed, pure, Except.pure] using hp
          exact this ▸ hh hin target hv
    next hf =>
      rw [disclosedBy, notAFile_disclosed] at hp
      obtain ⟨rel, hrel, rfl⟩ := List.mem_map.mp hp
      exact hd hdoc hin target hv (by simpa using hf) rel hrel

theorem readFile_inScope (hs : t.allowedReadPaths = some allowed) {filepath : Text}
    {startLine endLine : Option Int}
    (hh : t.Honest allowed (t.scopedReadPath (normalizeWorkspacePath filepath)))
    (hd : t.ContainedDocument allowed (t.scopedReadPath (normalizeWorkspacePath filepath)))
    (hn : t.HonestNames allowed (findPathCandidates t.casing t.disk t.root
      (t.scopedReadPath (normalizeWorkspacePath filepath)))) :
    ∀ p ∈ disclosedBy (t.readFile filepath startLine endLine), t.InScope allowed p := by
  intro p hp
  unfold readFile at hp
  split at hp
  · cases hp
  · dsimp only at hp
    split at hp
    next hin =>
      split at hp
      next hdoc => exact readPdf_inScope hin hh hd hdoc p hp
      next =>
        split at hp
        next e he => split at hp <;> cases hp
        next target hv =>
          have h0 := (validate_ok.mp hv).1
          have htarget := hh hin target hv
          split at hp
          · have hd : p ∈ t.directoryListing target := by
              simpa [disclosedBy, ToolResult.disclosed] using hp
            exact htarget.below (mem_directoryListing hd)
          · split at hp
            · exact readExistingFile_disclosed hp ▸ htarget
            · split at hp
              next ci hci =>
                have hci := (Option.filter_eq_some_iff.mp hci).1
                exact readExistingFile_disclosed hp ▸
                  inScope_pathExistsCaseInsensitive hs hin h0 hci
              next =>
                have hall := inScope_scopedCandidates
                  (fun rel hrel => isName_findPathCandidates hrel) hn
                split at hp
                next candidate hc =>
                  refine readExistingFile_disclosed hp ▸ hall candidate ?_
                  rw [hc]
                  exact List.mem_cons_self ..
                next =>
                  rw [disclosedBy, notAFile_disclosed] at hp
                  exact hall p hp
    next => cases hp

theorem fileInfo_inScope (hs : t.allowedReadPaths = some allowed) {filepath : Text}
    (hh : t.Honest allowed (t.scopedReadPath (normalizeWorkspacePath filepath)))
    (hn : t.HonestNames allowed (findPathCandidates t.casing t.disk t.root
      (t.scopedReadPath (normalizeWorkspacePath filepath)))) :
    ∀ p ∈ disclosedBy (t.fileInfo filepath), t.InScope allowed p := by
  intro p hp
  unfold fileInfo at hp
  split at hp
  · cases hp
  · dsimp only at hp
    split at hp
    next hin =>
      split at hp
      next e he => split at hp <;> cases hp
      next target hv =>
        split at hp
        next =>
          have : p = target := by simpa [disclosedBy, ToolResult.disclosed] using hp
          exact this ▸ hh hin target hv
        next =>
          have : p = target := by simpa [disclosedBy, ToolResult.disclosed] using hp
          exact this ▸ hh hin target hv
        next =>
          simp only [disclosedBy, ToolResult.disclosed, List.mem_append, Option.mem_toList,
            Option.toList_none, List.map_nil, List.not_mem_nil, or_false] at hp
          rcases hp with hp | hp
          · exact inScope_pathExistsCaseInsensitive hs hin (validate_ok.mp hv).1 hp
          · exact inScope_scopedCandidates (fun rel hrel => isName_findPathCandidates hrel) hn p hp
    next => cases hp

theorem findFile_inScope {query : Text} {limit : Int}
    (hn : t.HonestNames allowed (findFilesByQuery t.casing t.disk t.root
      (normalizeWorkspacePath query) limit)) :
    ∀ p ∈ disclosedBy (t.findFile query limit), t.InScope allowed p := by
  intro p hp
  unfold findFile at hp
  split at hp
  · cases hp
  · dsimp only at hp
    split at hp
    · cases hp
    · have hp : p ∈ t.scopedCandidates (findFilesByQuery t.casing t.disk t.root
          (normalizeWorkspacePath query) limit) := by
        simpa [disclosedBy, ToolResult.disclosed] using hp
      exact inScope_scopedCandidates (fun rel hrel => isName_findFilesByQuery hrel) hn p hp

theorem grepFiles_inScope {query path extensions : Text} {limit : Int}
    (hh : ∀ x, t.grepPath path = some x → t.Honest allowed x ∧ t.ContainedSearch allowed x) :
    ∀ p ∈ disclosedBy (t.grepFiles query path extensions limit), t.InScope allowed p := by
  intro p hp
  unfold grepFiles at hp
  split at hp
  · cases hp
  · split at hp
    next => cases hp
    next x hx =>
      obtain ⟨hh, hsearch⟩ := hh x hx
      split at hp
      next hin =>
        split at hp
        next e he => split at hp <;> cases hp
        next target hv =>
          split at hp
          next hpres =>
            have hbase : t.InScope allowed
                (if t.disk.isDir target then target else target.parent) := by
              split
              · exact hh hin target hv
              next hdir => exact hsearch hin target hv (Disk.isFile_of_present hpres (by simpa using hdir))
            have hp : p ∈ (t.grepLoop query (t.parseExtensions extensions) (max limit.toNat 1)
                (walkWorkspaceFiles t.disk
                  (if t.disk.isDir target then target else target.parent))).1.map Match.file := by
              simpa [disclosedBy, ToolResult.disclosed] using hp
            obtain ⟨m, hm, rfl⟩ := List.mem_map.mp hp
            exact hbase.below (mem_walkWorkspaceFiles (mem_grepLoop hm)).1
          next => cases hp
      next => cases hp

variable (t allowed)

/-- Nothing leads the call around the check: the text that is looked up was
checked, no candidate of a missing document lies outside, and a search of one
file has its whole directory in the scope. -/
def Contained : ReadCall → Prop
  | .listFiles path => t.Honest allowed (t.scopedReadPath (normalizeOr path ['.']))
  | .readFile filepath _ _ =>
    t.Honest allowed (t.scopedReadPath (normalizeWorkspacePath filepath)) ∧
      t.ContainedDocument allowed (t.scopedReadPath (normalizeWorkspacePath filepath)) ∧
      t.HonestNames allowed (findPathCandidates t.casing t.disk t.root
        (t.scopedReadPath (normalizeWorkspacePath filepath)))
  | .fileInfo filepath =>
    t.Honest allowed (t.scopedReadPath (normalizeWorkspacePath filepath)) ∧
      t.HonestNames allowed (findPathCandidates t.casing t.disk t.root
        (t.scopedReadPath (normalizeWorkspacePath filepath)))
  | .findFile query limit =>
    t.HonestNames allowed
      (findFilesByQuery t.casing t.disk t.root (normalizeWorkspacePath query) limit)
  | .grepFiles _ path _ _ =>
    ∀ x, t.grepPath path = some x → t.Honest allowed x ∧ t.ContainedSearch allowed x

/-- Two sources side by side, under a scope. -/
def twoSources (allowed : List Text) : AgentTools where
  casing := Casing.ascii
  workspace :=
    { disk := Disk.ofFiles
        [([['w'], "src".toList, "a.py".toList], encodeUtf8 "KEY = 1\n".toList),
          ([['w'], "src".toList, "b.py".toList], encodeUtf8 "KEY = 2\n".toList)]
      root := [['w']]
      names := names_of_support (by decide)
      isDir_root := by decide }
  allowedReadPaths := some allowed
  documentText := fun _ => .ok []

end AgentTools

end Shamsu.Tools
