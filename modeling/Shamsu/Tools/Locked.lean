import Shamsu.Patch.Effects
import Shamsu.Tools.Scope
import Shamsu.Tools.Writing

/-!
# The write scope keeps its writes

With a locked scope a write tool changes a file only where the scope allows it
(`Locked`). Each tool writes the very path it has checked, whatever spelling it
was called with, and that is all the argument: `plan_granted` collects it for
the five tools, and `carryOut_only` carries a granted plan out.

Besides, a transaction keeps a copy of the file it is about to change
(`KeptCopy`). It lies in the program's own directory, unless the path climbs
with `..`.
-/

namespace Shamsu.Tools

open Shamsu.Lib Shamsu.Py Shamsu.Safety Shamsu.Patch

/-! ## What a program may change -/

/-- Only files in `S` change. -/
def Only (S : Path → Prop) (d d' : FS) : Prop := ∀ p, d'.content p ≠ d.content p → S p

instance (S : Path → Prop) : Std.Refl (Only S) := ⟨fun _ _ h => absurd rfl h⟩

instance (S : Path → Prop) : IsTrans FS (Only S) := ⟨fun a b c h₁ h₂ p hne => by
  by_cases h : b.content p = a.content p
  · exact h₂ p (h ▸ hne)
  · exact h₁ p h⟩

section Files

variable {S : Path → Prop}

theorem mkdirP_only (p : Path) : Prog.Keeps (Only S) (mkdirP p) :=
  mkdirP_keeps fun d h q hne => absurd (Disk.content_mkdirs d p q h) hne

theorem put_only {d : FS} {p : Path} {b : Bytes} (h : d.canPut p = true) (hp : S p) :
    Only S d (d.put p b h) := by
  intro q hne
  rw [Disk.content_put] at hne
  by_cases hq : q = p
  · exact hq ▸ hp
  · rw [if_neg hq] at hne
    exact absurd rfl hne

theorem writeText_only {p : Path} {t : Text} (hp : S p) :
    Prog.Keeps (Only S) (writeText p t) :=
  writeText_keeps fun _ h => put_only h hp

theorem unlink_only {p : Path} (hp : S p) : Prog.Keeps (Only S) (unlink p) := by
  refine unlink_keeps fun d h q hne => ?_
  rw [Disk.content_drop] at hne
  by_cases hq : q = p
  · exact hq ▸ hp
  · rw [if_neg hq] at hne
    exact absurd rfl hne

theorem copy2_only {src dst : Path} (hS : ∀ s, S (dst ++ s)) :
    Prog.Keeps (Only S) (copy2 src dst) :=
  copy2_keeps fun _ s _ h => put_only h (hS s)

/-- What moves leaves its place and arrives at or below the other. -/
theorem move_only {src dst : Path} (hsrc : ∀ s, S (src ++ s)) (hdst : ∀ s, S (dst ++ s)) :
    Prog.Keeps (Only S) (Py.move src dst) := by
  refine move_keeps fun d s h q hne => ?_
  by_cases hq : dst ++ s <+: q
  · obtain ⟨t, rfl⟩ := hq
    rw [List.append_assoc]
    exact hdst _
  by_cases hq' : src <+: q
  · obtain ⟨t, rfl⟩ := hq'
    exact hsrc t
  · exact absurd (Disk.content_congr (Disk.get_graft_elsewhere d h hq' hq)) hne

end Files

/-! ## What a tool may plan -/

namespace Registry

variable (r : Registry)

/-- `target` is where `path` leads, the scope was asked for `path` in some
spelling, and changes are wanted at all. -/
structure Checked (d : FS) (path : Text) (target : Path) : Prop where
  changes : r.readOnly = false ∧ r.dryRun = false
  inScope : ∃ x, path = normalizeWorkspacePath x ∧ path ≠ [] ∧ r.outsideAllowedScope d x = none
  target : validate r.root path = .ok target

/-- A plan to write a checked file, or none. -/
def OnlyWrites (d : FS) : Plan → Prop
  | .reply _ => True
  | .write path target _ _ => r.Checked d path target
  | .move .. | .delete .. => False

/-- A plan about checked files. -/
def Granted (d : FS) : Plan → Prop
  | .reply _ => True
  | .write path target _ _ | .delete path target => r.Checked d path target
  | .move source destination src dst =>
    r.Checked d source src ∧ r.Checked d destination dst ∧
      d.isFile src = true ∧ d.present dst = false

variable {r} {d : FS} {p : Plan}

theorem OnlyWrites.granted (h : r.OnlyWrites d p) : r.Granted d p := by
  cases p with
  | reply => trivial
  | write => exact h
  | move => exact h.elim
  | delete => exact h.elim

/-! Each check of the source answers, or the plan goes on. -/

theorem plan_else {c : Prop} [Decidable c] {reply : Reply} {x : Except Exn Plan}
    (h : (if c then pure (.reply reply) else x) = .ok p) : p = .reply reply ∨ ¬ c ∧ x = .ok p := by
  by_cases hc : c
  · rw [if_pos hc] at h
    exact Or.inl (Except.ok.inj h).symm
  · rw [if_neg hc] at h
    exact Or.inr ⟨hc, h⟩

theorem plan_then {c : Prop} [Decidable c] {reply : Reply} {x : Except Exn Plan}
    (h : (if c then x else pure (.reply reply)) = .ok p) : p = .reply reply ∨ c ∧ x = .ok p := by
  rw [← ite_not] at h
  exact (plan_else h).imp_right fun ⟨hc, h⟩ => ⟨not_not.mp hc, h⟩

/-- Past the sandbox, or with its refusal. -/
theorem plan_guarded {path : Text} {target : Except Exn Path} {go : Path → Except Exn Plan}
    (h : guarded path target go = .ok p) :
    (∃ message, p = .reply { ok := false, message, filepath := path }) ∨
      ∃ t, target = .ok t ∧ go t = .ok p := by
  unfold guarded at h
  split at h
  next t => exact Or.inr ⟨t, rfl, h⟩
  next e =>
    split at h
    · exact Or.inl ⟨e.message, (Except.ok.inj h).symm⟩
    · cases h

theorem editPlan_onlyWrites {filepath old new : Text} {replaceAll : Bool}
    (h : r.editPlan d filepath old new replaceAll = .ok p) : r.OnlyWrites d p := by
  unfold editPlan at h
  rcases plan_else h with rfl | ⟨hread, h⟩
  · trivial
  obtain ⟨path, _, h⟩ := result_bind_ok.mp h
  split at h
  · exact Except.ok.inj h ▸ trivial
  next hscope =>
  rcases plan_else h with rfl | ⟨hdry, h⟩
  · trivial
  rcases plan_else h with rfl | ⟨hne, h⟩
  · trivial
  rcases plan_else h with rfl | ⟨_, h⟩
  · trivial
  rcases plan_else h with rfl | ⟨_, h⟩
  · trivial
  rcases plan_guarded h with ⟨_, rfl⟩ | ⟨target, hv, h⟩
  · trivial
  rcases plan_then h with rfl | ⟨_, h⟩
  · trivial
  have hc : r.Checked d _ target :=
    ⟨⟨eq_false_of_ne_true hread, eq_false_of_ne_true hdry⟩, ⟨path, rfl, hne, hscope⟩, hv⟩
  split at h
  · exact Except.ok.inj h ▸ trivial
  · split at h
    · exact Except.ok.inj h ▸ trivial
    · split at h
      · exact Except.ok.inj h ▸ trivial
      · exact Except.ok.inj h ▸ hc

theorem appendPlan_onlyWrites {filepath content : Text}
    (h : r.appendPlan d filepath content = .ok p) : r.OnlyWrites d p := by
  unfold appendPlan at h
  rcases plan_else h with rfl | ⟨hread, h⟩
  · trivial
  obtain ⟨path, _, h⟩ := result_bind_ok.mp h
  split at h
  · exact Except.ok.inj h ▸ trivial
  next hscope =>
  rcases plan_else h with rfl | ⟨hne, h⟩
  · trivial
  rcases plan_else h with rfl | ⟨_, h⟩
  · trivial
  rcases plan_else h with rfl | ⟨hdry, h⟩
  · trivial
  rcases plan_guarded h with ⟨_, rfl⟩ | ⟨target, hv, h⟩
  · trivial
  rcases plan_then h with rfl | ⟨_, h⟩
  · trivial
  have hc : r.Checked d _ target :=
    ⟨⟨eq_false_of_ne_true hread, eq_false_of_ne_true hdry⟩, ⟨path, rfl, hne, hscope⟩, hv⟩
  split at h
  · exact Except.ok.inj h ▸ trivial
  · dsimp only at h
    split at h
    · exact Except.ok.inj h ▸ trivial
    · exact Except.ok.inj h ▸ hc

theorem writePlan_onlyWrites {filepath content : Text} {overwrite : Bool}
    (h : r.writePlan d filepath content overwrite = .ok p) : r.OnlyWrites d p := by
  unfold writePlan at h
  rcases plan_else h with rfl | ⟨hread, h⟩
  · trivial
  obtain ⟨path, _, h⟩ := result_bind_ok.mp h
  split at h
  · exact Except.ok.inj h ▸ trivial
  next hscope =>
  rcases plan_else h with rfl | ⟨hdry, h⟩
  · trivial
  rcases plan_else h with rfl | ⟨hne, h⟩
  · trivial
  rcases plan_else h with rfl | ⟨_, h⟩
  · trivial
  dsimp only at h
  split at h
  · exact Except.ok.inj h ▸ trivial
  split at h
  · exact Except.ok.inj h ▸ trivial
  rcases plan_guarded h with ⟨_, rfl⟩ | ⟨target, hv, h⟩
  · trivial
  rcases plan_else h with rfl | ⟨_, h⟩
  · trivial
  have hc : r.Checked d _ target :=
    ⟨⟨eq_false_of_ne_true hread, eq_false_of_ne_true hdry⟩, ⟨path, rfl, hne, hscope⟩, hv⟩
  split at h
  · rcases plan_then h with rfl | ⟨_, h⟩
    · trivial
    rcases plan_else h with rfl | ⟨_, h⟩
    · trivial
    exact Except.ok.inj h ▸ hc
  · rcases plan_then h with rfl | ⟨_, h⟩
    · trivial
    exact Except.ok.inj h ▸ hc

theorem movePlan_granted {source destination : Text}
    (h : r.movePlan d source destination = .ok p) : r.Granted d p := by
  unfold movePlan at h
  rcases plan_else h with rfl | ⟨hread, h⟩
  · trivial
  dsimp only at h
  split at h
  · exact Except.ok.inj h ▸ trivial
  · exact Except.ok.inj h ▸ trivial
  next hs hd =>
  rcases plan_else h with rfl | ⟨hdry, h⟩
  · trivial
  rcases plan_else h with rfl | ⟨hne, h⟩
  · trivial
  rcases plan_else h with rfl | ⟨_, h⟩
  · trivial
  have hchanges : r.readOnly = false ∧ r.dryRun = false :=
    ⟨eq_false_of_ne_true hread, eq_false_of_ne_true hdry⟩
  rw [not_or] at hne
  rcases plan_guarded h with ⟨_, rfl⟩ | ⟨src, hsrc, h⟩
  · trivial
  rcases plan_guarded h with ⟨_, rfl⟩ | ⟨dst, hdst, h⟩
  · trivial
  rcases plan_else h with rfl | ⟨hfile, h⟩
  · trivial
  rcases plan_else h with rfl | ⟨hfree, h⟩
  · trivial
  obtain rfl := Except.ok.inj h
  exact ⟨⟨hchanges, ⟨_, rfl, hne.1, hs⟩, hsrc⟩, ⟨hchanges, ⟨_, rfl, hne.2, hd⟩, hdst⟩,
    by simpa using hfile, by simpa using hfree⟩

theorem deletePlan_granted {filepath : Text}
    (h : r.deletePlan d filepath = .ok p) : r.Granted d p := by
  unfold deletePlan at h
  rcases plan_else h with rfl | ⟨hread, h⟩
  · trivial
  dsimp only at h
  split at h
  · exact Except.ok.inj h ▸ trivial
  next hscope =>
  rcases plan_else h with rfl | ⟨hdry, h⟩
  · trivial
  rcases plan_else h with rfl | ⟨hne, h⟩
  · trivial
  rcases plan_guarded h with ⟨_, rfl⟩ | ⟨target, hv, h⟩
  · trivial
  rcases plan_then h with rfl | ⟨_, h⟩
  · trivial
  obtain rfl := Except.ok.inj h
  exact ⟨⟨eq_false_of_ne_true hread, eq_false_of_ne_true hdry⟩, ⟨_, rfl, hne, hscope⟩, hv⟩

/-! ## What is locked -/

variable (r)

/-- The text under which the listing of the workspace has the file `q`. -/
def listedAs (q : Path) : Text :=
  r.casing.lower (normalizeWorkspacePath (posix (relativeTo r.root q)))

/-- `p` has a bare file name that is allowed, and of the files that are listed
and may be read it alone has this name. -/
structure NamedAlone (d : FS) (allowed : List Text) (p : Path) : Prop where
  below : r.root <+: p
  named : ∃ item ∈ allowed, '/' ∉ rstripSlash (item.dropWhile (· == '/')) ∧
    r.casing.lower (nameOf item) = r.casing.lower p.name
  listed : ∃ q ∈ walkWorkspaceFiles d r.root,
    r.listedAs q = r.casing.lower (posix (relativeTo r.root p))
  alone : ∀ q ∈ walkWorkspaceFiles d r.root,
    nameOf (r.listedAs q) = r.casing.lower p.name →
      r.insideAllowedReadScope (r.listedAs q) = true →
        r.listedAs q = r.casing.lower (posix (relativeTo r.root p))

/-- Where a locked scope lets its tools write. -/
def Locked (d : FS) (allowed : List Text) (p : Path) : Prop :=
  Inside r.casing r.root allowed p ∨ r.NamedAlone d allowed p

variable {r}

/-- The last name of a lower-cased path. -/
theorem lower_nameOf_lower {c : Casing} {root : Path} {names : List Text}
    (h : ∀ n ∈ names, IsName n) (hne : names ≠ []) :
    c.lower (nameOf (c.lower (posix names))) = c.lower (Path.name (root ++ names)) := by
  have hlow : ∀ n ∈ names.map c.lower, IsName n := by
    intro n hn
    obtain ⟨m, hm, rfl⟩ := List.mem_map.mp hn
    exact c.isName_lower (h m hm)
  obtain ⟨init, last, rfl⟩ := List.eq_nil_or_concat' names |>.resolve_left hne
  unfold nameOf Path.name
  rw [c.lower_posix, parts_posix hlow]
  simp [← List.append_assoc, c.lower_lower]

/-- **The check**: a path that the scope does not refuse leads to a locked file. -/
theorem Checked.locked (hroot : ∀ n ∈ r.root, IsName n) {allowed : List Text}
    (ha : r.allowedWritePaths = some allowed) {path : Text} {target : Path}
    (h : r.Checked d path target) : r.Locked d allowed target := by
  obtain ⟨x, hx, hne, hin⟩ := h.inScope
  obtain ⟨names, rfl, hnames⟩ := names_of_validate hroot h.target
  have hkey : scopeKey r.casing r.root x = r.casing.lower (posix names) := by
    have hnorm : normalizeOr x x = path := by
      unfold normalizeOr
      rw [← hx, if_neg hne]
    unfold scopeKey
    dsimp only
    rw [hnorm, h.target]
    dsimp only
    rw [relativeTo_append]
  unfold outsideAllowedScope at hin
  rw [ha] at hin
  dsimp only at hin
  split at hin
  next hcheck =>
    rw [hkey, Bool.or_eq_true] at hcheck
    rcases hcheck with hcheck | hcheck
    · obtain ⟨item, hitem, hc⟩ := List.any_eq_true.mp hcheck
      exact Or.inl (inside_of_covers hnames hitem hc)
    · right
      unfold allowedByUniqueBasenameScope at hcheck
      dsimp only at hcheck
      simp only [Bool.and_eq_true, List.any_eq_true, decide_eq_true_eq, beq_iff_eq, bne_iff_ne,
        r.casing.lower_lower] at hcheck
      obtain ⟨⟨⟨hname, item, hitem, hbare, hsame⟩, hone⟩, hfound⟩ := hcheck
      have hlast : r.casing.lower (nameOf (r.casing.lower (posix names)))
          = r.casing.lower (Path.name (r.root ++ names)) := by
        refine lower_nameOf_lower hnames ?_
        intro heq
        subst heq
        apply hname
        rw [r.casing.lower_posix, List.map_nil, show nameOf (posix []) = [] by decide]
        exact r.casing.lower_nil
      rw [hlast] at hsame hone hfound
      obtain ⟨only, honly⟩ := List.length_eq_one_iff.mp hone
      rw [honly, List.mem_singleton] at hfound
      have hmem : ∀ text, text ∈ [only] ↔ _ := fun text => honly ▸ List.mem_dedup
      simp only [List.mem_singleton, List.mem_filter, List.mem_map, Bool.and_eq_true,
        beq_iff_eq] at hmem
      obtain ⟨⟨q, hq, hlisted⟩, _⟩ := (hmem only).mp rfl
      refine ⟨List.prefix_append _ _, ⟨item, hitem, hbare, hsame⟩, ⟨q, hq, ?_⟩, ?_⟩
      · rw [relativeTo_append]
        exact hlisted.trans hfound.symm
      · intro q hq hn hread
        rw [relativeTo_append]
        exact ((hmem _).mpr ⟨⟨q, hq, rfl⟩, hn, hread⟩).trans hfound.symm
  next => cases hin

/-! ## Carrying out -/

variable (r)

/-- What a granted plan may change: what is at or below a path in `S`, and the
copy that the transaction keeps of such a path. -/
def MayChange (id : Text) (S : Path → Prop) (p : Path) : Prop :=
  (∃ q, S q ∧ q <+: p) ∨
    ∃ path q, validate r.root path = .ok q ∧ S q ∧ transactionBackup r.root id path <+: p

variable {r} {S : Path → Prop} {stamp : Stamp}

theorem mayChange_below {id : Text} {q : Path} (hq : S q) (s : Path) :
    r.MayChange id S (q ++ s) := Or.inl ⟨q, hq, List.prefix_append _ _⟩

theorem mayChange_self {id : Text} {q : Path} (hq : S q) : r.MayChange id S q :=
  Or.inl ⟨q, hq, List.prefix_refl _⟩

theorem beginTransaction_only {T : Path → Prop} {reason : Text} {operations : List Operation}
    {destructive : Bool} :
    DiskKeeps (Only T) (beginTransaction r.engine stamp reason operations destructive) :=
  DiskKeeps.bind (DiskKeeps.disk (mkdirP_only _)) fun _ => DiskKeeps.still fun _ => rfl

theorem finalize_diskKeeps {R : FS → FS → Prop} [Std.Refl R] [IsTrans FS R] {id : Text}
    {status : TransactionStatus} {error : String} : DiskKeeps R (finalize id status error) :=
  DiskKeeps.bind (DiskKeeps.loadManifest id) fun _ =>
    DiskKeeps.bind (DiskKeeps.writeManifest _) fun _ => DiskKeeps.pure _

theorem snapshot_only {path : Text} {target : Path} (hv : validate r.root path = .ok target)
    (hS : S target) :
    DiskKeeps (Only (r.MayChange stamp.id S)) (snapshot r.engine stamp.id path) :=
  snapshot_diskKeeps (mkdirP_only _) fun _ =>
    copy2_only fun s => Or.inr ⟨path, target, hv, hS, List.prefix_append _ s⟩

theorem orFailed_diskKeeps {R : FS → FS → Prop} [Std.Refl R] [IsTrans FS R] {what : String}
    {path : Text} {x : Prog Exn World Reply} (h : DiskKeeps R x) :
    DiskKeeps R (orFailed stamp what path x) := by
  refine Prog.Keeps.handle (fun _ _ _ => IsTrans.trans _ _ _) h fun e => ?_
  split
  · exact DiskKeeps.bind finalize_diskKeeps fun _ => DiskKeeps.pure _
  · exact DiskKeeps.raise e

theorem commitWrite_only {path content : Text} {target : Path} {create : Bool}
    (hv : validate r.root path = .ok target) (hS : S target) :
    DiskKeeps (Only (r.MayChange stamp.id S))
      (r.commitWrite stamp path target content create) :=
  DiskKeeps.bind beginTransaction_only fun _ =>
  DiskKeeps.bind (snapshot_only hv hS) fun _ =>
  DiskKeeps.bind (DiskKeeps.disk (mkdirP_only _)) fun _ =>
  DiskKeeps.bind (DiskKeeps.disk (writeText_only (mayChange_self hS))) fun _ =>
  DiskKeeps.bind (DiskKeeps.recordAfter _ _ _) fun _ =>
  DiskKeeps.bind finalize_diskKeeps fun _ => DiskKeeps.pure _

theorem approved_diskKeeps {R : FS → FS → Prop} [Std.Refl R] {action : ActionType}
    {paths : List Text} : DiskKeeps R (r.approved action paths) :=
  DiskKeeps.still fun _ => rfl

/-- A granted plan changes what its checked paths lead to, if that is in `S`. -/
theorem carryOut_only {d : FS} {p : Plan} (hp : r.Granted d p)
    (hS : ∀ {path target}, r.Checked d path target → S target) :
    DiskKeeps (Only (r.MayChange stamp.id S)) (r.carryOut stamp p) := by
  cases p with
  | reply reply => exact DiskKeeps.pure _
  | write path target content create =>
    refine DiskKeeps.bind approved_diskKeeps fun answer => ?_
    cases answer with
    | false => exact DiskKeeps.pure _
    | true =>
      exact DiskKeeps.bind (commitWrite_only hp.target (hS hp)) fun _ => DiskKeeps.pure _
  | move source destination src dst =>
    obtain ⟨hsrc, hdst, _, _⟩ := hp
    refine DiskKeeps.bind approved_diskKeeps fun answer => ?_
    cases answer with
    | false => exact DiskKeeps.pure _
    | true =>
      refine DiskKeeps.bind beginTransaction_only fun _ =>
        DiskKeeps.bind (snapshot_only hsrc.target (hS hsrc)) fun _ => orFailed_diskKeeps ?_
      exact DiskKeeps.bind (DiskKeeps.disk (mkdirP_only _)) fun _ =>
        DiskKeeps.bind (DiskKeeps.disk (move_only (mayChange_below (hS hsrc))
          (mayChange_below (hS hdst)))) fun _ =>
        DiskKeeps.bind (DiskKeeps.recordAfter _ _ _) fun _ =>
        DiskKeeps.bind finalize_diskKeeps fun _ => DiskKeeps.pure _
  | delete path target =>
    refine DiskKeeps.bind approved_diskKeeps fun answer => ?_
    cases answer with
    | false => exact DiskKeeps.pure _
    | true =>
      refine DiskKeeps.bind beginTransaction_only fun _ =>
        DiskKeeps.bind (snapshot_only hp.target (hS hp)) fun _ => orFailed_diskKeeps ?_
      exact DiskKeeps.bind (DiskKeeps.disk (unlink_only (mayChange_self (hS hp)))) fun _ =>
        DiskKeeps.bind finalize_diskKeeps fun _ => DiskKeeps.pure _

end Registry

/-! ## The five tools -/

/-- A call of one of the write tools. -/
inductive WriteCall where
  | editFile (filepath old new : Text) (replaceAll : Bool)
  | appendFile (filepath content : Text)
  | writeFile (filepath content : Text) (overwrite : Bool)
  | moveFile (source destination : Text)
  | deleteFile (filepath : Text)

/-- What the user is asked before a plan is carried out. -/
def Plan.request : Plan → Option ApprovalRequest
  | .reply _ => none
  | .write path _ _ create => some ⟨if create then .fileWrite else .fileEdit, [path]⟩
  | .move source destination _ _ => some ⟨.fileEdit, [source, destination]⟩
  | .delete path _ => some ⟨.fileDelete, [path]⟩

namespace Registry

variable (r : Registry)

def plan (d : FS) : WriteCall → Except Exn Plan
  | .editFile filepath old new replaceAll => r.editPlan d filepath old new replaceAll
  | .appendFile filepath content => r.appendPlan d filepath content
  | .writeFile filepath content overwrite => r.writePlan d filepath content overwrite
  | .moveFile source destination => r.movePlan d source destination
  | .deleteFile filepath => r.deletePlan d filepath

def call (stamp : Stamp) : WriteCall → Prog Exn World Reply
  | .editFile filepath old new replaceAll => r.editFile stamp filepath old new replaceAll
  | .appendFile filepath content => r.appendFile stamp filepath content
  | .writeFile filepath content overwrite => r.writeFile stamp filepath content overwrite
  | .moveFile source destination => r.moveFile stamp source destination
  | .deleteFile filepath => r.deleteFile stamp filepath

/-- The approver refuses what the call asks for, if it asks. -/
def Refused (w : World) (c : WriteCall) : Prop :=
  ∀ p, r.plan w.disk c = .ok p → ∀ request ∈ p.request,
    (ask r.engine.prompts w.memory request).1 = false

variable {r}

theorem call_eq (stamp : Stamp) (c : WriteCall) :
    r.call stamp c = r.perform stamp fun d => r.plan d c := by
  cases c <;> rfl

/-- Every plan of the five tools is granted. -/
theorem plan_granted {d : FS} {c : WriteCall} {p : Plan} (h : r.plan d c = .ok p) :
    r.Granted d p := by
  cases c with
  | editFile => exact (editPlan_onlyWrites h).granted
  | appendFile => exact (appendPlan_onlyWrites h).granted
  | writeFile => exact (writePlan_onlyWrites h).granted
  | moveFile => exact movePlan_granted h
  | deleteFile => exact deletePlan_granted h

/-- A plan that is more than an answer wants changes. -/
theorem Granted.changes {d : FS} {p : Plan} (hp : r.Granted d p) {request : ApprovalRequest}
    (h : p.request = some request) : r.readOnly = false ∧ r.dryRun = false := by
  cases p with
  | reply => cases h
  | write => exact Checked.changes hp
  | move => exact Checked.changes hp.1
  | delete => exact Checked.changes hp

/-- Without the user's yes nothing is carried out. -/
theorem carryOut_refused {stamp : Stamp} {p : Plan} {w : World}
    (h : ∀ request ∈ p.request, (ask r.engine.prompts w.memory request).1 = false) :
    (r.carryOut stamp p w).2.disk = w.disk := by
  have hask : ∀ action paths, (ask r.engine.prompts w.memory ⟨action, paths⟩).1 = false →
      r.approved action paths w
        = (.ok false, { w with memory := (ask r.engine.prompts w.memory ⟨action, paths⟩).2 }) := by
    intro action paths ha
    unfold approved
    rw [← ha]
  cases p with
  | reply => rfl
  | write path target content create =>
    rw [carryOut, Prog.bind_of_ok (hask _ _ (h _ rfl))]
    rfl
  | move source destination src dst =>
    rw [carryOut, Prog.bind_of_ok (hask _ _ (h _ rfl))]
    rfl
  | delete path target =>
    rw [carryOut, Prog.bind_of_ok (hask _ _ (h _ rfl))]
    rfl

theorem call_of_ok {stamp : Stamp} {c : WriteCall} {w : World} {p : Plan}
    (h : r.plan w.disk c = .ok p) : r.call stamp c w = r.carryOut stamp p w := by
  rw [call_eq]
  unfold perform
  rw [Prog.bind_apply]
  simp only [Prog.read, h]

theorem call_of_error {stamp : Stamp} {c : WriteCall} {w : World} {e : Exn}
    (h : r.plan w.disk c = .error e) : r.call stamp c w = (.error e, w) := by
  rw [call_eq]
  unfold perform
  rw [Prog.bind_apply]
  simp only [Prog.read, h]

theorem call_only (hroot : ∀ n ∈ r.root, IsName n) {allowed : List Text}
    (ha : r.allowedWritePaths = some allowed) (stamp : Stamp) (c : WriteCall) (w : World) :
    Only (r.MayChange stamp.id (r.Locked w.disk allowed)) w.disk (r.call stamp c w).2.disk := by
  cases hplan : r.plan w.disk c with
  | error e =>
    rw [call_of_error hplan]
    exact Std.Refl.refl w.disk
  | ok p =>
    rw [call_of_ok hplan]
    exact carryOut_only (plan_granted hplan) (fun h => h.locked hroot ha) w

theorem call_unchanged {stamp : Stamp} {c : WriteCall} {w : World}
    (h : r.readOnly = true ∨ r.dryRun = true ∨ r.Refused w c) :
    (r.call stamp c w).2.disk = w.disk := by
  cases hplan : r.plan w.disk c with
  | error e => rw [call_of_error hplan]
  | ok p =>
    rw [call_of_ok hplan]
    apply carryOut_refused
    intro request hrequest
    obtain ⟨hread, hdry⟩ := (plan_granted hplan).changes hrequest
    rw [hread, hdry] at h
    simp only [Bool.false_eq_true, false_or] at h
    exact h p hplan request hrequest

/-- **The lock holds**: what changes is locked or the copy of what is, and
nothing changes when the session is read-only or a dry run or the approver
refuses. -/
theorem call_locked (r : Registry) (hroot : ∀ n ∈ r.root, IsName n) (allowed : List Text)
    (ha : r.allowedWritePaths = some allowed) (stamp : Stamp) (c : WriteCall) (w : World) :
    (∀ p, (r.call stamp c w).2.disk.content p ≠ w.disk.content p →
      r.MayChange stamp.id (r.Locked w.disk allowed) p) ∧
    (r.readOnly = true ∨ r.dryRun = true ∨ r.Refused w c →
      (r.call stamp c w).2.disk = w.disk) :=
  ⟨call_only hroot ha stamp c w, call_unchanged⟩

/-- A registry for concrete runs: only `notes.md` may be written, and the user
says yes. -/
def notesOnly : Registry where
  engine := Engine.agreeable
  casing := Casing.ascii
  readOnly := false
  dryRun := false
  allowedWritePaths := some ["notes.md".toList]
  allowedReadPaths := none
  readAliases := []
  checkText := fun _ _ => none
  gutting := fun _ _ => none
  looksElided := fun _ => false
  unwrap := fun _ => none
  replaceIn := fun _ _ _ _ => .error "old_string not found."

/-- A call under a lock. -/
theorem call_locked_append :
    notesOnly.MayChange ['t']
      (notesOnly.Locked (World.ofFiles [("notes.md", "a")]).disk ["notes.md".toList])
      ["ws".toList, "notes.md".toList] :=
  (call_locked notesOnly (by decide) ["notes.md".toList] rfl ⟨['t'], ['1']⟩
    (.appendFile "notes.md".toList "b".toList) (World.ofFiles [("notes.md", "a")])).1
      ["ws".toList, "notes.md".toList] (by decide)

/-- A directory that is not walked may hold another file of the name: it does
not count, and `src/notes.md` is written. -/
theorem call_not_only_of_its_name :
    let w := World.ofFiles [("src/notes.md", "a"), ("node_modules/notes.md", "b")]
    ¬ ∀ p : Path, (notesOnly.call ⟨['t'], ['1']⟩ (.appendFile "src/notes.md".toList "c".toList)
          w).2.disk.content p ≠ w.disk.content p → IsUserPath notesOnly.root p →
        Inside notesOnly.casing notesOnly.root ["notes.md".toList] p ∨
          ∀ q : Path, notesOnly.root <+: q → w.disk.isFile q = true →
            notesOnly.casing.lower q.name = notesOnly.casing.lower p.name →
              q.map notesOnly.casing.lower = p.map notesOnly.casing.lower := by
  intro w h
  have hchanged : (notesOnly.call ⟨['t'], ['1']⟩ (.appendFile "src/notes.md".toList "c".toList)
      w).2.disk.content ["ws".toList, "src".toList, "notes.md".toList]
        ≠ w.disk.content ["ws".toList, "src".toList, "notes.md".toList] := by
    decide
  rcases h _ hchanged (by decide) with hin | hall
  · revert hin
    decide
  · have := hall ["ws".toList, "node_modules".toList, "notes.md".toList] (by decide)
      (by decide) (by decide)
    revert this
    decide

end Registry

end Shamsu.Tools
