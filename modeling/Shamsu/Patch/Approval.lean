import Shamsu.Patch.Effects

/-!
# What the user is asked, and what is done

The approval of a change request shows the paths of its operations and has an
action type computed from its operations. What is done also depends on the diff.
Two theorems say when what is done stays within what was asked:

- `executeChangeRequest_within_approval`: the files written and removed are the
  approved ones, none under `.git`, exactly when the file patches of the diff
  are about such files;
- `executeChangeRequest_removal_asked`: a file that was there is removed only
  with a `file_delete` approval, exactly when the request is destructive or its
  diff removes no such file.

Both go through `runRequest_footprint`: an execution does the effects of its
file patches and operations, and nothing else.
-/

namespace Shamsu.Patch

open Shamsu.Lib Shamsu.Py Shamsu.Safety

/-- The formatter writes only files it is given, the command none at all. -/
structure Engine.IsTidy (engine : Engine) : Prop where
  format : ∀ files d, Disk.Footprint
    (fun e => ∃ file ∈ files, e = .put (locate engine.root file)) d (engine.format files d)
  verify : ∀ command d, Disk.Footprint (fun _ => False) d (engine.verify command d).2

/-- The effects in `A` allow a request: the program's own files, what the file
patches and the operations do, and formatting what they touched. -/
structure Permits (engine : Engine) (plan : ChangePlan) (patches : List FilePatch)
    (A : Effect Text → Prop) : Prop where
  own : ∀ p, IsOwnPath engine.root p → A (.put p)
  diff : ∀ patch ∈ patches, ∀ e ∈ patch.effects engine.root, A e
  puts : ∀ op ∈ plan.operations, ∀ k ∈ op.puts, ∀ t,
    validateMutationPath engine.root k = .ok t → A (.put t)
  drops : ∀ op ∈ plan.operations, ∀ k ∈ op.drops, ∀ t,
    validateMutationPath engine.root k = .ok t → A (.drop t)
  formattedDiff : ∀ patch ∈ patches, ∀ e ∈ patch.effects engine.root, A (.put e.path)
  formatted : ∀ k ∈ plan.touchedPaths, A (.put (locate engine.root k))

section Footprint

variable {engine : Engine} {id : Text} {A : Effect Text → Prop} {plan : ChangePlan}

/-! ## The paths a request reports -/

/-- Whatever `x` returns meets `P`. -/
def Yields {α : Type} (P : α → Prop) (x : Prog Exn World α) : Prop :=
  ∀ w w' a, x w = (.ok a, w') → P a

theorem Yields.pure {α : Type} {P : α → Prop} {a : α} (h : P a) :
    Yields P (Pure.pure a : Prog Exn World α) := by
  intro w w' b hrun
  cases hrun
  exact h

theorem Yields.bind {α β : Type} {P : β → Prop} {x : Prog Exn World α}
    {f : α → Prog Exn World β} (h : ∀ a, Yields P (f a)) : Yields P (x >>= f) := by
  intro w w' b hrun
  obtain ⟨a, w₁, _, hrun⟩ := Prog.bind_ok.mp hrun
  exact h a w₁ w' b hrun

theorem Yields.withTargets {α : Type} {P : MutationOutcome → Prop} {targets : Except Exn α}
    {refusal : String → MutationOutcome} {body : α → Prog Exn World MutationOutcome}
    (hr : ∀ message, P (refusal message)) (hb : ∀ a, Yields P (body a)) :
    Yields P (withTargets targets refusal body) := by
  intro w w' o hrun
  unfold Patch.withTargets at hrun
  cases targets with
  | ok a => exact hb a w w' o hrun
  | error e =>
    dsimp only at hrun
    split at hrun
    · cases hrun; exact hr _
    · cases hrun

/-- The paths an outcome reports are the operation's. -/
def Reports (op : Operation) (outcome : MutationOutcome) : Prop :=
  outcome.path = op.path ∧ (outcome.destPath = [] ∨ outcome.destPath = op.destPath)

theorem runFileOperation_reports (op : Operation) :
    Yields (Reports op) (runFileOperation engine id op) := by
  have hcreate : ∀ content, Yields (Reports op) (createFile engine id op.path content) := by
    intro content
    refine Yields.withTargets (fun _ => ⟨rfl, Or.inl rfl⟩) fun t => Yields.bind fun found => ?_
    split
    · exact Yields.pure ⟨rfl, Or.inl rfl⟩
    · exact Yields.bind fun _ => Yields.bind fun _ => Yields.bind fun _ => Yields.bind fun _ =>
        Yields.pure ⟨rfl, Or.inl rfl⟩
  have hedit : ∀ content, Yields (Reports op) (editFile engine id op.path content) := by
    intro content
    refine Yields.withTargets (fun _ => ⟨rfl, Or.inl rfl⟩) fun t => Yields.bind fun found => ?_
    split
    · exact Yields.bind fun _ => Yields.bind fun _ => Yields.bind fun _ =>
        Yields.pure ⟨rfl, Or.inl rfl⟩
    · exact Yields.pure ⟨rfl, Or.inl rfl⟩
  have hdelete : Yields (Reports op) (deleteFile engine id op.path) := by
    refine Yields.withTargets (fun _ => ⟨rfl, Or.inl rfl⟩) fun t => Yields.bind fun found => ?_
    split
    · exact Yields.bind fun _ => Yields.bind fun _ => Yields.bind fun _ =>
        Yields.pure ⟨rfl, Or.inl rfl⟩
    · exact Yields.pure ⟨rfl, Or.inl rfl⟩
  have hdirectory : Yields (Reports op) (createDirectory engine id op.path) :=
    Yields.withTargets (fun _ => ⟨rfl, Or.inl rfl⟩) fun t =>
      Yields.bind fun _ => Yields.bind fun _ => Yields.bind fun _ =>
        Yields.pure ⟨rfl, Or.inl rfl⟩
  have hrelocate : ∀ kind,
      Yields (Reports op) (relocate engine id kind op.path op.destPath) := by
    intro kind
    refine Yields.withTargets (fun _ => ⟨rfl, Or.inr rfl⟩) fun ⟨src, dst⟩ =>
      Yields.bind fun missing => ?_
    split
    · exact Yields.pure ⟨rfl, Or.inr rfl⟩
    · refine Yields.bind fun found => ?_
      split
      · exact Yields.pure ⟨rfl, Or.inr rfl⟩
      · exact Yields.bind fun _ => Yields.pure ⟨rfl, Or.inr rfl⟩
  unfold runFileOperation
  cases op.op with
  | createFile => exact hcreate op.content
  | editFile => exact hedit op.content
  | renameFile => exact hrelocate .renameFile
  | moveFile => exact hrelocate .moveFile
  | deleteFile => exact hdelete
  | createDirectory => exact hdirectory
  | applyPatch => intro _ _ _ hrun; cases hrun

/-- The operations report the paths they name. -/
theorem runOperations_reports {diffPaths : List Text} : ∀ (ops : List Operation),
    Yields (fun touched => ∀ k ∈ touched, ∃ op ∈ ops, k = op.path ∨ (k = op.destPath ∧ k ≠ []))
      (runOperations engine id diffPaths ops)
  | [] => Yields.pure fun k hk => absurd hk (List.not_mem_nil)
  | op :: ops => by
    intro w w' touched hrun k hk
    have hlater : ∀ k, (∃ op ∈ ops, k = op.path ∨ (k = op.destPath ∧ k ≠ [])) →
        ∃ o ∈ op :: ops, k = o.path ∨ (k = o.destPath ∧ k ≠ []) :=
      fun k ⟨o, ho, h⟩ => ⟨o, List.mem_cons_of_mem _ ho, h⟩
    unfold runOperations at hrun
    split at hrun
    · exact hlater k (runOperations_reports ops w w' touched hrun k hk)
    obtain ⟨outcome, w₁, ho, hrun⟩ := Prog.bind_ok.mp hrun
    obtain ⟨hpath, hdest⟩ := runFileOperation_reports op w w₁ outcome ho
    split at hrun
    swap
    · cases hrun
    obtain ⟨rest, w₂, hr, hrun⟩ := Prog.bind_ok.mp hrun
    cases hrun
    have hrest := runOperations_reports ops w₁ _ rest hr
    rcases List.mem_cons.mp hk with rfl | hk
    · exact ⟨op, List.mem_cons_self .., Or.inl hpath⟩
    split at hk
    · exact hlater k (hrest k hk)
    next hne =>
      rcases List.mem_cons.mp hk with rfl | hk
      · exact ⟨op, List.mem_cons_self .., Or.inr ⟨hdest.resolve_left hne, hne⟩⟩
      · exact hlater k (hrest k hk)

/-- The diff reports paths it has effects on. -/
theorem applyFilePatchTx_reports {patch : FilePatch}
    (hpaths : IsHeaderPath engine.root patch.oldPath ∧ IsHeaderPath engine.root patch.newPath) :
    Yields (fun k => ∃ e ∈ patch.effects engine.root, e.path = locate engine.root k)
      (applyFilePatchTx engine id patch) := by
  intro w w' k hrun
  unfold applyFilePatchTx at hrun
  rcases Prog.ofExcept_bind hrun with ⟨_, _, h, _⟩ | ⟨old, hold, hrun⟩
  · cases h
  rcases Prog.ofExcept_bind hrun with ⟨_, _, h, _⟩ | ⟨new, hnew, hrun⟩
  · cases h
  rcases patchTarget_cases hpaths.1 hold with ⟨ho, rfl⟩ | ⟨ho, rfl, _⟩
  · rcases patchTarget_cases hpaths.2 hnew with ⟨hn, rfl⟩ | ⟨hn, rfl, _⟩
    · cases hrun
    · obtain ⟨_, _, _, hrun⟩ := Prog.bind_ok.mp hrun
      cases hrun
      exact ⟨_, by rw [effects_create ho hn]; exact List.mem_singleton_self _, rfl⟩
  rcases patchTarget_cases hpaths.2 hnew with ⟨hn, rfl⟩ | ⟨hn, rfl, _⟩
  · obtain ⟨_, _, _, hrun⟩ := Prog.bind_ok.mp hrun
    obtain ⟨_, _, _, hrun⟩ := Prog.bind_ok.mp hrun
    obtain ⟨_, _, _, hrun⟩ := Prog.bind_ok.mp hrun
    cases hrun
    exact ⟨_, by rw [effects_delete ho hn]; exact List.mem_singleton_self _, rfl⟩
  · obtain ⟨_, _, _, hrun⟩ := Prog.bind_ok.mp hrun
    obtain ⟨_, _, _, hrun⟩ := Prog.bind_ok.mp hrun
    cases hrun
    refine ⟨_, by rw [effects_edit ho hn]; exact List.mem_cons_self .., ?_⟩
    rw [FilePatch.displayPath, if_pos hn]
    rfl

theorem applyFilePatchesTx_reports : ∀ (patches : List FilePatch),
    (∀ patch ∈ patches,
      IsHeaderPath engine.root patch.oldPath ∧ IsHeaderPath engine.root patch.newPath) →
    Yields (fun touched => ∀ k ∈ touched, ∃ patch ∈ patches,
        ∃ e ∈ patch.effects engine.root, e.path = locate engine.root k)
      (applyFilePatchesTx engine id patches)
  | [], _ => Yields.pure fun k hk => absurd hk (List.not_mem_nil)
  | patch :: patches, hpaths => by
    intro w w' touched hrun k hk
    obtain ⟨path, w₁, hp, hrun⟩ := Prog.bind_ok.mp hrun
    obtain ⟨rest, w₂, hr, hrun⟩ := Prog.bind_ok.mp hrun
    cases hrun
    rcases List.mem_cons.mp hk with rfl | hk
    · obtain ⟨e, he, hpath⟩ :=
        applyFilePatchTx_reports (hpaths patch (List.mem_cons_self ..)) w w₁ k hp
      exact ⟨patch, List.mem_cons_self .., e, he, hpath⟩
    · obtain ⟨q, hq, h⟩ := applyFilePatchesTx_reports patches
        (fun q hq => hpaths q (List.mem_cons_of_mem _ hq)) w₁ _ rest hr k hk
      exact ⟨q, List.mem_cons_of_mem _ hq, h⟩

/-! ## The effects of a request -/

/-- The file patches of a request come from the parser. -/
theorem requestPatches_ok {patchText : Text} {patches : List FilePatch}
    (h : requestPatches engine patchText = .ok patches) : ∀ patch ∈ patches,
      IsHeaderPath engine.root patch.oldPath ∧ IsHeaderPath engine.root patch.newPath := by
  intro patch hp
  unfold requestPatches at h
  split at h
  · cases h; simp at hp
  · exact parseFilePatches_ok h hp

theorem applyRequest_staysIn {patchText : Text}
    (hpermits : ∀ patches, requestPatches engine patchText = .ok patches →
      Permits engine plan patches A) :
    StaysIn engine.root A (applyRequest engine id plan patchText) := by
  unfold applyRequest
  refine DiskKeeps.ofExcept_bind fun patches hpatches => ?_
  have h := hpermits patches hpatches
  exact DiskKeeps.bind (DiskKeeps.ofExcept _) fun _ =>
    DiskKeeps.bind (applyFilePatchesTx_staysIn h.own (requestPatches_ok hpatches) h.diff) fun _ =>
    DiskKeeps.bind (runOperations_staysIn h.own h.puts h.drops) fun _ => DiskKeeps.pure _

/-- A request that is applied to its end reports paths that may be formatted. -/
theorem applyRequest_reports {patchText : Text}
    (hpaths : ∀ op ∈ plan.operations, op.path ≠ [])
    (hpermits : ∀ patches, requestPatches engine patchText = .ok patches →
      Permits engine plan patches A) :
    Yields (fun touched => ∀ k ∈ touched, A (.put (locate engine.root k)))
      (applyRequest engine id plan patchText) := by
  intro w w' touched hrun k hk
  rcases Prog.ofExcept_bind hrun with ⟨_, _, h, _⟩ | ⟨patches, hpatches, hrun⟩
  · cases h
  have h := hpermits patches hpatches
  dsimp only at hrun
  obtain ⟨_, w₁, _, hrun⟩ := Prog.bind_ok.mp hrun
  obtain ⟨patched, w₂, hp, hrun⟩ := Prog.bind_ok.mp hrun
  obtain ⟨done, w₃, ho, hrun⟩ := Prog.bind_ok.mp hrun
  cases hrun
  rcases List.mem_append.mp hk with hk | hk
  · obtain ⟨patch, hpatch, e, he, hpath⟩ :=
      applyFilePatchesTx_reports patches (requestPatches_ok hpatches) w₁ w₂ patched hp k hk
    rw [← hpath]
    exact h.formattedDiff patch hpatch e he
  · obtain ⟨op, hop, hk⟩ := runOperations_reports _ w₂ _ done ho k hk
    refine h.formatted k ?_
    rcases hk with rfl | ⟨rfl, hne⟩
    · exact ChangePlan.mem_touchedPaths hop (Or.inl rfl) (hpaths op hop)
    · exact ChangePlan.mem_touchedPaths hop (Or.inr rfl) hne

instance (A : Effect Text → Prop) : Std.Refl (Disk.Footprint A : FS → FS → Prop) :=
  ⟨Disk.Footprint.refl⟩

instance (A : Effect Text → Prop) : IsTrans FS (Disk.Footprint A) :=
  ⟨fun _ _ _ => Disk.Footprint.trans⟩

/-- The last steps format what was touched. -/
theorem concludeRequest_footprint {touched : List Text} (htidy : engine.IsTidy)
    (hA : ∀ k ∈ touched, A (.put (locate engine.root k))) :
    DiskKeeps (Disk.Footprint A) (concludeRequest engine id plan touched) := by
  have hformat : Prog.Keeps (Disk.Footprint A)
      (Prog.modify fun d => engine.format touched d : FSProg Unit) := by
    intro d
    refine (htidy.format touched d).mono fun e he => ?_
    obtain ⟨k, hk, rfl⟩ := he
    exact hA k hk
  have hverify : DiskKeeps (Disk.Footprint A)
      (runVerification engine plan.verificationCommand) := by
    unfold runVerification
    split
    · exact DiskKeeps.pure _
    · exact DiskKeeps.disk fun d => (htidy.verify _ d).mono fun _ h => h.elim
  unfold concludeRequest
  exact DiskKeeps.bind (DiskKeeps.disk hformat) fun _ => DiskKeeps.bind hverify fun v =>
    DiskKeeps.bind (DiskKeeps.bind (DiskKeeps.loadManifest id) fun _ =>
      DiskKeeps.writeManifest _) fun _ =>
    DiskKeeps.bind (DiskKeeps.bind (DiskKeeps.loadManifest id) fun _ =>
      DiskKeeps.bind (DiskKeeps.writeManifest _) fun _ => DiskKeeps.pure _) fun _ =>
    DiskKeeps.pure _

/-- **An execution does the effects of its file patches and operations only.** -/
theorem runRequest_footprint {patchText : Text} {w w' : World} {r : Except Exn MutationResult}
    (htidy : engine.IsTidy) (hpaths : ∀ op ∈ plan.operations, op.path ≠ [])
    (hpermits : ∀ patches, requestPatches engine patchText = .ok patches →
      Permits engine plan patches A)
    (hroot : w.disk.isDir engine.root = true)
    (hrun : runRequest engine id plan patchText w = (r, w')) :
    Disk.Footprint A w.disk w'.disk := by
  unfold runRequest at hrun
  split at hrun
  next touched w₁ happly =>
    obtain ⟨_, f₁⟩ := (applyRequest_staysIn hpermits).of_run happly hroot
    have hA := applyRequest_reports hpaths hpermits w w₁ touched happly
    exact f₁.trans ((concludeRequest_footprint htidy hA).of_run hrun)
  next e w₁ happly =>
    obtain ⟨_, f₁⟩ := (applyRequest_staysIn hpermits).of_run happly hroot
    split at hrun
    · have hfinal : DiskKeeps (Disk.Footprint A) (finalize id .failed
          s!"{str plan.reason}: {e.kind.className}: {e.message}") :=
        DiskKeeps.bind (DiskKeeps.loadManifest id) fun _ =>
          DiskKeeps.bind (DiskKeeps.writeManifest _) fun _ => DiskKeeps.pure _
      exact f₁.trans ((DiskKeeps.bind hfinal fun m => DiskKeeps.pure _).of_run hrun)
    · cases hrun; exact f₁

/-- The statuses of a request whose diff and operations were applied to the end. -/
def Status.isCompleted : Status → Bool
  | .verified | .appliedUnverified | .verificationFailed => true
  | _ => false

/-- **A completed request has done every effect of its diff.** -/
theorem runRequest_happened {patchText : Text} {w w' : World} {result : MutationResult}
    {patches : List FilePatch} {patch : FilePatch} {e : Effect Text} (htidy : engine.IsTidy)
    (hpatches : requestPatches engine patchText = .ok patches) (hp : patch ∈ patches)
    (he : e ∈ patch.effects engine.root) (hroot : w.disk.isDir engine.root = true)
    (hdone : result.status.isCompleted = true)
    (hrun : runRequest engine id plan patchText w = (.ok result, w')) :
    Happened e w.disk w'.disk := by
  unfold runRequest at hrun
  split at hrun
  next touched w₁ happly =>
    have hconclude := (concludeRequest_footprint (A := Anything) htidy
      (fun _ _ => trivial)).of_run hrun
    refine Happened.after ?_ hconclude
    rcases Prog.ofExcept_bind happly with ⟨_, h, _⟩ | ⟨patches', hpatches', happly⟩
    · rw [hpatches] at h; cases h
    obtain rfl := Except.ok.inj (hpatches.symm.trans hpatches')
    dsimp only at happly
    have hpaths := requestPatches_ok hpatches
    obtain ⟨_, w₂, hcheck, happly⟩ := Prog.bind_ok.mp happly
    obtain ⟨_, rfl⟩ := Prod.mk.inj hcheck
    obtain ⟨patched, w₃, hdiff, happly⟩ := Prog.bind_ok.mp happly
    obtain ⟨hroot₃, _⟩ := (applyFilePatchesTx_staysIn (A := Anything) ownAnything hpaths
      fun _ _ _ _ => trivial).of_run hdiff hroot
    have hops := (DiskKeeps.bind (runOperations_staysIn (A := Anything) ownAnything
      (fun _ _ _ _ _ _ => trivial) fun _ _ _ _ _ _ => trivial) fun _ =>
        DiskKeeps.pure _).of_run happly hroot₃
    exact (applyFilePatchesTx_emits hpaths ⟨patch, hp, he⟩ w _ patched hroot hdiff).after hops.2
  next e w₁ happly =>
    split at hrun
    · obtain ⟨m, w₂, _, hrun⟩ := Prog.bind_ok.mp hrun
      cases hrun
      cases hdone
    · cases hrun

end Footprint

/-! ## Within the approval -/

section Approval

variable {engine : Engine} {stamp : Stamp} {w w' : World}

/-- `p` is a path the user is asked to approve, and not under `.git`. -/
def IsApprovedPath (engine : Engine) (plan : ChangePlan) (p : Path) : Prop :=
  (∃ k ∈ plan.touchedPaths, validate engine.root k = .ok p) ∧
    ¬ engine.root ++ [".git".toList] <+: p

/-- Every user file written or removed is approved. -/
def IsApprovedEffect (engine : Engine) (plan : ChangePlan) (e : Effect Text) : Prop :=
  IsUserPath engine.root e.path → IsApprovedPath engine plan e.path

/-- The file patches of the diff are about approved files. -/
def DiffApproved (engine : Engine) (request : ChangeRequest) : Prop :=
  ∀ patches, requestPatches engine (engine.sanitize request.patch) = .ok patches →
    ∀ patch ∈ patches, ∀ e ∈ patch.effects engine.root,
      IsApprovedEffect engine request.changePlan e

/-- A key of an operation that passes its check is approved. -/
theorem isApprovedPath_of_operation {plan : ChangePlan} {op : Operation} {k : Text} {t : Path}
    (hop : op ∈ plan.operations) (hk : k = op.path ∨ k = op.destPath)
    (hv : validateMutationPath engine.root k = .ok t) : IsApprovedPath engine plan t := by
  obtain ⟨hvalid, rfl, hgit⟩ := validateMutationPath_ok hv
  obtain ⟨hclean, _, _⟩ := cleanKey_of_mutation hv
  have hne : k ≠ [] := by
    intro heq
    subst heq
    cases hv
  exact ⟨⟨k, ChangePlan.mem_touchedPaths hop hk hne, hvalid⟩, not_under_git hclean.1 hgit⟩

theorem puts_subset {op : Operation} {k : Text} (h : k ∈ op.puts) :
    k = op.path ∨ k = op.destPath := by
  unfold Operation.puts at h
  split at h <;> simp_all

theorem drops_subset {op : Operation} {k : Text} (h : k ∈ op.drops) :
    k = op.path ∨ k = op.destPath := by
  unfold Operation.drops at h
  split at h <;> simp_all

/-- The workspace is there once the transaction has begun. -/
theorem beginTransaction_root {reason : Text} {operations : List Operation} {destructive : Bool}
    (hrun : beginTransaction engine stamp reason operations destructive w = (.ok (), w')) :
    w'.disk.isDir engine.root = true ∧ ∀ A, Disk.Footprint A w.disk w'.disk := by
  obtain ⟨hc, rfl⟩ := beginTransaction_ok hrun
  refine ⟨?_, fun A => Disk.Footprint.mkdirs _ _ hc⟩
  rw [Disk.isDir_iff, Disk.get_mkdirs, if_pos (Tracked.root_prefix_transactionDir ..)]

/-- An execution carried to its end has done what its diff says. -/
theorem executeChangeRequest_happened {request : ChangeRequest} {payload : Value}
    {result : MutationResult} {patches : List FilePatch} {patch : FilePatch} {e : Effect Text}
    (htidy : engine.IsTidy) (hparse : parseChangeRequest payload = .ok request)
    (hrun : executeChangeRequest engine stamp payload w = (.ok result, w'))
    (hdone : result.status.isCompleted = true)
    (hpatches : requestPatches engine (engine.sanitize request.patch) = .ok patches)
    (hp : patch ∈ patches) (he : e ∈ patch.effects engine.root) :
    Happened e w.disk w'.disk := by
  rcases executeChangeRequest_cases hrun with ⟨_, _, hrefused⟩ | ⟨request', w₁, w₂, hparse', ha⟩
  · rcases hrefused result rfl with hs | hs <;> (rw [hs] at hdone; cases hdone)
  obtain rfl := Except.ok.inj (hparse.symm.trans hparse')
  obtain ⟨hroot, hbegin⟩ := beginTransaction_root ha.begun
  rw [(askApproval_world ha.asked).1] at hbegin
  exact (runRequest_happened htidy hpatches hp he hroot hdone ha.ran).before (hbegin Anything)

/-- **The files written and removed are approved ones**, none under `.git`, when
the file patches of the diff are about such files; and only then, if the request
is carried out to the end. -/
theorem executeChangeRequest_within_approval {request : ChangeRequest} {payload : Value}
    {r : Except Exn MutationResult} (htidy : engine.IsTidy)
    (hparse : parseChangeRequest payload = .ok request)
    (hrun : executeChangeRequest engine stamp payload w = (r, w')) :
    (DiffApproved engine request →
      Disk.Footprint (IsApprovedEffect engine request.changePlan) w.disk w'.disk) ∧
    ∀ result, r = .ok result → result.status.isCompleted = true →
      Disk.Footprint (IsApprovedEffect engine request.changePlan) w.disk w'.disk →
      DiffApproved engine request := by
  constructor
  swap
  · intro result heq hdone hwithin patches hpatches patch hp e he
    subst heq
    obtain ⟨l, hl, hmem⟩ :=
      executeChangeRequest_happened htidy hparse hrun hdone hpatches hp he
    exact hwithin.mem hl hmem
  intro hdiff
  rcases executeChangeRequest_cases hrun with ⟨hsame, _⟩ | ⟨request', w₁, w₂, hparse', ha⟩
  · rw [hsame]
    exact Disk.Footprint.refl _
  obtain rfl := Except.ok.inj (hparse.symm.trans hparse')
  obtain ⟨hroot, hbegin⟩ := beginTransaction_root ha.begun
  rw [(askApproval_world ha.asked).1] at hbegin
  obtain ⟨plan, hplan⟩ := parseChangeRequest_plan hparse
  have hops := parseChangePlan_destructive hplan
  refine (hbegin _).trans (runRequest_footprint htidy (fun op hop => (hops op hop).1)
    (fun patches hpatches => ?_) hroot ha.ran)
  refine ⟨fun p hp hu => absurd hp hu.2, hdiff patches hpatches, ?_, ?_, hdiff patches hpatches,
    ?_⟩
  · exact fun op hop k hk t hv _ => isApprovedPath_of_operation hop (puts_subset hk) hv
  · exact fun op hop k hk t hv _ => isApprovedPath_of_operation hop (drops_subset hk) hv
  · intro k hk _
    obtain ⟨t, hv⟩ := ha.checked k hk
    obtain ⟨hvalid, _, hgit⟩ := validateMutationPath_ok hv
    obtain ⟨hclean, hleads, _⟩ := cleanKey_of_mutation hv
    show IsApprovedPath engine request.changePlan (locate engine.root k)
    rw [locate_clean hclean]
    exact ⟨⟨k, hk, hleads⟩, not_under_git hclean.1 hgit⟩

end Approval

theorem agreeable_isTidy : Engine.agreeable.IsTidy :=
  ⟨fun _ d => Disk.Footprint.refl d, fun _ d => Disk.Footprint.refl d⟩

/-- Edit `a.txt`, which the plan names. -/
def editNamed : Value := requestOf [[("op", "apply_patch"), ("path", "a.txt")]]
  "--- a/a.txt\n+++ b/a.txt\n@@ -1 +1 @@\n-x\n+z\n"

/-- The theorem on a run: `a.txt` is all that is written. -/
theorem executeChangeRequest_within_approval_editNamed :
    ∃ request r w', parseChangeRequest editNamed = .ok request ∧
      executeChangeRequest .agreeable ⟨"t1".toList, "2024".toList⟩ editNamed
        (.ofFiles [("a.txt", "x\n")]) = (r, w') ∧
      Disk.Footprint (IsApprovedEffect .agreeable request.changePlan)
        (World.ofFiles [("a.txt", "x\n")]).disk w'.disk := by
  have hparse : parseChangeRequest editNamed = .ok ⟨⟨"tidy up".toList,
      [⟨.applyPatch, "a.txt".toList, [], [], []⟩], [], false⟩,
      "--- a/a.txt\n+++ b/a.txt\n@@ -1 +1 @@\n-x\n+z\n".toList⟩ := by decide
  obtain ⟨r, w', hrun⟩ := Prog.exists_run (executeChangeRequest .agreeable
    ⟨"t1".toList, "2024".toList⟩ editNamed) (.ofFiles [("a.txt", "x\n")])
  refine ⟨_, r, w', hparse, hrun,
    (executeChangeRequest_within_approval agreeable_isTidy hparse hrun).1 ?_⟩
  intro patches hpatches patch hp e he _
  have hpatches' : requestPatches .agreeable
      "--- a/a.txt\n+++ b/a.txt\n@@ -1 +1 @@\n-x\n+z\n".toList = .ok
      [⟨"a.txt".toList, "a.txt".toList, [⟨1, 1, 1, 1, ["-x".toList, "+z".toList]⟩]⟩] := by
    decide
  obtain rfl := Except.ok.inj (hpatches'.symm.trans hpatches)
  obtain rfl := List.mem_singleton.mp hp
  rw [effects_edit (by decide) (by decide), if_pos rfl] at he
  obtain rfl := List.mem_singleton.mp he
  exact ⟨⟨"a.txt".toList, by decide, by decide⟩, by decide⟩

def editUnnamedDiff : String :=
  "--- a/a.txt\n+++ b/a.txt\n@@ -1 +1 @@\n-x\n+z\n" ++
    "--- a/.git/config\n+++ b/.git/config\n@@ -1 +1 @@\n-y\n+hook\n"

/-- The plan names `a.txt`, the diff edits the configuration of git as well. -/
def editUnnamed : Value :=
  requestOf [[("op", "apply_patch"), ("path", "a.txt")]] editUnnamedDiff

/-- Without the condition it fails: the user approves `a.txt`, and `.git/config`
is written. -/
theorem executeChangeRequest_beyond_approval :
    ¬ ∀ (engine : Engine) (stamp : Stamp) (payload : Value) (request : ChangeRequest)
      (w w' : World) (r : Except Exn MutationResult), engine.IsTidy →
      parseChangeRequest payload = .ok request →
      executeChangeRequest engine stamp payload w = (r, w') →
      Disk.Footprint (IsApprovedEffect engine request.changePlan) w.disk w'.disk := by
  intro h
  let w := World.ofFiles [("a.txt", "x\n"), (".git/config", "y\n")]
  let hook : Effect Text := .put ["ws".toList, ".git".toList, "config".toList]
  have hparse : parseChangeRequest editUnnamed = .ok ⟨⟨"tidy up".toList,
      [⟨.applyPatch, "a.txt".toList, [], [], []⟩], [], false⟩, editUnnamedDiff.toList⟩ := by
    decide
  have hpatches : requestPatches .agreeable editUnnamedDiff.toList = .ok
      [⟨"a.txt".toList, "a.txt".toList, [⟨1, 1, 1, 1, ["-x".toList, "+z".toList]⟩]⟩,
       ⟨".git/config".toList, ".git/config".toList,
        [⟨1, 1, 1, 1, ["-y".toList, "+hook".toList]⟩]⟩] := by decide
  have hrun : Prog.returns (fun r _ => r.status.isCompleted)
      (executeChangeRequest .agreeable ⟨"t1".toList, "2024".toList⟩ editUnnamed w) = true := by
    decide +kernel
  obtain ⟨result, w', hrun, hdone⟩ := Prog.returns_iff.mp hrun
  obtain ⟨l, hl, hmem⟩ : Happened hook w.disk w'.disk :=
    executeChangeRequest_happened agreeable_isTidy hparse hrun hdone hpatches
      (List.mem_cons_of_mem _ (List.mem_singleton_self _)) (by decide)
  have hwithin := h _ _ _ _ _ _ _ agreeable_isTidy hparse hrun
  obtain ⟨_, hgit⟩ := hwithin.mem hl hmem (by decide)
  exact hgit (by decide)

section Approval

variable {engine : Engine} {stamp : Stamp} {w w' : World}

/-! ## Removals -/

/-- A user file of `w` is removed on the way to `w'`. -/
def RemovesFile (root : Path) (w w' : World) : Prop :=
  ∃ p, IsUserPath root p ∧ w.disk.isFile p = true ∧ Happened (.drop p) w.disk w'.disk

/-- The user was asked to approve a removal, and said yes. -/
def RemovalAsked (engine : Engine) (plan : ChangePlan) (memory : Option PermissionMemory) : Prop :=
  (changePlanApproval plan).actionType = .fileDelete ∧
    userApproves engine.prompts memory (changePlanApproval plan) = true

/-- The diff removes no user file of `w`. -/
def DiffRemovesNone (engine : Engine) (request : ChangeRequest) (w : World) : Prop :=
  ∀ patches, requestPatches engine (engine.sanitize request.patch) = .ok patches →
    ∀ patch ∈ patches, ∀ p, .drop p ∈ patch.effects engine.root →
      IsUserPath engine.root p → w.disk.isFile p = false

/-- An approved destructive request was put to the user. -/
theorem removalAsked_of_destructive {plan : ChangePlan} {w₁ : World}
    (hd : plan.destructive = true)
    (hask : askApproval engine (changePlanApproval plan) w = (.ok true, w₁)) :
    RemovalAsked engine plan w.memory := by
  have htype : (changePlanApproval plan).actionType = .fileDelete := by
    simp [changePlanApproval, hd]
  refine ⟨htype, ?_⟩
  rw [← ask_of_not_autoApprovable (by rw [htype]; rfl)]
  exact Except.ok.inj (Prod.mk.inj hask).1

/-- **A removed file was asked about**: whenever a file that was there is
removed, the approval had the action type `file_delete` and the user gave it, if
the request is destructive or its diff removes no such file; and only then, if
the request is carried out to the end. -/
theorem executeChangeRequest_removal_asked {request : ChangeRequest} {payload : Value}
    {r : Except Exn MutationResult} (htidy : engine.IsTidy)
    (hparse : parseChangeRequest payload = .ok request)
    (hrun : executeChangeRequest engine stamp payload w = (r, w')) :
    (request.changePlan.destructive = true ∨ DiffRemovesNone engine request w →
      RemovesFile engine.root w w' → RemovalAsked engine request.changePlan w.memory) ∧
    ∀ result, r = .ok result → result.status.isCompleted = true →
      (RemovesFile engine.root w w' → RemovalAsked engine request.changePlan w.memory) →
      request.changePlan.destructive = true ∨ DiffRemovesNone engine request w := by
  constructor
  swap
  · intro result heq hdone hprop
    subst heq
    by_contra hcond
    obtain ⟨hd, hsome⟩ := not_or.mp hcond
    unfold DiffRemovesNone at hsome
    push Not at hsome
    obtain ⟨patches, hpatches, patch, hp, p, he, huser, hfile⟩ := hsome
    obtain ⟨htype, _⟩ := hprop ⟨p, huser, by simpa using hfile,
      executeChangeRequest_happened htidy hparse hrun hdone hpatches hp he⟩
    simp [changePlanApproval, hd] at htype
  intro hcond hremoves
  obtain ⟨p, huser, hfile, l, hl, hmem⟩ := hremoves
  rcases executeChangeRequest_cases hrun with ⟨hsame, _⟩ | ⟨request', w₁, w₂, hparse', ha⟩
  · rw [hsame] at hl
    have hnil : l = [] := by simpa using hl
    rw [hnil] at hmem
    simp at hmem
  obtain rfl := Except.ok.inj (hparse.symm.trans hparse')
  by_cases hd : request.changePlan.destructive = true
  · exact removalAsked_of_destructive hd ha.asked
  -- no operation removes anything, and the diff removes no file of `w`
  exfalso
  obtain ⟨hroot, hbegin⟩ := beginTransaction_root ha.begun
  rw [(askApproval_world ha.asked).1] at hbegin
  obtain ⟨plan, hplan⟩ := parseChangeRequest_plan hparse
  have hops := parseChangePlan_destructive hplan
  have hnone := hcond.resolve_left hd
  let A : Effect Text → Prop := fun e => ∀ p, e = .drop p → IsUserPath engine.root p →
    w.disk.isFile p = false
  have hput : ∀ p, A (.put p) := fun p q hq => by cases hq
  have hdrops : ∀ op ∈ request.changePlan.operations, op.drops = [] := by
    intro op hop
    have hkind : op.op.isDestructive = false := by
      simpa using fun h => hd ((hops op hop).2 h)
    unfold Operation.drops
    cases hk : op.op <;> simp_all [OperationKind.isDestructive]
  have hfoot : Disk.Footprint A w.disk w'.disk := by
    refine (hbegin _).trans (runRequest_footprint htidy (fun op hop => (hops op hop).1)
      (fun patches hpatches => ?_) hroot ha.ran)
    refine ⟨fun p _ => hput p, ?_, fun _ _ _ _ t _ => hput t, ?_, fun _ _ _ _ => hput _,
      fun _ _ => hput _⟩
    · intro patch hp e he q heq hq
      subst heq
      exact hnone patches hpatches patch hp q he hq
    · intro op hop k hk
      rw [hdrops op hop] at hk
      simp at hk
  have := hfoot.mem hl hmem p rfl huser
  rw [hfile] at this
  simp at this

end Approval

/-- Delete `a.txt` by an operation. -/
def deleteNamed : Value := requestOf [[("op", "delete_file"), ("path", "a.txt")]] ""

/-- The theorem on a run: the deletion was asked about. -/
theorem executeChangeRequest_removal_asked_deleteNamed :
    ∃ request r w', parseChangeRequest deleteNamed = .ok request ∧
      executeChangeRequest .agreeable ⟨"t1".toList, "2024".toList⟩ deleteNamed
        (.ofFiles [("a.txt", "x\n")]) = (r, w') ∧
      (RemovesFile ["ws".toList] (.ofFiles [("a.txt", "x\n")]) w' →
        RemovalAsked .agreeable request.changePlan none) := by
  have hparse : parseChangeRequest deleteNamed = .ok ⟨⟨"tidy up".toList,
      [⟨.deleteFile, "a.txt".toList, [], [], []⟩], [], true⟩, []⟩ := by decide
  obtain ⟨r, w', hrun⟩ := Prog.exists_run (executeChangeRequest .agreeable
    ⟨"t1".toList, "2024".toList⟩ deleteNamed) (.ofFiles [("a.txt", "x\n")])
  exact ⟨_, r, w', hparse, hrun,
    (executeChangeRequest_removal_asked agreeable_isTidy hparse hrun).1 (Or.inl rfl)⟩

/-- Delete `a.txt` by a diff. -/
def deleteByDiff : Value := requestOf [[("op", "apply_patch"), ("path", "a.txt")]]
  "--- a/a.txt\n+++ /dev/null\n@@ -1 +0,0 @@\n-x\n"

/-- Without the condition it fails: the diff deletes `a.txt`, and what was asked
was to apply a patch. -/
theorem executeChangeRequest_removal_unasked :
    ¬ ∀ (engine : Engine) (stamp : Stamp) (payload : Value) (request : ChangeRequest)
      (w w' : World) (r : Except Exn MutationResult), engine.IsTidy →
      parseChangeRequest payload = .ok request →
      executeChangeRequest engine stamp payload w = (r, w') →
      RemovesFile engine.root w w' → RemovalAsked engine request.changePlan w.memory := by
  intro h
  let w := World.ofFiles [("a.txt", "x\n")]
  let removed : Effect Text := .drop ["ws".toList, "a.txt".toList]
  have hparse : parseChangeRequest deleteByDiff = .ok ⟨⟨"tidy up".toList,
      [⟨.applyPatch, "a.txt".toList, [], [], []⟩], [], false⟩,
      "--- a/a.txt\n+++ /dev/null\n@@ -1 +0,0 @@\n-x\n".toList⟩ := by decide
  have hpatches : requestPatches .agreeable "--- a/a.txt\n+++ /dev/null\n@@ -1 +0,0 @@\n-x\n".toList
      = .ok [⟨"a.txt".toList, devNull, [⟨1, 1, 0, 0, ["-x".toList]⟩]⟩] := by decide
  have hrun : Prog.returns (fun r _ => r.status.isCompleted)
      (executeChangeRequest .agreeable ⟨"t1".toList, "2024".toList⟩ deleteByDiff w) = true := by
    decide +kernel
  obtain ⟨result, w', hrun, hdone⟩ := Prog.returns_iff.mp hrun
  have hremoved : Happened removed w.disk w'.disk :=
    executeChangeRequest_happened agreeable_isTidy hparse hrun hdone hpatches
      (List.mem_singleton_self _) (by decide)
  obtain ⟨htype, _⟩ := h _ _ _ _ _ _ _ agreeable_isTidy hparse hrun
    ⟨["ws".toList, "a.txt".toList], by decide, by decide, hremoved⟩
  exact absurd htype (by decide)

end Shamsu.Patch
