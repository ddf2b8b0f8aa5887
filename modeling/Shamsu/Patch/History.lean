import Shamsu.Lib.Run
import Shamsu.Patch.Single

/-!
# Undoing a history

The open transactions of a workspace are a stack (`Stacked`): each has on record
what its operation replaced, the newest began on the files the one below it left,
and where a file has to come back there is room for it. An executed change is put
on the stack (`Stacked.applyChange`), and rolling back the latest transaction,
which is the newest, takes it off (`Stacked.rollback`).

**`undoAll_restores`**: rolling back the latest until there is none restores the
files the history began with. The source does not check what makes it so: a
directory is deleted with the files in it, of which nothing is recorded, and a
file may be created below the place of one that was deleted
(`undoAll_loses`).
-/

namespace Shamsu.Patch

open Shamsu.Lib Shamsu.Py Shamsu.Safety

/-! ## The stack of transactions -/

/-- The files a transaction has to bring back are no directories on `d`. -/
def Undo.Roomy (root : Path) (u : Undo) (d : FS) : Prop :=
  ∀ k ∈ u.manifest.touchedFiles, (u.before.content (root ++ parts k)).isSome = true →
    d.isDir (root ++ parts k) = false

/-- The transactions `us`, the newest first, lead from the files `f₀` to `f`. -/
def Stack (root : Path) (f₀ : Files) : List Undo → Files → Prop
  | [], f => ∀ p, IsUserPath root p → f p = f₀ p
  | u :: us, f => u.Left root f ∧ (∀ v ∈ us, v.Roomy root u.before) ∧
      Stack root f₀ us u.before.content

/-- The open transactions of `w` are `us`, and they can be put back one after the other. -/
structure Stacked (root : Path) (f₀ : Files) (w : World) (us : List Undo) : Prop where
  clear : ∀ q, q <+: root → q ≠ root → w.disk.content q = none
  kept : ∀ u ∈ us, u.Kept root w.disk
  stack : Stack root f₀ us w.disk.content
  store : w.transactions.filter (fun m => m.status ≠ .rolledBack) = us.reverse.map Undo.manifest
  unique : ∀ u ∈ us, ∀ m ∈ w.transactions, m.transactionId = u.manifest.transactionId →
    m = u.manifest
  order : us.Pairwise fun u v => v.manifest.createdAt < u.manifest.createdAt

section Stacks

variable {engine : Engine} {root : Path} {f₀ : Files} {us : List Undo} {w w' : World}

theorem Undo.Kept.roomy {u : Undo} {d : FS} (h : u.Kept root d) : u.Roomy root d := by
  intro k hk hsome
  obtain ⟨a, _, he⟩ := h k hk
  exact he.free hsome

theorem Undo.Left.congr {u : Undo} {f f' : Files} (h : u.Left root f)
    (hsame : ∀ p, IsUserPath root p → f' p = f p) : u.Left root f' :=
  ⟨fun k hk hsome q hq hp hne => (hsame q hq).trans (h.above k hk hsome q hq hp hne),
    fun p hp hnt => (hsame p hp).trans (h.rest p hp hnt)⟩

/-- Only the user's files matter. -/
theorem Stack.congr {f f' : Files} (h : Stack root f₀ us f)
    (hsame : ∀ p, IsUserPath root p → f' p = f p) : Stack root f₀ us f' := by
  cases us with
  | nil => exact fun p hp => (hsame p hp).trans (h p hp)
  | cons u us => exact ⟨h.1.congr hsame, h.2⟩

theorem Stacked.mem_transactions (h : Stacked root f₀ w us) {u : Undo} (hu : u ∈ us) :
    u.manifest ∈ w.transactions ∧ u.manifest.status ≠ .rolledBack := by
  have hm : u.manifest ∈ us.reverse.map Undo.manifest :=
    List.mem_map_of_mem (List.mem_reverse.mpr hu)
  rw [← h.store] at hm
  simpa using List.mem_filter.mp hm

/-- Another transaction's backups and missing files stay as they are. -/
theorem Undo.Kept.frame {u : Undo} {d d' : FS} (h : u.Kept root d)
    (hbackups : ∀ s, d'.content (backupsDir root u.manifest.transactionId ++ s) =
      d.content (backupsDir root u.manifest.transactionId ++ s))
    (hroomy : u.Roomy root d') : u.Kept root d' := by
  intro k hk
  obtain ⟨a, hl, he⟩ := h k hk
  refine ⟨a, hl, he.clean, he.leads, he.user, he.hash, fun b hb => ⟨(he.kept b hb).1, ?_⟩,
    hroomy k hk⟩
  rw [hbackups]
  exact (he.kept b hb).2

/-! ## Undoing the newest -/

/-- The latest of transactions in the order of their times is the last one. -/
theorem foldl_laterOf : ∀ (m : Manifest) (ms : List Manifest),
    (m :: ms).Pairwise (fun a b => a.createdAt < b.createdAt) →
    ms.foldl laterOf m = (m :: ms).getLast (List.cons_ne_nil m ms)
  | m, [], _ => rfl
  | m, m' :: ms, h => by
    obtain ⟨hm, hms⟩ := List.pairwise_cons.mp h
    have hlater : laterOf m m' = m' := if_pos (Or.inl (hm m' (List.mem_cons_self ..)))
    rw [List.foldl_cons, hlater, foldl_laterOf m' ms hms]
    exact (List.getLast_cons (List.cons_ne_nil m' ms)).symm

theorem Stacked.latest_nil (h : Stacked root f₀ w []) : latestUndoable w = none := by
  unfold latestUndoable
  rw [h.store]
  rfl

theorem Stacked.latest {u : Undo} (h : Stacked root f₀ w (u :: us)) :
    latestUndoable w = some u.manifest := by
  have hlist : (u :: us).reverse.map Undo.manifest =
      us.reverse.map Undo.manifest ++ [u.manifest] := by simp
  have horder : ((u :: us).reverse.map Undo.manifest).Pairwise
      (fun a b => a.createdAt < b.createdAt) :=
    List.pairwise_map.mpr (List.pairwise_reverse.mpr h.order)
  have hstore := h.store
  unfold latestUndoable
  rw [hstore]
  cases hms : (u :: us).reverse.map Undo.manifest with
  | nil => rw [hlist] at hms; simp at hms
  | cons m ms =>
    dsimp only
    rw [hms] at horder
    rw [foldl_laterOf m ms horder, Option.some_inj]
    have hlast : (m :: ms).getLast? = some u.manifest := by rw [← hms, hlist]; simp
    rw [List.getLast?_eq_some_getLast (List.cons_ne_nil m ms)] at hlast
    exact Option.some_inj.mp hlast

theorem find_unique {ms : List Manifest} {m : Manifest} (hm : m ∈ ms)
    (hunique : ∀ m' ∈ ms, m'.transactionId = m.transactionId → m' = m) :
    ms.find? (fun m' => decide (m'.transactionId = m.transactionId)) = some m := by
  cases hf : ms.find? fun m' => decide (m'.transactionId = m.transactionId) with
  | none => exact absurd (List.find?_eq_none.mp hf m hm) (by simp)
  | some m' =>
    have hid : m'.transactionId = m.transactionId := by simpa using List.find?_some hf
    rw [hunique m' (List.mem_of_find?_eq_some hf) hid]

/-- A user path of a recorded key is what the rollback needs it to be. -/
theorem Stacked.recoverable {u : Undo} (h : Stacked root f₀ w (u :: us)) {k : Text}
    (hk : k ∈ u.manifest.touchedFiles) :
    ∃ t, Recoverable root u.before.content u.manifest w.disk k t := by
  obtain ⟨a, hl, he⟩ := h.kept u (List.mem_cons_self ..) k hk
  refine ⟨root ++ parts k, he.leads, he.user, ?_, fun b hb => ?_, he.free, fun hsome q hq hne => ?_⟩
  · rw [hl]; exact he.hash
  · exact ⟨_, (he.kept b hb).1, not_isUserPath_backupsDir _ _ _, (he.kept b hb).2⟩
  · by_cases hin : root <+: q
    · exact h.stack.1.above k hk hsome q (IsUserPath.above he.user hq hin) hq hne
    · have habove : q <+: root := (List.prefix_or_prefix_of_prefix hq
        (List.prefix_append root (parts k))).resolve_right hin
      exact h.clear q habove fun e => hin (e ▸ List.prefix_refl _)

/-- Rolling back marks its transaction and no other. -/
theorem filter_rolledBack {m : Manifest} (hm : m.status = .rolledBack) (ms : List Manifest) :
    (ms.map fun m' => if m'.transactionId = m.transactionId then m else m').filter
        (fun m => m.status ≠ .rolledBack) =
      (ms.filter fun m => m.status ≠ .rolledBack).filter
        (fun m' => m'.transactionId ≠ m.transactionId) := by
  induction ms with
  | nil => rfl
  | cons a ms ih =>
    by_cases ha : a.transactionId = m.transactionId
    · by_cases hs : a.status = .rolledBack
      · simpa [ha, hm, hs] using ih
      · simpa [ha, hm, hs] using ih
    · by_cases hs : a.status = .rolledBack
      · simpa [ha, hm, hs] using ih
      · simpa [ha, hm, hs] using ih

/-- **The newest transaction is put back**: what is left is the stack below it. -/
theorem Stacked.rollback {u : Undo} (h : Stacked engine.root f₀ w (u :: us))
    (hrun : ∃ r, rollbackTransaction engine u.manifest.transactionId w = (r, w')) :
    Stacked engine.root f₀ w' us := by
  obtain ⟨hmem, hopen⟩ := h.mem_transactions (List.mem_cons_self ..)
  have hfind : findManifest w u.manifest.transactionId = some u.manifest :=
    find_unique hmem (h.unique u (List.mem_cons_self ..))
  obtain ⟨message, d, hroll, hc, hd⟩ := rollbackTransaction_restores (f := u.before.content) hfind
    hopen (fun k hk => h.recoverable hk) (spread_content u.before engine.root _)
  obtain ⟨r, hrun⟩ := hrun
  obtain ⟨_, rfl⟩ := Prod.mk.inj (hrun.symm.trans hroll)
  have hkept := h.kept u (List.mem_cons_self ..)
  have hbelow : ∀ v ∈ us, v.Kept engine.root w.disk :=
    fun v hv => h.kept v (List.mem_cons_of_mem _ hv)
  -- a touched path is a path of the user
  have huser : ∀ p, IsTouched engine.root u.manifest.touchedFiles p →
      IsUserPath engine.root p ∧ ∃ k ∈ u.manifest.touchedFiles, p = engine.root ++ parts k := by
    intro p hgiven
    obtain ⟨k, hk, hv⟩ := hgiven
    obtain ⟨a, _, he⟩ := hkept k hk
    have hp : p = engine.root ++ parts k := (Except.ok.inj (hv.symm.trans he.leads))
    exact ⟨hp ▸ he.user, k, hk, hp⟩
  have hsame : ∀ p, IsUserPath engine.root p → d.content p = u.before.content p := by
    intro p hp
    rw [hc]
    split
    next => rfl
    next hnt => exact h.stack.1.rest p hp hnt
  have hroomy : ∀ v ∈ us, v.Roomy engine.root d := by
    intro v hv k hk hsome
    cases hdir : d.isDir (engine.root ++ parts k) with
    | false => rfl
    | true =>
      rcases hd _ hdir with hold | ⟨t, ht, htsome, hpre, hne⟩
      · rw [(hbelow v hv).roomy k hk hsome] at hold; simp at hold
      · -- where the file to come back was, its parents were directories
        obtain ⟨b, hb⟩ := Option.isSome_iff_exists.mp htsome
        have hpres := Disk.present_of_isFile (Disk.isFile_iff.mpr ⟨b, hb⟩)
        have hbefore := Disk.isDir_above hpre hne hpres
        rw [h.stack.2.1 v hv k hk hsome] at hbefore
        simp at hbefore
  have hids : ∀ v ∈ us, v.manifest.transactionId ≠ u.manifest.transactionId := by
    intro v hv e
    have hvm := h.unique u (List.mem_cons_self ..) v.manifest
      (h.mem_transactions (List.mem_cons_of_mem _ hv)).1 e
    have hlt := (List.pairwise_cons.mp h.order).1 v hv
    rw [hvm] at hlt
    exact absurd hlt (List.lt_irrefl _)
  refine ⟨fun q hq hne => ?_, fun v hv => ?_, ?_, ?_, ?_, (List.pairwise_cons.mp h.order).2⟩
  · -- what is above the workspace is not the user's
    show d.content q = none
    rw [hc, if_neg fun ht => hne (hq.eq_of_length_le (huser q ht).1.1.length_le)]
    exact h.clear q hq hne
  · refine (hbelow v hv).frame (fun s => ?_) (hroomy v hv)
    show d.content _ = _
    rw [hc, if_neg fun ht => not_isUserPath_backupsDir engine.root _ s (huser _ ht).1]
  · exact h.stack.2.2.congr hsame
  · show (w.transactions.map _).filter _ = _
    rw [filter_rolledBack rfl, h.store]
    simp only [List.reverse_cons, List.map_append, List.filter_append]
    have hrest : (us.reverse.map Undo.manifest).filter
        (fun m' => m'.transactionId ≠ u.manifest.transactionId) = us.reverse.map Undo.manifest := by
      refine List.filter_eq_self.mpr fun m' hm' => ?_
      obtain ⟨v, hv, rfl⟩ := List.mem_map.mp hm'
      simpa using hids v (List.mem_reverse.mp hv)
    rw [hrest]
    simp
  · intro v hv m hm hid
    obtain ⟨m', hm', rfl⟩ := List.mem_map.mp hm
    by_cases he : m'.transactionId = u.manifest.transactionId
    · simp only [he, if_true] at hid
      exact absurd hid.symm (hids v hv)
    · simp only [he, if_false] at hid ⊢
      exact h.unique v (List.mem_cons_of_mem _ hv) m' hm' hid

end Stacks

/-! ## Histories -/

/-- A change request and the stamp its transaction gets. -/
structure Change where
  stamp : Stamp
  payload : Value

/-- The request is executed. -/
def applyChange (engine : Engine) (w : World) (c : Change) : World :=
  (executeChangeRequest engine c.stamp c.payload w).2

/-- The latest transaction is rolled back, when there is one. -/
def undoLatest (engine : Engine) (w : World) : World :=
  match latestUndoable w with
  | none => w
  | some m => (rollbackTransaction engine m.transactionId w).2

/-- Rolling back the latest, again and again. -/
def undoAll (engine : Engine) : Nat → World → World
  | 0, w => w
  | n + 1, w => undoAll engine n (undoLatest engine w)

/-- One operation on a file and no diff, in a new transaction that is begun after
all others. -/
structure Change.IsSingle (engine : Engine) (w : World) (c : Change) : Prop where
  single : ∀ request, parseChangeRequest c.payload = .ok request →
    ∃ op, request.IsSingle engine op
  fresh : IsFresh engine c.stamp.id w
  later : ∀ m ∈ w.transactions, m.createdAt < c.stamp.createdAt

/-- The operation is tidy, and creates no file below the place of a file that an
open transaction has to bring back. -/
def Change.IsTidy (engine : Engine) (w : World) (c : Change) : Prop :=
  ∀ request op, parseChangeRequest c.payload = .ok request →
    request.changePlan.operations = [op] → op.IsTidy engine.root w.disk ∧
    (op.op = .createFile → ∀ m ∈ w.transactions, m.status ≠ .rolledBack → ∀ k ∈ m.touchedFiles,
      (m.beforeHashes.lookup k).join.isSome = true → ∀ t, validate engine.root k = .ok t →
      t <+: op.target engine.root → t ≠ op.target engine.root → w.disk.isFile t = true)

section Histories

variable {engine : Engine} {f₀ : Files} {us : List Undo} {w w' : World}

/-- What changes neither the disk nor the store keeps the stack. -/
theorem Stacked.congr (h : Stacked engine.root f₀ w us) (hd : w'.disk = w.disk)
    (hts : w'.transactions = w.transactions) : Stacked engine.root f₀ w' us where
  clear := by rw [hd]; exact h.clear
  kept := by rw [hd]; exact h.kept
  stack := by rw [hd]; exact h.stack
  store := by rw [hts]; exact h.store
  unique := by rw [hts]; exact h.unique
  order := h.order

/-- A transaction that has ended is put on the stack. -/
theorem Stacked.push {stamp : Stamp} {op : Operation} {d₀ : FS} {m : Manifest}
    (h : Stacked engine.root f₀ w us) (hs : Settled engine stamp op w w' d₀ m)
    (hfresh : IsFresh engine stamp.id w)
    (hlater : ∀ m ∈ w.transactions, m.createdAt < stamp.createdAt)
    (hroomy : ∀ u ∈ us, u.Roomy engine.root w'.disk) :
    Stacked engine.root f₀ w' (⟨m, d₀⟩ :: us) where
  clear q hq hne := Disk.content_eq_none_of_isDir
    (Disk.isDir_above hq hne (Disk.present_of_isDir hs.beside.stays))
  kept u hu := by
    rcases List.mem_cons.mp hu with rfl | hu
    · exact hs.kept
    · exact (h.kept u hu).frame
        (fun s => hs.beside.backups _ s (hfresh.ne _ (h.mem_transactions hu).1)) (hroomy u hu)
  stack := by
    refine ⟨hs.left, fun v hv k hk hsome => ?_,
      h.stack.congr fun p hp => Disk.content_congr (hs.user p hp)⟩
    obtain ⟨a, hl, he⟩ := h.kept v hv k hk
    rw [Disk.isDir_congr (hs.user _ he.user)]
    exact he.free hsome
  store := by
    rw [hs.store, List.filter_append, h.store]
    simp [hs.status]
  unique u hu m' hm' hid := by
    rw [hs.store] at hm'
    rcases List.mem_cons.mp hu with rfl | hold
    · rcases List.mem_append.mp hm' with hm' | hm'
      · exact absurd (hid.trans hs.id) (hfresh.ne m' hm')
      · exact List.mem_singleton.mp hm'
    · rcases List.mem_append.mp hm' with hm' | hm'
      · exact h.unique u hold m' hm' hid
      · obtain rfl := List.mem_singleton.mp hm'
        exact absurd (hid.symm.trans hs.id) (hfresh.ne _ (h.mem_transactions hold).1)
  order := by
    refine List.pairwise_cons.mpr ⟨fun v hv => ?_, h.order⟩
    rw [hs.created]
    exact hlater _ (h.mem_transactions hv).1

/-- **Step lemma**: an executed request is put on the stack, a refused one is not. -/
theorem Stacked.applyChange {c : Change} (hquiet : engine.IsQuiet)
    (h : Stacked engine.root f₀ w us) (hroot : w.disk.isDir engine.root = true)
    (hsingle : c.IsSingle engine w) (htidy : c.IsTidy engine w) :
    ∃ us', Stacked engine.root f₀ (applyChange engine w c) us' ∧
      (applyChange engine w c).disk.isDir engine.root = true := by
  unfold Patch.applyChange
  generalize hrun : executeChangeRequest engine c.stamp c.payload w = outcome
  obtain ⟨r, w'⟩ := outcome
  rcases executeChangeRequest_cases hrun with ⟨hd, hts, _⟩ | ⟨request, w₁, w₂, hparse, ha⟩
  · exact ⟨us, h.congr hd hts, by rw [← hd] at hroot; exact hroot⟩
  obtain ⟨op, hop⟩ := hsingle.single request hparse
  obtain ⟨htidyOp, hplace⟩ := htidy request op hparse hop.operation
  obtain ⟨m, hs⟩ := ha.settled hop hquiet hsingle.fresh hroot htidyOp
  refine ⟨_, h.push hs hsingle.fresh hsingle.later fun v hv k hk hsome => ?_, hs.beside.stays⟩
  obtain ⟨a, hl, he⟩ := h.kept v hv k hk
  cases hdir : w'.disk.isDir (engine.root ++ parts k) with
  | false => rfl
  | true =>
    rcases hs.beside.dirs _ he.user hdir with hd | ⟨hmakes, hmissing⟩
    · rw [he.free hsome] at hd; simp at hd
    · -- a create below the place of a file to bring back
      have hfile := hplace hmakes.1 _ (h.mem_transactions hv).1 (h.mem_transactions hv).2 k hk
        (by rw [hl]; exact he.hash.trans hsome) _ he.leads hmakes.2.1 hmakes.2.2
      rw [Disk.isFile_eq_false.mpr hmissing] at hfile
      simp at hfile

/-- Undoing as often as there are transactions leaves none. -/
theorem Stacked.undoAll : ∀ {us : List Undo} {w : World} {n : Nat},
    Stacked engine.root f₀ w us → us.length ≤ n →
    Stacked engine.root f₀ (undoAll engine n w) []
  | [], w, 0, h, _ => h
  | [], w, n + 1, h, _ => by
    have hnone : undoLatest engine w = w := by
      unfold undoLatest
      rw [h.latest_nil]
    unfold Patch.undoAll
    rw [hnone]
    exact Stacked.undoAll h (Nat.zero_le n)
  | u :: us, w, 0, _, hn => by simp at hn
  | u :: us, w, n + 1, h, hn => by
    have hlatest : undoLatest engine w =
        (rollbackTransaction engine u.manifest.transactionId w).2 := by
      unfold undoLatest
      rw [h.latest]
    unfold Patch.undoAll
    have hrest : Stacked engine.root f₀ (undoLatest engine w) us := by
      rw [hlatest]
      exact h.rollback ⟨_, rfl⟩
    exact Stacked.undoAll hrest (by simpa using hn)

theorem stacked_nil (hroot : w.disk.isDir engine.root = true) (hnone : latestUndoable w = none) :
    Stacked engine.root w.disk.content w [] where
  clear q hq hne := Disk.content_eq_none_of_isDir
    (Disk.isDir_above hq hne (Disk.present_of_isDir hroot))
  kept := by simp
  stack _ _ := rfl
  store := by
    unfold latestUndoable at hnone
    split at hnone
    next h => exact h
    next => simp at hnone
  unique := by simp
  order := List.Pairwise.nil

end Histories

/-- **Undoing a history restores the workspace**: after any number of single
changes that are tidy, in new transactions with increasing times, rolling back the
latest until there is none gives every file of the user the existence and the bytes
it had at first. -/
theorem undoAll_restores {engine : Engine} {w : World} {changes : List Change}
    (hquiet : engine.IsQuiet) (hroot : w.disk.isDir engine.root = true)
    (hnone : latestUndoable w = none)
    (hchanges : Along (applyChange engine) (fun w c => c.IsSingle engine w ∧ c.IsTidy engine w)
      w changes)
    {n : Nat} (hn : (run (applyChange engine) w changes).transactions.length ≤ n) :
    latestUndoable (undoAll engine n (run (applyChange engine) w changes)) = none ∧
      ∀ p, IsUserPath engine.root p →
        (undoAll engine n (run (applyChange engine) w changes)).disk.content p =
          w.disk.content p := by
  have hrun := run_invariant (I := fun w₁ => ∃ us, Stacked engine.root w.disk.content w₁ us ∧
      w₁.disk.isDir engine.root = true)
    (fun _ _ ⟨_, h, hroot₁⟩ hc => h.applyChange hquiet hroot₁ hc.1 hc.2)
    ⟨[], stacked_nil hroot hnone, hroot⟩ hchanges
  obtain ⟨us, hus, _⟩ := hrun
  have hlength : us.length ≤ (run (applyChange engine) w changes).transactions.length := by
    have hle := List.length_filter_le (fun m : Manifest => decide (m.status ≠ .rolledBack))
      (run (applyChange engine) w changes).transactions
    rw [hus.store, List.length_map, List.length_reverse] at hle
    exact hle
  have h := hus.undoAll (hlength.trans hn)
  exact ⟨h.latest_nil, h.stack⟩

/-! ## Two histories -/

/-- A change with one operation, as the request spells it. -/
def Change.of (id createdAt : String) (operation : List (String × String)) : Change :=
  ⟨⟨id.toList, createdAt.toList⟩, requestOf [operation] ""⟩

/-- The workspace with the file `a`. -/
def oneFile : World := .ofFiles [("a", "x\n")]

section Parsed

variable {engine : Engine} {w : World} {c : Change} {request : ChangeRequest} {op : Operation}

theorem Change.isSingle_of_parse (hparse : parseChangeRequest c.payload = .ok request)
    (hblank : isBlank (engine.sanitize request.patch) = true)
    (hops : request.changePlan.operations = [op]) (hkind : op.IsFileChange)
    (hfresh : IsFresh engine c.stamp.id w)
    (hlater : ∀ m ∈ w.transactions, m.createdAt < c.stamp.createdAt) : c.IsSingle engine w := by
  refine ⟨fun request' hparse' => ?_, hfresh, hlater⟩
  obtain rfl := Except.ok.inj (hparse.symm.trans hparse')
  exact ⟨op, hblank, hops, hkind⟩

/-- A tidy edit or a tidy delete. -/
theorem Change.isTidy_of_parse (hparse : parseChangeRequest c.payload = .ok request)
    (hops : request.changePlan.operations = [op]) (hkind : op.op ≠ .createFile)
    (huser : IsUserPath engine.root (op.target engine.root))
    (hfile : w.disk.isDir (op.target engine.root) = false) : c.IsTidy engine w := by
  intro request' op' hparse' hops'
  obtain rfl := Except.ok.inj (hparse.symm.trans hparse')
  obtain rfl := List.singleton_inj.mp (hops.symm.trans hops')
  refine ⟨⟨huser, fun _ hdir => ?_⟩, fun h => absurd h hkind⟩
  rw [hfile] at hdir
  simp at hdir

end Parsed

/-- The file is edited, then deleted. -/
def editThenDelete : List Change :=
  [.of "t1" "2024-01" [("op", "edit_file"), ("path", "a"), ("content", "new\n")],
   .of "t2" "2024-02" [("op", "delete_file"), ("path", "a")]]

/-- The theorem on that run: the file is gone, and back as it was. -/
theorem undoAll_restores_editThenDelete :
    (run (applyChange .agreeable) oneFile editThenDelete).disk.content
        ["ws".toList, "a".toList] = none ∧
      (undoAll .agreeable 2 (run (applyChange .agreeable) oneFile editThenDelete)).disk.content
        ["ws".toList, "a".toList] = some (encodeUtf8 "x\n".toList) := by
  refine ⟨by decide, ?_⟩
  have hparse₁ : parseChangeRequest (editThenDelete.head (by decide)).payload =
      .ok ⟨⟨"tidy up".toList, [⟨.editFile, "a".toList, [], [], "new\n".toList⟩], [], false⟩,
        []⟩ := by decide
  have hparse₂ : parseChangeRequest (editThenDelete.getLast (by decide)).payload =
      .ok ⟨⟨"tidy up".toList, [⟨.deleteFile, "a".toList, [], [], []⟩], [], true⟩, []⟩ := by
    decide
  have h := @undoAll_restores .agreeable oneFile editThenDelete agreeable_isQuiet
    (by decide) rfl
    ⟨⟨Change.isSingle_of_parse hparse₁ (by decide) rfl (Or.inr (Or.inl rfl))
        ⟨rfl, by decide⟩ (by decide),
      Change.isTidy_of_parse hparse₁ rfl (by decide) (by decide) (by decide)⟩,
     ⟨Change.isSingle_of_parse hparse₂ (by decide) rfl (Or.inr (Or.inr rfl))
        ⟨by decide, by decide⟩ (by decide),
      Change.isTidy_of_parse hparse₂ rfl (by decide) (by decide) (by decide)⟩,
     trivial⟩ 2 (by decide)
  exact (h.2 _ (by decide)).trans (by decide)

/-- The file is deleted, then one is created below it. -/
def deleteThenCreate : List Change :=
  [.of "t1" "2024-01" [("op", "delete_file"), ("path", "a")],
   .of "t2" "2024-02" [("op", "create_file"), ("path", "a/b"), ("content", "new\n")]]

/-- Without the condition it fails: the directory `a` of the create is still there
when the file `a` is to come back, and the backup is copied into it. -/
theorem undoAll_loses :
    ¬ ∀ (engine : Engine) (w : World) (changes : List Change) (n : Nat),
      engine.IsQuiet → w.disk.isDir engine.root = true → latestUndoable w = none →
      Along (applyChange engine) (fun w c => c.IsSingle engine w) w changes →
      (run (applyChange engine) w changes).transactions.length ≤ n →
      latestUndoable (undoAll engine n (run (applyChange engine) w changes)) = none ∧
        ∀ p, IsUserPath engine.root p →
          (undoAll engine n (run (applyChange engine) w changes)).disk.content p =
            w.disk.content p := by
  intro h
  have hparse₁ : parseChangeRequest (deleteThenCreate.head (by decide)).payload =
      .ok ⟨⟨"tidy up".toList, [⟨.deleteFile, "a".toList, [], [], []⟩], [], true⟩, []⟩ := by
    decide
  have hparse₂ : parseChangeRequest (deleteThenCreate.getLast (by decide)).payload =
      .ok ⟨⟨"tidy up".toList, [⟨.createFile, "a/b".toList, [], [], "new\n".toList⟩], [], false⟩,
        []⟩ := by decide
  have hlost := (h .agreeable oneFile deleteThenCreate 2 agreeable_isQuiet (by decide) rfl
    ⟨Change.isSingle_of_parse hparse₁ (by decide) rfl (Or.inr (Or.inr rfl))
        ⟨rfl, by decide⟩ (by decide),
     Change.isSingle_of_parse hparse₂ (by decide) rfl (Or.inl rfl)
        ⟨by decide, by decide⟩ (by decide), trivial⟩
    (by decide)).2 ["ws".toList, "a".toList] (by decide)
  exact absurd hlost (by decide)

end Shamsu.Patch
