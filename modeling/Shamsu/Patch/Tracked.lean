import Shamsu.Patch.Rollback

/-!
# A manifest that tracks its transaction

While a transaction runs, its manifest must stay a faithful record of the disk
`d₀` it began with: `Tracked root id d₀ m d`. Every touched path has an entry
made when it still held what it held in `d₀` (`Entry`), its backup is in the
transaction's own directory, and every other user file is still as in `d₀`.

`Tracked.recoverable` is what the record is for, and the rest of the file is how
it is kept: `snapshot_running` adds an entry, `Tracked.frame` carries the record
over a change of touched paths only, provided that no directory disappears and
none appears where a backup has to go.
-/

namespace Shamsu.Patch

open Shamsu.Lib Shamsu.Py Shamsu.Safety

/-- A relative path without `..`. -/
def CleanKey (k : Text) : Prop := isAbsolute k = false ∧ dotDot ∉ parts k

/-- `.shamsu/mutations/<id>/backups`. -/
def backupsDir (root : Path) (id : Text) : Path := transactionDir root id ++ ["backups".toList]

theorem transactionBackup_clean {root : Path} {id k : Text} (h : CleanKey k) :
    transactionBackup root id k = backupsDir root id ++ parts k := by
  unfold transactionBackup
  rw [if_neg (by rw [h.1]; simp), resolveFrom_eq_append h.2]; rfl

theorem not_isUserPath_dotShamsu (root s : Path) : ¬ IsUserPath root (root ++ dotShamsu :: s) :=
  fun h => h.2 (by rw [List.prefix_append_right_inj]; exact ⟨s, rfl⟩)

theorem not_isUserPath_backupsDir (root : Path) (id : Text) (s : Path) :
    ¬ IsUserPath root (backupsDir root id ++ s) := by
  have := not_isUserPath_dotShamsu root (["mutations".toList, id, "backups".toList] ++ s)
  simpa [backupsDir, transactionDir] using this

/-- What is above a user path in the workspace is a user path. -/
theorem IsUserPath.above {root p q : Path} (h : IsUserPath root p) (hq : q <+: p)
    (hr : root <+: q) : IsUserPath root q := ⟨hr, fun hs => h.2 (hs.trans hq)⟩

/-- The entry of the key `k` with the recorded hash `h`. -/
structure Entry (root : Path) (id : Text) (d₀ : FS) (m : Manifest) (d : FS) (k : Text)
    (h : Option Text) : Prop where
  clean : CleanKey k
  leads : validate root k = .ok (root ++ parts k)
  user : IsUserPath root (root ++ parts k)
  hash : h.isSome = (d₀.content (root ++ parts k)).isSome
  kept : ∀ b, d₀.content (root ++ parts k) = some b →
    m.backups.lookup k = some (backupsDir root id ++ parts k) ∧
    d.content (backupsDir root id ++ parts k) = some b
  free : (d₀.content (root ++ parts k)).isSome = true → d.isDir (root ++ parts k) = false

structure Tracked (root : Path) (id : Text) (d₀ : FS) (m : Manifest) (d : FS) : Prop where
  keys : m.touchedFiles = m.beforeHashes.map Prod.fst
  entries : ∀ k h, (k, h) ∈ m.beforeHashes → Entry root id d₀ m d k h
  untouched : ∀ p, IsUserPath root p → ¬ IsTouched root m.touchedFiles p →
    d.content p = d₀.content p
  dirs : ∀ p, d₀.isDir p = true → d.isDir p = true
  opened : d₀.isDir (transactionDir root id) = true
  area : ∀ s, s ≠ [] → d.present (backupsDir root id ++ s) = true →
    ∃ k ∈ m.touchedFiles, (d₀.content (root ++ parts k)).isSome = true ∧ s <+: parts k

/-- Files of one disk are never above each other. -/
theorem spread_content (d₀ : FS) (root : Path) (keys : List Text) :
    Spread d₀.content root keys := by
  intro t t' _ _ ht ht' hp
  by_contra hne
  have hd := Disk.isDir_above hp hne (Disk.present_of_isFile ht')
  rw [Disk.content_eq_none_of_isDir hd] at ht
  simp at ht

namespace Tracked

variable {root : Path} {id : Text} {d₀ : FS} {m : Manifest} {d : FS}

theorem entry (h : Tracked root id d₀ m d) {k : Text} (hk : k ∈ m.touchedFiles) :
    ∃ a, m.beforeHashes.lookup k = some a ∧ Entry root id d₀ m d k a := by
  rw [h.keys] at hk
  obtain ⟨a, hl, hm⟩ := lookup_of_mem_map hk
  exact ⟨a, hl, h.entries k a hm⟩

/-- **What the record is for**: every touched path can be put back. -/
theorem recoverable (h : Tracked root id d₀ m d) {k : Text} (hk : k ∈ m.touchedFiles) :
    ∃ t, Recoverable root d₀.content m d k t := by
  obtain ⟨a, hl, he⟩ := h.entry hk
  refine ⟨root ++ parts k, he.leads, he.user, ?_, ?_, he.free, ?_⟩
  · rw [hl]; exact he.hash
  · intro b hb
    exact ⟨_, (he.kept b hb).1, not_isUserPath_backupsDir _ _ _, (he.kept b hb).2⟩
  · intro hsome q hq hne
    obtain ⟨b, hb⟩ := Option.isSome_iff_exists.mp hsome
    have hpres := Disk.present_of_isFile (Disk.isFile_iff.mpr ⟨b, hb⟩)
    exact Disk.content_eq_none_of_isDir (h.dirs q (Disk.isDir_above hq hne hpres))

/-- The directories from the root down to the transaction's stay. -/
theorem isDir_above (h : Tracked root id d₀ m d) {q : Path} (hq : q <+: transactionDir root id) :
    d.isDir q = true := by
  refine h.dirs q ?_
  by_cases he : q = transactionDir root id
  · rw [he]; exact h.opened
  · exact Disk.isDir_above hq he (Disk.present_of_isDir h.opened)

theorem root_prefix_transactionDir (root : Path) (id : Text) : root <+: transactionDir root id :=
  List.prefix_append ..

/-- A user path above one of the program's own is a directory. -/
theorem isDir_above_own (h : Tracked root id d₀ m d) {p q : Path} (hp : IsUserPath root p)
    (hpq : p <+: q) (hq : root ++ [dotShamsu] <+: q) : d.isDir p = true := by
  apply h.isDir_above
  rcases List.prefix_or_prefix_of_prefix hpq hq with hle | hle
  · exact hle.trans (by simp [transactionDir])
  · exact absurd hle hp.2

/-- A change of touched paths only: the transaction's area stays, no directory
disappears and none takes the place of a file that was there before. -/
theorem frame (h : Tracked root id d₀ m d) {d' : FS}
    (hcontent : ∀ p, IsUserPath root p → ¬ IsTouched root m.touchedFiles p →
      d'.content p = d.content p)
    (harea : ∀ s, d'.get (backupsDir root id ++ s) = d.get (backupsDir root id ++ s))
    (hdirs : ∀ p, d.isDir p = true → d'.isDir p = true)
    (hfree : ∀ k ∈ m.touchedFiles, (d₀.content (root ++ parts k)).isSome = true →
      d'.isDir (root ++ parts k) = false) : Tracked root id d₀ m d' where
  keys := h.keys
  entries k a hm := by
    have he := h.entries k a hm
    have hk : k ∈ m.touchedFiles := by
      rw [h.keys]; exact List.mem_map.mpr ⟨(k, a), hm, rfl⟩
    refine ⟨he.clean, he.leads, he.user, he.hash, fun b hb => ⟨(he.kept b hb).1, ?_⟩, hfree k hk⟩
    rw [Disk.content_congr (harea _)]
    exact (he.kept b hb).2
  untouched p hu ht := (hcontent p hu ht).trans (h.untouched p hu ht)
  dirs p hp := hdirs p (h.dirs p hp)
  opened := h.opened
  area s hs hp := by
    unfold Disk.present at hp
    rw [harea] at hp
    exact h.area s hs hp

/-- A touched file is written. -/
theorem put (h : Tracked root id d₀ m d) {t : Path} {b : Bytes} (hu : IsUserPath root t)
    (ht : IsTouched root m.touchedFiles t) (hp : d.canPut t = true) :
    Tracked root id d₀ m (d.put t b hp) := by
  have htd : d.isDir t = false := by simp [Disk.canPut] at hp; exact hp.2
  refine h.frame ?_ ?_ ?_ ?_
  · intro p _ hnt
    rw [Disk.content_put, if_neg (fun e : p = t => hnt (e ▸ ht))]
  · intro s
    rw [Disk.get_put, if_neg]
    exact fun e => not_isUserPath_backupsDir root id s (e ▸ hu)
  · exact fun p hd => Disk.isDir_put hp hd
  · intro k hk hsome
    obtain ⟨a, _, he⟩ := h.entry hk
    by_cases hkt : root ++ parts k = t
    · rw [hkt]; exact Disk.isDir_eq_false_of_content (b := b) (by simp)
    · rw [← he.free hsome]; exact Disk.isDir_congr (by rw [Disk.get_put, if_neg hkt])

/-- A touched file is removed. -/
theorem drop (h : Tracked root id d₀ m d) {t : Path} (hu : IsUserPath root t)
    (ht : IsTouched root m.touchedFiles t) (hf : d.isFile t = true) :
    Tracked root id d₀ m (d.drop t hf) := by
  refine h.frame ?_ ?_ ?_ ?_
  · intro p _ hnt
    rw [Disk.content_drop, if_neg (fun e : p = t => hnt (e ▸ ht))]
  · intro s
    rw [Disk.get_drop, if_neg]
    exact fun e => not_isUserPath_backupsDir root id s (e ▸ hu)
  · intro p hd
    rw [Disk.isDir_iff, Disk.get_drop, if_neg]
    · exact Disk.isDir_iff.mp hd
    · rintro rfl; rw [Disk.isFile_eq_false_of_isDir hd] at hf; simp at hf
  · intro k hk hsome
    obtain ⟨a, _, he⟩ := h.entry hk
    rw [Disk.isDir_eq_false, Disk.get_drop]
    split
    · simp
    · exact Disk.isDir_eq_false.mp (he.free hsome)

/-- Directories are made on the way to `p`, over no absent file. -/
theorem mkdirs (h : Tracked root id d₀ m d) {p : Path} (hc : d.isClear p = true)
    (harea : ∀ s, ¬ backupsDir root id ++ s <+: p)
    (hno : ∀ k ∈ m.touchedFiles, (d₀.content (root ++ parts k)).isSome = true →
      root ++ parts k <+: p → d.present (root ++ parts k) = true) :
    Tracked root id d₀ m (d.mkdirs p hc) := by
  refine h.frame ?_ ?_ ?_ ?_
  · intro q _ _; rw [Disk.content_mkdirs]
  · intro s; rw [Disk.get_mkdirs, if_neg (harea s)]
  · exact fun q hd => Disk.isDir_mkdirs hc hd
  · intro k hk hsome
    obtain ⟨a, _, he⟩ := h.entry hk
    have hnot : ¬ root ++ parts k <+: p := fun hp => by
      have hf := Disk.isFile_of_present (hno k hk hsome hp) (he.free hsome)
      rw [Disk.isClear_iff.mp hc _ hp] at hf
      simp at hf
    rw [← he.free hsome]
    exact Disk.isDir_congr (by rw [Disk.get_mkdirs, if_neg hnot])

/-- A file is moved between two paths that are touched or the program's own. -/
theorem graftFile (h : Tracked root id d₀ m d) {src dst : Path} (hg : d.canGraft src dst = true)
    (hsd : d.isDir src = false) (hdd : d.isDir dst = false)
    (hs : IsUserPath root src ∧ IsTouched root m.touchedFiles src)
    (hd : IsUserPath root dst → IsTouched root m.touchedFiles dst)
    (harea : ∀ s, backupsDir root id ++ s ≠ dst) :
    Tracked root id d₀ m (d.graft src dst hg) := by
  have hget := Disk.get_graft_file d hg hsd hdd
  have hfile : ∀ q, (d.graft src dst hg).isDir q = d.isDir q := fun q => by
    unfold Disk.isDir at hsd hdd ⊢
    rw [hget]
    by_cases hq : q = dst
    · rw [if_pos hq, hq, hdd]; exact hsd
    · rw [if_neg hq]
      by_cases hqs : q = src
      · rw [if_pos hqs, hqs, hsd]
      · rw [if_neg hqs]
  refine h.frame ?_ ?_ ?_ ?_
  · intro p hu hnt
    refine Disk.content_congr ?_
    rw [hget, if_neg (fun e : p = dst => hnt (e ▸ hd (e ▸ hu))),
      if_neg (fun e : p = src => hnt (e ▸ hs.2))]
  · intro s
    rw [hget, if_neg (harea s), if_neg]
    exact fun e => not_isUserPath_backupsDir root id s (e ▸ hs.1)
  · intro p hp; rw [hfile]; exact hp
  · intro k hk hsome
    obtain ⟨a, _, he⟩ := h.entry hk
    rw [hfile]; exact he.free hsome

/-- Only the keys, the hashes and the backups of the manifest matter. -/
theorem of_record (h : Tracked root id d₀ m d) {m' : Manifest}
    (hkeys : m'.touchedFiles = m.touchedFiles) (hhashes : m'.beforeHashes = m.beforeHashes)
    (hbackups : m'.backups = m.backups) : Tracked root id d₀ m' d where
  keys := by rw [hkeys, hhashes]; exact h.keys
  entries k a hm := by
    have he := h.entries k a (hhashes ▸ hm)
    exact ⟨he.clean, he.leads, he.user, he.hash,
      fun b hb => ⟨hbackups ▸ (he.kept b hb).1, (he.kept b hb).2⟩, he.free⟩
  untouched p hu ht := h.untouched p hu (hkeys ▸ ht)
  dirs := h.dirs
  opened := h.opened
  area s hs hp := by rw [hkeys]; exact h.area s hs hp

end Tracked

/-! ## Snapshots -/

/-- The transaction `id` runs and its manifest `m` tracks it. -/
structure Running (engine : Engine) (id : Text) (d₀ : FS) (w : World) (m : Manifest) : Prop where
  found : findManifest w id = some m
  pending : m.status = .pending
  tracked : Tracked engine.root id d₀ m w.disk

/-- `k` may become a key: it leads to a user path that no other key leads to. -/
def KeySafe (root : Path) (m : Manifest) (k : Text) : Prop :=
  ∀ t, validate root k = .ok t →
    IsUserPath root t ∧ ∀ k' ∈ m.touchedFiles, validate root k' = .ok t → k' = k

instance (root : Path) (m : Manifest) (k : Text) : Decidable (KeySafe root m k) :=
  match h : validate root k with
  | .ok t => decidable_of_iff (IsUserPath root t ∧
      ∀ k' ∈ m.touchedFiles, validate root k' = .ok t → k' = k) (by simp [KeySafe, h])
  | .error _ => isTrue (by simp [KeySafe, h])

/-- What a snapshot of `k` does to a running transaction: the manifest may get
the key `k`, and no user path changes. -/
structure Snapped (engine : Engine) (id : Text) (d₀ : FS) (k : Text) (w w' : World)
    (m m' : Manifest) : Prop where
  running : Running engine id d₀ w' m'
  user : ∀ p, IsUserPath engine.root p → w'.disk.get p = w.disk.get p
  only : ∀ k' ∈ m'.touchedFiles, k' ∈ m.touchedFiles ∨ k' = k
  mono : ∀ k' ∈ m.touchedFiles, k' ∈ m'.touchedFiles

section Snapshot

variable {engine : Engine} {id : Text} {d₀ : FS} {w w' : World}

/-- Writing an entry without a backup: there was no file. -/
theorem Tracked.addNew {root : Path} {m : Manifest} {d : FS} {k : Text}
    (h : Tracked root id d₀ m d) (backup : Path) (hclean : CleanKey k)
    (hleads : validate root k = .ok (root ++ parts k)) (huser : IsUserPath root (root ++ parts k))
    (hnew : k ∉ m.touchedFiles) (hnone : d₀.content (root ++ parts k) = none) :
    Tracked root id d₀ { m with
      beforeHashes := m.beforeHashes ++ [(k, none)]
      backups := if (none : Option Text).isSome then setKey m.backups k backup else m.backups
      touchedFiles := noteFile m.touchedFiles k } d := by
  have hnote : noteFile m.touchedFiles k = m.touchedFiles ++ [k] := by rw [noteFile, if_neg hnew]
  refine ⟨?_, ?_, ?_, h.dirs, h.opened, ?_⟩
  · show noteFile m.touchedFiles k = _
    rw [hnote, List.map_append, h.keys]; rfl
  · intro k' a hm
    rcases List.mem_append.mp hm with hm | hm
    · have he := h.entries k' a hm
      exact ⟨he.clean, he.leads, he.user, he.hash, he.kept, he.free⟩
    · obtain ⟨rfl, rfl⟩ := Prod.mk.inj (List.mem_singleton.mp hm)
      refine ⟨hclean, hleads, huser, by rw [hnone]; rfl, fun b hb => ?_, fun hs => ?_⟩
      · rw [hnone] at hb; simp at hb
      · rw [hnone] at hs; simp at hs
  · intro p hu hnt
    refine h.untouched p hu fun ⟨k', hk', hl⟩ => hnt ⟨k', ?_, hl⟩
    show k' ∈ noteFile m.touchedFiles k
    rw [hnote]; exact List.mem_append_left _ hk'
  · intro s hs hp
    obtain ⟨k', hk', h'⟩ := h.area s hs hp
    refine ⟨k', ?_, h'⟩
    show k' ∈ noteFile m.touchedFiles k
    rw [hnote]; exact List.mem_append_left _ hk'

/-- A copy into the area changes nothing the user sees. -/
theorem Tracked.get_keep {root : Path} {m : Manifest} {d : FS} {s : Path} {b : Bytes}
    (h : Tracked root id d₀ m d) (hc : d.isClear (backupsDir root id ++ s).parent = true)
    (hput : (d.mkdirs _ hc).canPut (backupsDir root id ++ s) = true) {p : Path}
    (hp : IsUserPath root p) :
    ((d.mkdirs _ hc).put (backupsDir root id ++ s) b hput).get p = d.get p := by
  rw [Disk.get_put, if_neg (fun e => not_isUserPath_backupsDir root id _ (e ▸ hp)),
    Disk.get_mkdirs]
  split
  next hpre =>
    have hown : root ++ [dotShamsu] <+: backupsDir root id ++ s := by
      simp [backupsDir, transactionDir]
    rw [Disk.isDir_iff.mp (h.isDir_above_own hp (Path.prefix_of_prefix_parent hpre) hown)]
  next => rfl

/-- Copying the file and writing its entry. -/
theorem Tracked.addKept {root : Path} {m : Manifest} {d : FS} {k : Text} {b : Bytes}
    (h : Tracked root id d₀ m d) (hash : Text) (hclean : CleanKey k)
    (hleads : validate root k = .ok (root ++ parts k)) (huser : IsUserPath root (root ++ parts k))
    (hnew : ∀ k' ∈ m.touchedFiles, validate root k' ≠ .ok (root ++ parts k))
    (hb₀ : d₀.content (root ++ parts k) = some b)
    (hfree : d.isDir (root ++ parts k) = false)
    (hc : d.isClear (backupsDir root id ++ parts k).parent = true)
    (hput : (d.mkdirs _ hc).canPut (backupsDir root id ++ parts k) = true) :
    Tracked root id d₀ { m with
      beforeHashes := m.beforeHashes ++ [(k, some hash)]
      backups := if (some hash).isSome then
        setKey m.backups k (backupsDir root id ++ parts k) else m.backups
      touchedFiles := noteFile m.touchedFiles k }
      ((d.mkdirs _ hc).put (backupsDir root id ++ parts k) b hput) := by
  have hknew : k ∉ m.touchedFiles := fun hk => hnew k hk hleads
  have hnote : noteFile m.touchedFiles k = m.touchedFiles ++ [k] := by rw [noteFile, if_neg hknew]
  have hparts : parts k ≠ [] := by
    intro e
    rw [e, List.append_nil, h.isDir_above (Tracked.root_prefix_transactionDir root id)] at hfree
    simp at hfree
  have hdirs : ∀ p, d.isDir p = true →
      ((d.mkdirs _ hc).put (backupsDir root id ++ parts k) b hput).isDir p = true :=
    fun p hp => Disk.isDir_put hput (Disk.isDir_mkdirs hc hp)
  refine ⟨?_, ?_, ?_, fun p hp => hdirs p (h.dirs p hp), h.opened, ?_⟩
  · show noteFile m.touchedFiles k = _
    rw [hnote, List.map_append, h.keys]; rfl
  · intro k' a hm
    rcases List.mem_append.mp hm with hm | hm
    · have he := h.entries k' a hm
      have hk' : k' ∈ m.touchedFiles := by
        rw [h.keys]; exact List.mem_map.mpr ⟨(k', a), hm, rfl⟩
      have hne : k' ≠ k := fun e => hknew (e ▸ hk')
      have hpne : parts k' ≠ parts k := fun e => hnew k' hk' (e ▸ he.leads)
      refine ⟨he.clean, he.leads, he.user, he.hash, fun b' hb' => ⟨?_, ?_⟩, fun hs => ?_⟩
      · show (setKey m.backups k _).lookup k' = _
        rw [lookup_setKey_ne _ _ hne]; exact (he.kept b' hb').1
      · rw [Disk.content_put, if_neg (fun e => hpne (List.append_cancel_left e)),
          Disk.content_mkdirs]
        exact (he.kept b' hb').2
      · rw [Disk.isDir_congr (h.get_keep hc hput he.user)]; exact he.free hs
    · obtain ⟨rfl, rfl⟩ := Prod.mk.inj (List.mem_singleton.mp hm)
      refine ⟨hclean, hleads, huser, by rw [hb₀]; rfl, fun b' hb' => ⟨?_, ?_⟩, fun _ => ?_⟩
      · exact lookup_setKey_self _ _ _
      · rw [Disk.content_put, if_pos rfl, ← hb', hb₀]
      · rw [Disk.isDir_congr (h.get_keep hc hput huser)]; exact hfree
  · intro p hu hnt
    rw [Disk.content_congr (h.get_keep hc hput hu)]
    refine h.untouched p hu fun ⟨k', hk', hl⟩ => hnt ⟨k', ?_, hl⟩
    show k' ∈ noteFile m.touchedFiles k
    rw [hnote]; exact List.mem_append_left _ hk'
  · intro s hs hp
    show ∃ k' ∈ noteFile m.touchedFiles k, _
    rw [hnote]
    unfold Disk.present at hp
    rw [Disk.get_put] at hp
    split at hp
    next he =>
      refine ⟨k, by simp, by rw [hb₀]; rfl, ?_⟩
      rw [List.append_cancel_left he]
    next =>
      rw [Disk.get_mkdirs] at hp
      split at hp
      next hpre =>
        refine ⟨k, by simp, by rw [hb₀]; rfl, ?_⟩
        exact (List.prefix_append_right_inj _).mp (Path.prefix_of_prefix_parent hpre)
      next =>
        obtain ⟨k', hk', h'⟩ := h.area s hs hp
        exact ⟨k', List.mem_append_left _ hk', h'⟩

theorem Snapped.refl {m : Manifest} {k : Text} (h : Running engine id d₀ w m) :
    Snapped engine id d₀ k w w m m :=
  ⟨h, fun _ _ => rfl, fun _ h => Or.inl h, fun _ h => h⟩

/-- The backup of a file has a place: nothing in the area is a directory there. -/
theorem Tracked.area_free {root : Path} {m : Manifest} {d : FS} {k : Text}
    (h : Tracked root id d₀ m d) (hv : validate root k = .ok (root ++ parts k))
    (hfile : d.isFile (root ++ parts k) = true)
    (hsome : (d₀.content (root ++ parts k)).isSome = true)
    (hnew : ∀ k' ∈ m.touchedFiles, validate root k' ≠ .ok (root ++ parts k)) :
    d.isDir (backupsDir root id ++ parts k) = false := by
  cases hd : d.isDir (backupsDir root id ++ parts k) with
  | false => rfl
  | true =>
    have hparts : parts k ≠ [] := by
      intro e
      rw [e, List.append_nil, Disk.isFile_eq_false_of_isDir
        (h.isDir_above (root_prefix_transactionDir ..))] at hfile
      simp at hfile
    obtain ⟨k', hk', hsome', hp⟩ := h.area _ hparts (Disk.present_of_isDir hd)
    obtain ⟨a, _, he⟩ := h.entry hk'
    have heq := spread_content d₀ root [k, k'] _ _ ⟨k, by simp, hv⟩
      ⟨k', by simp, he.leads⟩ hsome hsome' ((List.prefix_append_right_inj _).mpr hp)
    exact absurd (heq ▸ he.leads) (hnew k' hk')

/-- The copy a snapshot makes: all of it, or nothing. -/
theorem keepCopy_cases {d : FS} {t backup : Path} {b : Bytes}
    (hb : d.content t = some b) (hfree : d.isDir backup = false) (hne : backup ≠ t) :
    (∃ (hc : d.isClear backup.parent = true) (hput : (d.mkdirs _ hc).canPut backup = true),
      (do mkdirP backup.parent; copy2 t backup : FSProg Unit) d =
        (.ok (), (d.mkdirs _ hc).put backup b hput)) ∨
    ∃ e, (do mkdirP backup.parent; copy2 t backup : FSProg Unit) d = (.error e, d) := by
  rcases mkdirP_cases backup.parent d with ⟨hc, hok⟩ | ⟨_, e, herr⟩
  · have hnil : backup ≠ [] := Disk.ne_nil_of_isDir_eq_false hfree
    have hnot : ¬ backup <+: backup.parent := fun hp => Path.ne_of_prefix_parent hnil hp rfl
    have hdir : (d.mkdirs _ hc).isDir backup = false := by
      rw [← hfree]; exact Disk.isDir_congr (by rw [Disk.get_mkdirs, if_neg hnot])
    have hpar : (d.mkdirs _ hc).isDir backup.dropLast = true := by
      rw [Disk.isDir_iff, Disk.get_mkdirs]; exact if_pos (List.prefix_refl _)
    have hput : (d.mkdirs _ hc).canPut backup = true := by
      simp only [Disk.canPut, hpar, hdir]; rfl
    refine Or.inl ⟨hc, hput, ?_⟩
    rw [Prog.bind_of_ok hok, copy2_eq (by rw [Disk.content_mkdirs]; exact hb) hne hput]
  · exact Or.inr ⟨e, Prog.bind_of_error herr⟩

/-- **Snapshot lemma**: a snapshot keeps the record, and has the key when it
returns. -/
theorem snapshot_running {m : Manifest} {k : Text} {r : Except Exn Unit}
    (h : Running engine id d₀ w m) (hclean : CleanKey k) (hsafe : KeySafe engine.root m k)
    (hrun : snapshot engine id k w = (r, w')) :
    ∃ m', Snapped engine id d₀ k w w' m m' ∧ (r = .ok () → k ∈ m'.touchedFiles) := by
  obtain ⟨hm, hpending, hT⟩ := h
  have hid : m.transactionId = id := transactionId_of_findManifest hm
  unfold snapshot at hrun
  rw [Prog.bind_of_ok (loadManifest_eq hm)] at hrun
  by_cases hk : hasKey m.beforeHashes k = true
  · rw [if_pos hk] at hrun
    cases hrun
    exact ⟨m, Snapped.refl ⟨hm, hpending, hT⟩, fun _ => by rw [hT.keys]; exact hasKey_iff.mp hk⟩
  rw [if_neg hk] at hrun
  have hknew : k ∉ m.touchedFiles := by rw [hT.keys]; exact fun h => hk (hasKey_iff.mpr h)
  rcases Prog.ofExcept_bind hrun with ⟨e, _, rfl, rfl⟩ | ⟨t, hv, hrun⟩
  · exact ⟨m, Snapped.refl ⟨hm, hpending, hT⟩, by simp⟩
  have ht : t = engine.root ++ parts k := validate_relative hv hclean.1 hclean.2
  subst ht
  obtain ⟨huser, halias⟩ := hsafe _ hv
  have hnew : ∀ k' ∈ m.touchedFiles, validate engine.root k' ≠ .ok (engine.root ++ parts k) :=
    fun k' hk' hl => hknew (halias k' hk' hl ▸ hk')
  -- the file is still the one the transaction began with
  have hsame : w.disk.content (engine.root ++ parts k) = d₀.content (engine.root ++ parts k) :=
    hT.untouched _ huser fun ⟨k', hk', hl⟩ => hnew k' hk' hl
  have hnote : noteFile m.touchedFiles k = m.touchedFiles ++ [k] := by rw [noteFile, if_neg hknew]
  have hmem : k ∈ noteFile m.touchedFiles k := by rw [hnote]; simp
  have honly : ∀ k' ∈ noteFile m.touchedFiles k, k' ∈ m.touchedFiles ∨ k' = k := fun k' hk' => by
    rw [hnote] at hk'; simpa using hk'
  have hmono : ∀ k' ∈ m.touchedFiles, k' ∈ noteFile m.touchedFiles k := fun k' hk' => by
    rw [hnote]; exact List.mem_append_left _ hk'
  rw [Prog.bind_of_ok (Prog.gets_apply _ w), transactionBackup_clean hclean] at hrun
  cases hfile : w.disk.isFile (engine.root ++ parts k) with
  | false =>
    have hnone : w.disk.content (engine.root ++ parts k) = none := Disk.isFile_eq_false.mp hfile
    have hhash : hashFile engine w.disk (engine.root ++ parts k) = none := by
      rw [hashFile, hnone]; rfl
    rw [Prog.bind_of_ok (Prog.whenever_of_false
      (c := fun w : World => w.disk.isFile (engine.root ++ parts k)) hfile), hhash] at hrun
    obtain ⟨rfl, rfl⟩ := Prod.mk.inj hrun
    exact ⟨_, ⟨⟨findManifest_write hm hid, hpending,
      hT.addNew (backupsDir engine.root id ++ parts k) hclean hv huser hknew (hsame ▸ hnone)⟩,
      fun _ _ => rfl, honly, hmono⟩, fun _ => hmem⟩
  | true =>
    obtain ⟨b, hb⟩ := Disk.isFile_iff.mp hfile
    have hhash : hashFile engine w.disk (engine.root ++ parts k) = some (engine.sha256 b) := by
      rw [hashFile, hb]; rfl
    have hfree := hT.area_free hv hfile (by rw [← hsame, hb]; rfl) hnew
    have hne : backupsDir engine.root id ++ parts k ≠ engine.root ++ parts k := fun e =>
      not_isUserPath_backupsDir engine.root id (parts k) (e ▸ huser)
    have hrun : ((onDisk (do
        mkdirP (backupsDir engine.root id ++ parts k).parent
        copy2 (engine.root ++ parts k) (backupsDir engine.root id ++ parts k))) >>=
        fun _ => writeManifest { m with
          beforeHashes := m.beforeHashes ++ [(k, some (engine.sha256 b))]
          backups := setKey m.backups k (backupsDir engine.root id ++ parts k)
          touchedFiles := noteFile m.touchedFiles k }) w = (r, w') := by
      rw [← hrun, Prog.bind_apply, Prog.bind_apply, onDisk_bind, Prog.whenever_of_true
        (c := fun w : World => w.disk.isFile (engine.root ++ parts k)) hfile, hhash]
      rfl
    rcases keepCopy_cases hb hfree hne with ⟨hc, hput, hok⟩ | ⟨e, herr⟩
    · rw [Prog.bind_of_ok (onDisk_eq hok)] at hrun
      obtain ⟨rfl, rfl⟩ := Prod.mk.inj hrun
      have hm₁ : findManifest { w with disk := (w.disk.mkdirs _ hc).put _ b hput } id = some m := hm
      exact ⟨_, ⟨⟨findManifest_write hm₁ hid, hpending, hT.addKept (engine.sha256 b) hclean hv
        huser hnew (hsame ▸ hb) (Disk.isDir_eq_false_of_content hb) hc hput⟩,
        fun p hp => hT.get_keep hc hput hp, honly, hmono⟩, fun _ => hmem⟩
    · rw [Prog.bind_of_error (onDisk_eq herr)] at hrun
      obtain ⟨rfl, rfl⟩ := Prod.mk.inj hrun
      exact ⟨m, Snapped.refl ⟨hm, hpending, hT⟩, by simp⟩

end Snapshot

end Shamsu.Patch
