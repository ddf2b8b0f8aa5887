import Shamsu.Memory.SqliteStore
import Shamsu.Py.Strip

/-!
# What forgetting a text takes along

`SQLiteMemoryStore.forget` is given an id or a text. For a text it forgets the rows that
`LIKE` finds with the text between two `%`, "by substring match on text" as its comment has
it. A `%` or `_` in the text is not escaped, so it stands for other characters too.

`forgets_containing_iff`: what is forgotten contains the text exactly when neither character
is in it. `like_around` is the half for plain texts; for the others `overfit` makes a text
that is found and does not contain it. `forgotten_stays`: it stays forgotten.
-/

namespace Shamsu.Memory

open Shamsu.Lib Shamsu.Py
open Shamsu.Tools (Casing asciiLower asciiLower_eq toNat_asciiLower)

/-- The text has the query in it, in upper or lower case. -/
def Contains (query text : Text) : Prop := query.map asciiLower <:+: text.map asciiLower

instance (query text : Text) : Decidable (Contains query text) :=
  inferInstanceAs (Decidable (_ <:+: _))

/-- Rows that contain the query may change, the others are what they were. -/
def ChangesOnlyContaining (query : Text) (before after : List MemoryRow) : Prop :=
  List.Forall₂ (fun m m' => m' = m ∨ Contains query m.text) before after

/-- A query without the wildcards of `LIKE`. -/
def HasNoWildcard (query : Text) : Prop := '%' ∉ query ∧ '_' ∉ query

/-! ## Patterns without wildcards -/

theorem like_prefix {p : Text} (hp : HasNoWildcard p) : ∀ {t : Text},
    like (p ++ ['%']) t = true ↔ p.map asciiLower <+: t.map asciiLower := by
  induction p with
  | nil =>
    intro t
    refine iff_of_true ?_ (List.nil_prefix)
    unfold like
    exact List.any_eq_true.mpr ⟨[], (List.mem_tails [] t).mpr (List.nil_suffix), rfl⟩
  | cons c p ih =>
    have hpercent : c ≠ '%' := fun h => hp.1 (h ▸ List.mem_cons_self)
    have hscore : c ≠ '_' := fun h => hp.2 (h ▸ List.mem_cons_self)
    have hrest : HasNoWildcard p :=
      ⟨fun h => hp.1 (List.mem_cons_of_mem c h), fun h => hp.2 (List.mem_cons_of_mem c h)⟩
    intro t
    cases t with
    | nil =>
      refine iff_of_false ?_ ?_
      · rw [List.cons_append, like]
        · exact Bool.false_ne_true
        · exact fun h => absurd h hpercent
      · intro h
        cases List.prefix_nil.mp h
    | cons d t =>
      rw [List.cons_append, like, Bool.and_eq_true, beq_iff_eq, ih hrest, List.map_cons,
        List.map_cons, List.cons_prefix_cons]
      · exact fun h => absurd h hpercent
      · exact fun h => absurd h hscore

/-- **A query without wildcards is found where it is contained.** -/
theorem like_around {query : Text} (h : HasNoWildcard query) {t : Text} :
    like (around query) t = true ↔ Contains query t := by
  unfold around Contains
  rw [like, List.any_eq_true]
  constructor
  · intro hsome
    obtain ⟨rest, hrest, hlike⟩ := hsome
    obtain ⟨front, rfl⟩ := (List.mem_tails rest t).mp hrest
    obtain ⟨back, hback⟩ := ( like_prefix h).mp hlike
    exact ⟨front.map asciiLower, back, by rw [List.map_append, ← hback, List.append_assoc]⟩
  · intro hsome
    obtain ⟨front, back, heq⟩ := hsome
    rw [List.append_assoc] at heq
    refine ⟨t.drop front.length, (List.mem_tails _ t).mpr (List.drop_suffix _ _), ?_⟩
    rw [ like_prefix h, List.map_drop, ← heq, List.drop_left]
    exact List.prefix_append _ _

/-! ## Patterns with wildcards -/

/-- Something else in place of each wildcard. -/
def plainChar (c : Char) : Char := if c = '%' ∨ c = '_' then 'x' else c

/-- A text that the query is found in, without a wildcard of its own. -/
def overfit (query : Text) : Text := 'x' :: (query.map plainChar ++ ['x'])

theorem like_plainChars (rest : Text) : ∀ p : Text,
    like (p ++ ['%']) (p.map plainChar ++ rest) = true := by
  intro p
  induction p with
  | nil =>
    rw [List.nil_append, like]
    exact List.any_eq_true.mpr ⟨[], (List.mem_tails [] _).mpr (List.nil_suffix), rfl⟩
  | cons c p ih =>
    rw [List.cons_append, List.map_cons, List.cons_append]
    by_cases hpercent : c = '%'
    · -- it stands for the one character
      subst hpercent
      rw [like]
      exact List.any_eq_true.mpr
        ⟨_, (List.mem_tails _ _).mpr (List.suffix_cons _ _), ih⟩
    · by_cases hscore : c = '_'
      · subst hscore
        rw [like]
        exact ih
      · have hplain : plainChar c = c := if_neg fun h => h.elim hpercent hscore
        rw [hplain, like, beq_self_eq_true, Bool.true_and]
        · exact ih
        · exact fun h => absurd h hpercent
        · exact fun h => absurd h hscore

theorem like_overfit (query : Text) : like (around query) (overfit query) = true := by
  unfold around overfit
  rw [like]
  exact List.any_eq_true.mpr
    ⟨_, (List.mem_tails _ _).mpr (List.suffix_cons _ _), like_plainChars ['x'] query⟩

/-- A wildcard comes from itself only. -/
theorem asciiLower_wildcard {c w : Char} (hw : w = '%' ∨ w = '_') :
    asciiLower c = w ↔ c = w := by
  have hcode : ¬ (97 ≤ w.toNat ∧ w.toNat ≤ 122) ∧ ¬ (65 ≤ w.toNat ∧ w.toNat ≤ 90) := by
    rcases hw with rfl | rfl <;> decide
  rw [← Char.toNat_inj, ← Char.toNat_inj, toNat_asciiLower]
  split <;> omega

theorem plainChar_ne {w : Char} (hw : w = '%' ∨ w = '_') (c : Char) : plainChar c ≠ w := by
  unfold plainChar
  split
  next => rcases hw with rfl | rfl <;> decide
  next h => exact fun he => h (he ▸ hw)

theorem not_contains_overfit {query : Text} (h : ¬ HasNoWildcard query) :
    ¬ Contains query (overfit query) := by
  intro hin
  obtain ⟨w, hw, hmem⟩ : ∃ w, (w = '%' ∨ w = '_') ∧ w ∈ query := by
    by_cases hpercent : '%' ∈ query
    · exact ⟨'%', Or.inl rfl, hpercent⟩
    · exact ⟨'_', Or.inr rfl, not_not.mp fun hscore => h ⟨hpercent, hscore⟩⟩
  have hlower : w ∈ query.map asciiLower :=
    List.mem_map.mpr ⟨w, hmem, (asciiLower_wildcard hw).mpr rfl⟩
  obtain ⟨c, hc, hcw⟩ := List.mem_map.mp (hin.subset hlower)
  rw [(asciiLower_wildcard hw).mp hcw] at hc
  unfold overfit at hc
  rcases List.mem_cons.mp hc with hx | hc
  · rcases hw with rfl | rfl <;> cases hx
  · rcases List.mem_append.mp hc with hc | hc
    · obtain ⟨d, _, hd⟩ := List.mem_map.mp hc
      exact plainChar_ne hw d hd
    · cases List.mem_singleton.mp hc
      rcases hw with hw | hw <;> cases hw

theorem strip_overfit (query : Text) : strip (overfit query) = overfit query := by
  have hback : rstrip (overfit query) = overfit query := by
    unfold rstrip overfit
    rw [← List.cons_append, List.rdropWhile_concat_neg _ _ _ (by decide)]
  unfold strip
  rw [hback]
  rfl

/-! ## The columns of a row -/

/-- The two columns of each row have the same text. -/
def HasOneText (s : MemoryStore) : Prop := ∀ m ∈ s.memories, m.content = m.text

theorem HasOneText.update {s : MemoryStore} (hs : HasOneText s) {which : MemoryRow → Bool}
    {set : MemoryRow → MemoryRow} (hset : ∀ m, m.content = m.text → (set m).content = (set m).text) :
    HasOneText (s.update which set) := by
  intro m hm
  obtain ⟨m₀, hm₀, rfl⟩ := List.mem_map.mp hm
  split
  · exact hset m₀ (hs m₀ hm₀)
  · exact hs m₀ hm₀

theorem HasOneText.markConflictingStale {c : Casing} {kind freshText projectId : Text}
    {s : MemoryStore} (hs : HasOneText s) :
    HasOneText (markConflictingStale c kind freshText projectId s) := by
  unfold Memory.markConflictingStale
  split
  · exact hs
  · generalize s.all = rows
    induction rows generalizing s with
    | nil => exact hs
    | cons row rows ih =>
      refine ih ?_
      dsimp only
      split
      · exact hs.update fun _ h => h
      · exact hs

theorem HasOneText.remember {c : Casing} {now : Nat} {newId text kind projectId source : Text}
    {metadata : Metadata} {freshness : MemoryFreshness} {status : MemoryRecordStatus}
    {s : MemoryStore} (hs : HasOneText s) :
    HasOneText (remember c now newId text kind metadata projectId source freshness status s).2 := by
  unfold Memory.remember
  dsimp only
  split
  · exact hs
  · split
    next existing _ =>
      dsimp only
      split
      · exact hs
      · exact HasOneText.update hs fun _ _ => rfl
    next =>
      have hmarked : ∀ b : Bool, HasOneText (if b then Memory.markConflictingStale c kind
          (strip text) (projectOf projectId metadata) ⟨s.memories, s.tombstones.filter fun t =>
            !(t.1 == strip text || t.2 == norm c (strip text))⟩
          else ⟨s.memories, s.tombstones.filter fun t =>
            !(t.1 == strip text || t.2 == norm c (strip text))⟩) := by
        intro b
        split
        · exact HasOneText.markConflictingStale hs
        · exact hs
      specialize hmarked (evidenceSources.any fun e => e.toList == sourceOf source metadata)
      revert hmarked
      generalize (if (evidenceSources.any fun e => e.toList == sourceOf source metadata) = true
        then _ else _ : MemoryStore) = s₂
      intro hs₂
      split
      · exact hs
      · intro m hm
        rcases List.mem_append.mp hm with hm | hm
        · exact hs₂ m hm
        · rw [List.mem_singleton.mp hm]

theorem memories_forget (c : Casing) (query : Text) (s : MemoryStore) :
    (forget c query s).memories = s.memories.map fun m =>
      if (if s.memories.any fun m => m.memoryId == query then m.memoryId == query
        else like (around query) m.text || like (around query) m.content)
      then { m with status := .forgotten, freshness := .stale } else m := by
  unfold forget
  dsimp only
  split
  · rfl
  · rfl

/-- **Step lemma**: every operation keeps the columns alike. -/
theorem hasOneText_step {c : Casing} {s : MemoryStore} (hs : HasOneText s) (op : Operation) :
    HasOneText (s.step c op) := by
  cases op with
  | remember now newId text kind metadata projectId source freshness status => exact hs.remember
  | forget query =>
    intro m hm
    unfold MemoryStore.step at hm
    rw [memories_forget] at hm
    obtain ⟨m₀, hm₀, rfl⟩ := List.mem_map.mp hm
    have hboth : ∀ b : Bool, ((if b then { m₀ with status := .forgotten, freshness := .stale }
        else m₀ : MemoryRow).content = (if b then { m₀ with
          status := .forgotten, freshness := .stale } else m₀ : MemoryRow).text) := by
      intro b
      cases b with
      | true => exact hs m₀ hm₀
      | false => exact hs m₀ hm₀
    exact hboth _
  | markStale query => exact HasOneText.update hs fun _ h => h
  | verify now memoryId source => exact HasOneText.update hs fun _ h => h
  | markConflictingStale kind freshText projectId => exact hs.markConflictingStale

/-- **Run lemma**. -/
theorem hasOneText_run (c : Casing) (ops : List Operation) :
    HasOneText (run (MemoryStore.step c) .empty ops) := by
  have hstart : HasOneText .empty := fun _ h => absurd h List.not_mem_nil
  exact run_invariant (I := HasOneText) (P := fun _ _ => True)
    (fun _ op hs _ => hasOneText_step hs op) hstart (along_of_forall (fun _ _ => trivial) _ _)

/-! ## What is forgotten -/

theorem forget_containing {c : Casing} {query : Text} {s : MemoryStore} (hs : HasOneText s)
    (hplain : HasNoWildcard query) (hid : ∀ m ∈ s.memories, m.memoryId ≠ query) :
    ChangesOnlyContaining query s.memories (forget c query s).memories := by
  have hnone : (s.memories.any fun m => m.memoryId == query) = false := by
    rw [List.any_eq_false]
    exact fun m hm h => hid m hm (beq_iff_eq.mp h)
  unfold ChangesOnlyContaining
  rw [memories_forget, List.forall₂_map_right_iff, List.forall₂_same]
  intro m hm
  rw [hnone, if_neg Bool.false_ne_true, hs m hm, Bool.or_self]
  by_cases hlike : like (around query) m.text = true
  · exact Or.inr ((like_around hplain).mp hlike)
  · exact Or.inl (if_neg hlike)

/-- A store with one memory, of a text that a query with wildcards is found in. -/
def overfitted (query : Text) : List Operation :=
  [.remember 0 [] (overfit query) [] {} [] [] .fresh .active]

theorem run_overfitted (c : Casing) (query : Text) : ∃ row : MemoryRow,
    (run (MemoryStore.step c) .empty (overfitted query)).memories = [row] ∧ row.memoryId = [] ∧
      row.text = overfit query ∧ row.status = .active := by
  refine ⟨⟨[], [], overfit query, overfit query, [], "unknown".toList, {}, 0, 0, .fresh, .active⟩,
    ?_, rfl, rfl, rfl⟩
  unfold overfitted
  rw [run_cons, run_nil]
  unfold MemoryStore.step Memory.remember
  dsimp only
  rw [strip_overfit, if_neg (by exact List.cons_ne_nil _ _)]
  rfl

/-- **What is forgotten contains the query**, in every state that the store can be in, exactly
when the query has no wildcard. -/
theorem forgets_containing_iff (c : Casing) (query : Text) :
    (∀ ops : List Operation,
      (∀ m ∈ (run (MemoryStore.step c) .empty ops).memories, m.memoryId ≠ query) →
      ChangesOnlyContaining query (run (MemoryStore.step c) .empty ops).memories
        (forget c query (run (MemoryStore.step c) .empty ops)).memories) ↔
    HasNoWildcard query := by
  constructor
  · intro hall
    by_contra hwild
    obtain ⟨row, hrun, hid, htext, hstatus⟩ := run_overfitted c query
    have hne : row.memoryId ≠ query := by
      intro h
      rw [← h, hid] at hwild
      exact hwild ⟨List.not_mem_nil, List.not_mem_nil⟩
    have hchanges := hall (overfitted query)
    rw [hrun] at hchanges
    have hchange := hchanges fun m hm => List.mem_singleton.mp hm ▸ hne
    unfold ChangesOnlyContaining at hchange
    rw [memories_forget, hrun, List.map_singleton, List.any_cons, List.any_nil, Bool.or_false,
      beq_false_of_ne hne, if_neg Bool.false_ne_true, htext, like_overfit, Bool.true_or,
      if_pos rfl] at hchange
    rcases (List.forall₂_cons.mp hchange).1 with hsame | hin
    · have hactive := congrArg MemoryRow.status hsame
      rw [hstatus] at hactive
      cases hactive
    · exact not_contains_overfit hwild (htext ▸ hin)
  · exact fun hplain ops hid => forget_containing (hasOneText_run c ops) hplain hid

/-- A percent sign forgets what has only the number before it. -/
theorem forgets_other_text : ¬ ∀ (c : Casing) (query : Text) (ops : List Operation),
    (∀ m ∈ (run (MemoryStore.step c) .empty ops).memories, m.memoryId ≠ query) →
    ChangesOnlyContaining query (run (MemoryStore.step c) .empty ops).memories
      (forget c query (run (MemoryStore.step c) .empty ops)).memories := by
  intro hall
  have hchange := hall Casing.ascii "100%".toList
    [.remember 1 ['1'] "Timeout 1000".toList "project_fact".toList {} [] [] .fresh .active]
    (by decide)
  rcases (List.forall₂_cons.mp hchange).1 with hsame | hin
  · exact absurd (congrArg MemoryRow.status hsame) (by decide)
  · exact absurd hin (by decide)

/-! ## What stays forgotten -/

/-- There is a memory of this id, and it is forgotten. -/
def Buried (id : Text) (s : MemoryStore) : Prop :=
  (∃ m ∈ s.memories, m.memoryId = id) ∧ ∀ m ∈ s.memories, m.memoryId = id → m.status = .forgotten

section Burying

variable {id : Text} {s : MemoryStore} {c : Casing}

theorem Buried.update (h : Buried id s) {which : MemoryRow → Bool} {set : MemoryRow → MemoryRow}
    (hid : ∀ m, (set m).memoryId = m.memoryId)
    (hset : ∀ m, m.memoryId = id → which m = true → m.status = .forgotten →
      (set m).status = .forgotten) : Buried id (s.update which set) := by
  have hids : ∀ m, (if which m then set m else m).memoryId = m.memoryId := by
    intro m
    split
    · exact hid m
    · rfl
  obtain ⟨⟨m, hm, hmid⟩, hall⟩ := h
  refine ⟨⟨_, List.mem_map_of_mem hm, (hids m).trans hmid⟩, fun m' hm' hid' => ?_⟩
  obtain ⟨m₀, hm₀, rfl⟩ := List.mem_map.mp hm'
  rw [hids] at hid'
  have hforgotten := hall m₀ hm₀ hid'
  split
  next hw => exact hset m₀ hid' hw hforgotten
  next => exact hforgotten

/-- Only active memories are superseded. -/
theorem Buried.markConflictingStale (h : Buried id s) (kind freshText projectId : Text) :
    Buried id (markConflictingStale c kind freshText projectId s) := by
  unfold Memory.markConflictingStale
  split
  · exact h
  · have hlisted : ∀ m ∈ s.all, m.memoryId = id → m.status = .forgotten :=
      fun m hm => h.2 m (mem_all.mp hm)
    generalize s.all = rows at hlisted
    induction rows generalizing s with
    | nil => exact h
    | cons row rows ih =>
      refine ih ?_ fun m hm => hlisted m (List.mem_cons_of_mem _ hm)
      dsimp only
      split
      next hconflict =>
        refine h.update (fun _ => rfl) fun m hid hw _ => ?_
        have hrow := hlisted row List.mem_cons_self ((beq_iff_eq.mp hw).symm.trans hid)
        unfold conflicts at hconflict
        rw [hrow] at hconflict
        simp at hconflict
      next => exact h

/-- A memory is taken by an active row, or by a new one with an id of its own. -/
theorem Buried.remember (h : Buried id s) {now : Nat} {newId text kind projectId source : Text}
    {metadata : Metadata} {freshness : MemoryFreshness} {status : MemoryRecordStatus} :
    Buried id (remember c now newId text kind metadata projectId source freshness status s).2 := by
  unfold Memory.remember
  dsimp only
  split
  · exact h
  · split
    next existing hfind =>
      dsimp only
      split
      · exact h
      · refine Buried.update h (fun _ => rfl) fun m hid hw _ => ?_
        have hforgotten := h.2 existing (mem_all.mp (List.mem_of_find?_eq_some hfind))
          ((beq_iff_eq.mp hw).symm.trans hid)
        cases hforgotten.symm.trans (takes_spec (List.find?_some hfind)).2.2.1
    next =>
      have hmarked : ∀ (b : Bool) (s' : MemoryStore), Buried id s' → Buried id
          (if b then Memory.markConflictingStale c kind (strip text) (projectOf projectId metadata) s'
            else s') := by
        intro b s' hs'
        cases b with
        | true => exact hs'.markConflictingStale _ _ _
        | false => exact hs'
      have hs₂ := hmarked (evidenceSources.any fun e => e.toList == sourceOf source metadata)
        ⟨s.memories, s.tombstones.filter fun t => !(t.1 == strip text || t.2 == norm c (strip text))⟩ h
      revert hs₂
      generalize (if (evidenceSources.any fun e => e.toList == sourceOf source metadata) = true
        then _ else _ : MemoryStore) = s₂
      rintro ⟨⟨m, hm, hmid⟩, hall⟩
      split
      · exact h
      next hfree =>
        refine ⟨⟨m, List.mem_append_left _ hm, hmid⟩, fun m' hm' hid' => ?_⟩
        rcases List.mem_append.mp hm' with hm' | hm'
        · exact hall m' hm' hid'
        · rw [List.mem_singleton.mp hm'] at hid'
          refine absurd (List.any_eq_true.mpr ⟨m, hm, ?_⟩) hfree
          exact beq_iff_eq.mpr (hmid.trans hid'.symm)

theorem buried_step {op : Operation} (h : Buried id s)
    (hverify : ∀ now source, op ≠ .verify now id source) : Buried id (s.step c op) := by
  cases op with
  | remember => exact h.remember
  | forget query =>
    show Buried id (Memory.forget c query s)
    unfold Memory.forget
    dsimp only
    split <;> exact Buried.update h (fun _ => rfl) fun _ _ _ _ => rfl
  | markStale query => exact h.update (fun _ => rfl) fun _ _ _ hs => hs
  | verify now memoryId source =>
    refine h.update (fun _ => rfl) fun m hid hw _ => ?_
    exact absurd (by rw [← hid, beq_iff_eq.mp hw]) (hverify now source)
  | markConflictingStale kind freshText projectId => exact h.markConflictingStale _ _ _

end Burying

/-- **What is forgotten stays forgotten**, in any run in which it is not verified, and is never
listed. -/
theorem forgotten_stays (c : Casing) {id : Text} {s : MemoryStore} (ops : List Operation)
    (h : Buried id s) (hverify : ∀ now source, .verify now id source ∉ ops) :
    Buried id (run (MemoryStore.step c) s ops) ∧
      ∀ m ∈ (run (MemoryStore.step c) s ops).listActive, m.memoryId ≠ id := by
  have hburied : Buried id (run (MemoryStore.step c) s ops) := by
    induction ops generalizing s with
    | nil => exact h
    | cons op ops ih =>
      refine ih (buried_step h fun now source heq => hverify now source ?_)
        fun now source hmem => hverify now source (List.mem_cons_of_mem _ hmem)
      rw [heq]
      exact List.mem_cons_self
  refine ⟨hburied, fun m hm hid => ?_⟩
  obtain ⟨hmem, hactive, _⟩ := mem_listActive.mp hm
  cases hactive.symm.trans (hburied.2 m hmem hid)

/-- A memory is forgotten, and remembered again. -/
theorem forgotten_stays_retold :
    let again := run (MemoryStore.step Casing.ascii)
      (run (MemoryStore.step Casing.ascii) .empty
        [.remember 1 ['1'] ['x'] [] {} [] [] .fresh .active, .forget ['x']])
      [.remember 2 ['2'] ['x'] [] {} [] [] .fresh .active]
    Buried ['1'] again ∧ ∀ m ∈ again.listActive, m.memoryId ≠ ['1'] :=
  forgotten_stays Casing.ascii _ ⟨by decide, by decide⟩ (by simp)

end Shamsu.Memory
