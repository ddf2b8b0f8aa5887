import Mathlib

/-!
# Keyed tables

A table of a small database: its rows in the order they were inserted, at most one
for each key. `upsert` is `INSERT … ON CONFLICT(key) DO UPDATE`: a row with the key
is overwritten where it stands, otherwise the row is added at the end.

`mem_upsert` says what is in a table after a write, `upsert_eq_self` when a write
changes nothing; the lookup lemmas follow from `lookup_eq_some`.
-/

namespace Shamsu.Lib

/-- Rows with different keys. -/
structure Table {κ ρ : Type} (key : ρ → κ) where
  rows : List ρ
  nodup : (rows.map key).Nodup

namespace Table

variable {κ ρ : Type} {key : ρ → κ}

/-- No rows. -/
def empty : Table key := ⟨[], List.nodup_nil⟩

instance : Membership ρ (Table key) := ⟨fun t r => r ∈ t.rows⟩

theorem mem_def {t : Table key} {r : ρ} : r ∈ t ↔ r ∈ t.rows := Iff.rfl

@[simp] theorem not_mem_empty {r : ρ} : ¬ r ∈ (empty : Table key) := by
  rw [mem_def]
  exact List.not_mem_nil

theorem ext_rows {t u : Table key} (h : t.rows = u.rows) : t = u := by
  obtain ⟨rows, _⟩ := t
  subst h
  rfl

variable [DecidableEq κ]

/-- `SELECT … WHERE key = ?`. -/
def lookup (t : Table key) (k : κ) : Option ρ := t.rows.find? fun r => key r == k

/-- The rows after a write. -/
def upserted (key : ρ → κ) (new : ρ) : List ρ → List ρ
  | [] => [new]
  | r :: rows => if key r = key new then new :: rows else r :: upserted key new rows

theorem upserted_cases (new : ρ) (rows : List ρ) :
    (∃ before old after, rows = before ++ old :: after ∧ key old = key new ∧
      upserted key new rows = before ++ new :: after) ∨
    ((∀ r ∈ rows, key r ≠ key new) ∧ upserted key new rows = rows ++ [new]) := by
  induction rows with
  | nil => exact Or.inr ⟨fun r hr => absurd hr List.not_mem_nil, rfl⟩
  | cons r rows ih =>
    unfold upserted
    split
    next hkey => exact Or.inl ⟨[], r, rows, rfl, hkey, rfl⟩
    next hkey =>
      rcases ih with ⟨before, old, after, hrows, hold, hnew⟩ | ⟨hne, hnew⟩
      · exact Or.inl ⟨r :: before, old, after, by rw [hrows]; rfl, hold, by rw [hnew]; rfl⟩
      · refine Or.inr ⟨?_, by rw [hnew]; rfl⟩
        intro x hx
        rcases List.mem_cons.mp hx with rfl | hx
        · exact hkey
        · exact hne x hx

theorem nodup_upserted (new : ρ) {rows : List ρ} (h : (rows.map key).Nodup) :
    ((upserted key new rows).map key).Nodup := by
  rcases @upserted_cases _ _ key _ new rows with
    ⟨before, old, after, hrows, hold, hnew⟩ | ⟨hne, hnew⟩
  · rw [hrows] at h
    rw [hnew]
    simpa [hold] using h
  · rw [hnew, List.map_append, List.nodup_append]
    refine ⟨h, by simp, ?_⟩
    intro a ha b hb
    obtain ⟨r, hr, rfl⟩ := List.mem_map.mp ha
    rw [List.map_singleton, List.mem_singleton] at hb
    rw [hb]
    exact hne r hr

/-- Overwrite the row of that key, or add it. -/
def upsert (t : Table key) (new : ρ) : Table key :=
  ⟨upserted key new t.rows, nodup_upserted new t.nodup⟩

variable {t : Table key} {r new : ρ} {k : κ}

omit [DecidableEq κ] in
theorem eq_of_key {r' : ρ} (h : r ∈ t) (h' : r' ∈ t) (hkey : key r = key r') : r = r' :=
  List.inj_on_of_nodup_map t.nodup h h' hkey

theorem lookup_eq_some : t.lookup k = some r ↔ r ∈ t ∧ key r = k := by
  constructor
  · intro h
    exact ⟨List.mem_of_find?_eq_some h, by simpa using List.find?_some h⟩
  · intro hsome
    obtain ⟨hr, rfl⟩ := hsome
    cases hl : t.lookup (key r) with
    | none =>
      have := List.find?_eq_none.mp hl r hr
      simp at this
    | some r' =>
      have hkey : key r' = key r := by simpa using List.find?_some hl
      rw [eq_of_key (List.mem_of_find?_eq_some hl) hr hkey]

theorem lookup_eq_none : t.lookup k = none ↔ ∀ r ∈ t, key r ≠ k := by
  unfold lookup
  rw [List.find?_eq_none]
  simp [mem_def]

theorem mem_of_lookup (h : t.lookup k = some r) : r ∈ t := (lookup_eq_some.mp h).1

theorem key_of_lookup (h : t.lookup k = some r) : key r = k := (lookup_eq_some.mp h).2

theorem mem_upsert : r ∈ t.upsert new ↔ r = new ∨ (r ∈ t ∧ key r ≠ key new) := by
  show r ∈ upserted key new t.rows ↔ _
  rcases @upserted_cases _ _ key _ new t.rows with
    ⟨before, old, after, hrows, hold, hnew⟩ | ⟨hne, hnew⟩
  · -- the old row is the only one with the key
    have hnd := t.nodup
    rw [hrows, List.map_append, List.map_cons, List.nodup_middle, List.nodup_cons,
      List.mem_append, not_or] at hnd
    rw [hnew, mem_def, hrows]
    simp only [List.mem_append, List.mem_cons]
    constructor
    · intro hcase
      rcases hcase with h | h | h
      · exact Or.inr ⟨Or.inl h, fun he => hnd.1.1 (by rw [hold, ← he]; exact List.mem_map_of_mem h)⟩
      · exact Or.inl h
      · exact Or.inr ⟨Or.inr (Or.inr h),
          fun he => hnd.1.2 (by rw [hold, ← he]; exact List.mem_map_of_mem h)⟩
    · intro hcase
      rcases hcase with h | ⟨h | h | h, hk⟩
      · exact Or.inr (Or.inl h)
      · exact Or.inl h
      · exact absurd (h ▸ hold) hk
      · exact Or.inr (Or.inr h)
  · rw [hnew, List.mem_append, List.mem_singleton, mem_def]
    constructor
    · intro hcase
      rcases hcase with h | h
      · exact Or.inr ⟨h, hne r h⟩
      · exact Or.inl h
    · intro hcase
      rcases hcase with h | ⟨h, _⟩
      · exact Or.inr h
      · exact Or.inl h

@[simp] theorem mem_upsert_self : new ∈ t.upsert new := mem_upsert.mpr (Or.inl rfl)

@[simp] theorem lookup_upsert_self : (t.upsert new).lookup (key new) = some new :=
  lookup_eq_some.mpr ⟨mem_upsert_self, rfl⟩

theorem lookup_upsert_ne (h : key new ≠ k) : (t.upsert new).lookup k = t.lookup k := by
  cases hl : t.lookup k with
  | none =>
    refine lookup_eq_none.mpr fun r hr => ?_
    rcases mem_upsert.mp hr with rfl | ⟨hr, _⟩
    · exact h
    · exact lookup_eq_none.mp hl r hr
  | some r =>
    obtain ⟨hr, rfl⟩ := lookup_eq_some.mp hl
    exact lookup_eq_some.mpr ⟨mem_upsert.mpr (Or.inr ⟨hr, Ne.symm h⟩), rfl⟩

/-- A selection that has neither the row nor the one it overwrites stays. -/
theorem filter_upsert {p : ρ → Bool} (hnew : p new = false)
    (hold : ∀ old ∈ t, key old = key new → p old = false) :
    (t.upsert new).rows.filter p = t.rows.filter p := by
  show (upserted key new t.rows).filter p = _
  rcases @upserted_cases _ _ key _ new t.rows with
    ⟨before, old, after, hrows, hkey, hup⟩ | ⟨_, hup⟩
  · have hin : old ∈ t := by
      rw [mem_def, hrows]
      exact List.mem_append_right _ (List.mem_cons_self ..)
    rw [hup, hrows, List.filter_append, List.filter_append,
      List.filter_cons_of_neg (by simp [hnew]),
      List.filter_cons_of_neg (by simp [hold old hin hkey])]
  · rw [hup, List.filter_append, List.filter_cons_of_neg (by simp [hnew]), List.filter_nil,
      List.append_nil]

/-- Writing a row changes nothing exactly when it is there already. -/
theorem upsert_eq_self : t.upsert new = t ↔ new ∈ t := by
  constructor
  · intro h
    rw [← h]
    exact mem_upsert_self
  · intro hmem
    apply ext_rows
    show upserted key new t.rows = t.rows
    rcases @upserted_cases _ _ key _ new t.rows with
      ⟨before, old, after, hrows, hold, hnew⟩ | ⟨hne, _⟩
    · have hin : old ∈ t := by
        rw [mem_def, hrows]
        exact List.mem_append_right _ (List.mem_cons_self ..)
      rw [hnew, hrows, eq_of_key hin hmem hold]
    · exact absurd rfl (hne new hmem)

end Table

end Shamsu.Lib
