import Mathlib

/-!
# Undoing writes from copies kept in the same store

A program changes a store at several keys and wants to be able to go back. The
first time it touches a key `t` it puts a copy of the value at `copy t`, *in the
same store*, and notes `t` in a log; the keys it makes from nothing it notes as
`created`. Going back walks the log, newest entry first, moving each copy home
(`undo`), and then removes what was created (`erase`).

`restored` is the store one would get by going back now. The rules say which
steps leave it as it is:

- `restored_push`: keeping a copy, when the copy's own place is free or
  shielded;
- `restored_update`: writing anything at all to a `Shielded` key, one whose
  value the way back overwrites or removes before it reads it;
- `restored_create`: creating a key that is not in the log.

`Loaded` says that every entry finds its copy when its turn comes. It is the
invariant that carries the rules.
-/

namespace Shamsu.Lib.UndoLog

variable {κ β : Type}

/-- Going back overwrites or removes the value at `w` before reading it. -/
def Shielded (copy : κ → κ) (created : List κ) (w : κ) : List κ → Prop
  | [] => w ∈ created
  | t :: log => copy t ≠ w ∧ (t = w ∨ Shielded copy created w log)

variable {copy : κ → κ}

theorem shielded_of_forall {created : List κ} {w : κ} (hw : w ∈ created) :
    ∀ {log : List κ}, (∀ u ∈ log, copy u ≠ w) → Shielded copy created w log
  | [], _ => hw
  | t :: _, h => ⟨h t (List.mem_cons_self ..),
      Or.inr (shielded_of_forall hw fun u hu => h u (List.mem_cons_of_mem _ hu))⟩

/-- A shielded key is in the log, or it was created and no copy is kept there. -/
theorem Shielded.cases {created : List κ} {w : κ} :
    ∀ {log : List κ}, Shielded copy created w log →
      w ∈ log ∨ (w ∈ created ∧ ∀ u ∈ log, copy u ≠ w)
  | [], h => Or.inr ⟨h, by simp⟩
  | t :: log, ⟨hc, h⟩ => by
    rcases h with rfl | h
    · exact Or.inl (List.mem_cons_self ..)
    · rcases Shielded.cases h with hm | ⟨hm, hcs⟩
      · exact Or.inl (List.mem_cons_of_mem _ hm)
      · refine Or.inr ⟨hm, fun u hu => ?_⟩
        rcases List.mem_cons.mp hu with rfl | hu
        · exact hc
        · exact hcs u hu

variable [DecidableEq κ]

/-- Move the copy of `t` home, if there is one. -/
def undoOne (copy : κ → κ) (f : κ → Option β) (t : κ) : κ → Option β :=
  match f (copy t) with
  | none => f
  | some b => fun q => if q = t then some b else if q = copy t then none else f q

/-- Move every copy home, newest entry first. -/
def undo (copy : κ → κ) (log : List κ) (f : κ → Option β) : κ → Option β :=
  log.foldl (undoOne copy) f

/-- Remove what was created. -/
def erase (created : List κ) (f : κ → Option β) : κ → Option β := fun q =>
  if q ∈ created then none else f q

/-- The store after going back. -/
def restored (copy : κ → κ) (log created : List κ) (f : κ → Option β) : κ → Option β :=
  erase created (undo copy log f)

/-- Every entry finds its copy when its turn comes. -/
def Loaded (copy : κ → κ) : List κ → (κ → Option β) → Prop
  | [], _ => True
  | t :: log, f => (f (copy t)).isSome = true ∧ Loaded copy log (undoOne copy f t)

instance (copy : κ → κ) (created : List κ) (w : κ) :
    ∀ log, Decidable (Shielded copy created w log)
  | [] => inferInstanceAs (Decidable (w ∈ created))
  | t :: log =>
    have := instDecidableShielded copy created w log
    inferInstanceAs (Decidable (copy t ≠ w ∧ (t = w ∨ Shielded copy created w log)))

theorem restored_cons (t : κ) (log created : List κ) (f : κ → Option β) :
    restored copy (t :: log) created f = restored copy log created (undoOne copy f t) := rfl

theorem loaded_cons (t : κ) (log : List κ) (f : κ → Option β) :
    Loaded copy (t :: log) f ↔
      (f (copy t)).isSome = true ∧ Loaded copy log (undoOne copy f t) := Iff.rfl

theorem undoOne_eq {f : κ → Option β} {t : κ} {b : β} (h : f (copy t) = some b) :
    undoOne copy f t = fun q => if q = t then some b else if q = copy t then none else f q := by
  unfold undoOne; rw [h]

theorem undoOne_none {f : κ → Option β} {t : κ} (h : f (copy t) = none) :
    undoOne copy f t = f := by
  unfold undoOne; rw [h]

/-! ## Writing to a shielded key -/

theorem restored_update {created : List κ} {w : κ} (v : Option β) :
    ∀ {log : List κ} {f : κ → Option β}, Shielded copy created w log → Loaded copy log f →
      restored copy log created (Function.update f w v) = restored copy log created f ∧
      Loaded copy log (Function.update f w v)
  | [], f, hs, _ => by
    have hs : w ∈ created := hs
    refine ⟨funext fun q => ?_, trivial⟩
    show (if q ∈ created then none else Function.update f w v q) = if q ∈ created then none else f q
    by_cases hq : q = w
    · rw [hq, if_pos hs, if_pos hs]
    · rw [Function.update_of_ne hq]
  | t :: log, f, ⟨hcopy, hs⟩, ⟨hsome, hl⟩ => by
    obtain ⟨b, hb⟩ := Option.isSome_iff_exists.mp hsome
    have hb' : Function.update f w v (copy t) = some b := by
      rw [Function.update_of_ne hcopy, hb]
    by_cases ht : t = w
    · -- the entry of `w` itself: its value is replaced by the copy
      have heq : undoOne copy (Function.update f w v) t = undoOne copy f t := by
        rw [undoOne_eq hb, undoOne_eq hb']
        funext q
        by_cases hq : q = t
        · rw [if_pos hq, if_pos hq]
        · rw [if_neg hq, if_neg hq, Function.update_of_ne (fun e => hq (e.trans ht.symm))]
      rw [restored_cons, restored_cons, loaded_cons, heq]
      exact ⟨rfl, by rw [hb']; rfl, hl⟩
    · have heq : undoOne copy (Function.update f w v) t =
          Function.update (undoOne copy f t) w v := by
        rw [undoOne_eq hb, undoOne_eq hb']
        funext q
        by_cases hq : q = w
        · rw [hq, if_neg (Ne.symm ht), if_neg (Ne.symm hcopy), Function.update_self,
            Function.update_self]
        · rw [Function.update_of_ne hq, Function.update_of_ne hq]
      have ih := restored_update v (hs.resolve_left ht) hl
      rw [restored_cons, restored_cons, loaded_cons, heq]
      exact ⟨ih.1, by rw [hb']; rfl, ih.2⟩

/-! ## Keeping a copy -/

/-- A copy of `t` is kept: the way back is the old one after moving it home. -/
theorem restored_push {log created : List κ} {f : κ → Option β} {t : κ} {b : β}
    (hne : copy t ≠ t) (hb : f t = some b) (hl : Loaded copy log f)
    (hfree : f (copy t) = none ∨ Shielded copy created (copy t) log) :
    restored copy (t :: log) created (Function.update f (copy t) (some b)) =
      restored copy log created f ∧
    Loaded copy (t :: log) (Function.update f (copy t) (some b)) := by
  have hone : undoOne copy (Function.update f (copy t) (some b)) t =
      Function.update f (copy t) none := by
    rw [undoOne_eq (Function.update_self ..)]
    funext q
    by_cases hq : q = t
    · rw [if_pos hq, hq, Function.update_of_ne hne.symm, hb]
    · rw [if_neg hq]
      by_cases hc : q = copy t
      · rw [if_pos hc, hc, Function.update_self]
      · rw [if_neg hc, Function.update_of_ne hc, Function.update_of_ne hc]
  have hrest : restored copy log created (Function.update f (copy t) none) =
      restored copy log created f ∧ Loaded copy log (Function.update f (copy t) none) := by
    rcases hfree with hn | hs
    · have : Function.update f (copy t) none = f := by rw [← hn, Function.update_eq_self]
      rw [this]; exact ⟨rfl, hl⟩
    · exact restored_update none hs hl
  rw [restored_cons, loaded_cons, hone]
  exact ⟨hrest.1, by rw [Function.update_self]; rfl, hrest.2⟩

/-! ## Creating a key -/

/-- A key that holds nothing and is not in the log stays empty on the way back,
and no copy is expected there. -/
theorem undo_of_not_mem {t : κ} : ∀ {log : List κ} {f : κ → Option β}, t ∉ log → f t = none →
    Loaded copy log f → undo copy log f t = none ∧ ∀ u ∈ log, copy u ≠ t
  | [], _, _, h, _ => ⟨h, by simp⟩
  | u :: log, f, hmem, h, ⟨hsome, hl⟩ => by
    obtain ⟨b, hb⟩ := Option.isSome_iff_exists.mp hsome
    have hu : t ≠ u := fun e => hmem (e ▸ List.mem_cons_self ..)
    have hc : copy u ≠ t := fun e => by rw [e, h] at hb; simp at hb
    have h' : undoOne copy f u t = none := by
      rw [undoOne_eq hb]; simp only [if_neg hu, if_neg hc.symm]; exact h
    obtain ⟨hr, hcs⟩ := undo_of_not_mem (fun hm => hmem (List.mem_cons_of_mem _ hm)) h' hl
    refine ⟨hr, fun v hv => ?_⟩
    rcases List.mem_cons.mp hv with rfl | hv
    · exact hc
    · exact hcs v hv

/-- A key that held nothing and is not in the log is created. -/
theorem restored_create {log created : List κ} {f : κ → Option β} {t : κ} (v : Option β)
    (hmem : t ∉ log) (hnone : f t = none) (hl : Loaded copy log f) :
    restored copy log (created ++ [t]) (Function.update f t v) = restored copy log created f ∧
    Loaded copy log (Function.update f t v) := by
  obtain ⟨hun, hcopies⟩ := undo_of_not_mem hmem hnone hl
  have hs : Shielded copy (created ++ [t]) t log := shielded_of_forall (by simp) hcopies
  obtain ⟨hr, hl'⟩ := restored_update v hs hl
  refine ⟨hr.trans (funext fun q => ?_), hl'⟩
  show (if q ∈ created ++ [t] then none else undo copy log f q) =
    if q ∈ created then none else undo copy log f q
  by_cases hq : q = t
  · rw [hq, if_pos (by simp), hun, ite_self]
  · simp [hq]

/-- A key already noted as created is created again. -/
theorem restored_recreate {log created : List κ} {f : κ → Option β} {t : κ} (v : Option β)
    (hmem : t ∈ created) (hs : Shielded copy created t log) (hl : Loaded copy log f) :
    restored copy log (created ++ [t]) (Function.update f t v) = restored copy log created f ∧
    Loaded copy log (Function.update f t v) := by
  obtain ⟨hr, hl'⟩ := restored_update v hs hl
  refine ⟨Eq.trans (funext fun q => ?_) hr, hl'⟩
  show (if q ∈ created ++ [t] then none else undo copy log _ q) =
    if q ∈ created then none else undo copy log _ q
  by_cases hq : q = t
  · rw [hq, if_pos (by simp), if_pos hmem]
  · simp [hq]

end Shamsu.Lib.UndoLog
