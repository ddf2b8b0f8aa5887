import Mathlib

/-!
# Replacing what a pattern matches

`m s` is what is left of `s` after a match at its beginning, and `substitute r m` puts `r` in
the place of each match, from left to right. A match is decided by what follows, so a text
that is cut short can have other matches than the whole one.

`Alike r m u v w U v' w'` says that in `u ++ v` and in `u ++ w` the same is replaced as far as
`u` goes: the result is `U` there, and `v'` and `w'` are what is still to be read then. After
any number of patterns the two results have a common beginning (`alikeAll_prefix`).
-/

namespace Shamsu.Lib

variable {α : Type}

/-- The text with each match replaced. Each round takes an element or more. -/
def substitute (r : List α) (m : List α → Option (List α)) : Nat → List α → List α
  | 0, s => s
  | fuel + 1, s =>
    match m s with
    | some rest => r ++ substitute r m fuel rest
    | none =>
      match s with
      | [] => []
      | c :: s => c :: substitute r m fuel s

/-- The same, as a relation. -/
inductive Subst (r : List α) (m : List α → Option (List α)) : List α → List α → Prop
  | nil (h : m [] = none) : Subst r m [] []
  | keep {c : α} {s o : List α} (h : m (c :: s) = none) (hs : Subst r m s o) :
      Subst r m (c :: s) (c :: o)
  | hit {s rest o : List α} (h : m s = some rest) (hrest : Subst r m rest o) : Subst r m s (r ++ o)

/-- A match takes something. -/
def Shrinks (m : List α → Option (List α)) : Prop :=
  ∀ s rest, m s = some rest → rest.length < s.length

variable {r : List α} {m : List α → Option (List α)}

theorem substitute_spec (hm : Shrinks m) {fuel : Nat} {s : List α} (h : s.length ≤ fuel) :
    Subst r m s (substitute r m fuel s) := by
  have hnil : m [] = none := by
    cases hmatch : m [] with
    | none => rfl
    | some rest => exact absurd (hm _ _ hmatch) (Nat.not_lt_zero _)
  induction fuel generalizing s with
  | zero =>
    rw [List.eq_nil_of_length_eq_zero (Nat.le_zero.mp h)]
    exact .nil hnil
  | succ fuel ih =>
    unfold substitute
    cases hmatch : m s with
    | some rest =>
      have hless := hm _ _ hmatch
      exact .hit hmatch (ih (by omega))
    | none =>
      cases s with
      | nil => exact .nil hnil
      | cons c s => exact .keep hmatch (ih (Nat.le_of_succ_le_succ h))

theorem Subst.unique {s o o' : List α} (h : Subst r m s o) (h' : Subst r m s o') : o = o' := by
  induction h generalizing o' with
  | nil hnone =>
    cases h' with
    | nil => rfl
    | hit hsome => rw [hnone] at hsome; cases hsome
  | keep hnone _ ih =>
    cases h' with
    | keep _ h' => rw [ih h']
    | hit hsome => rw [hnone] at hsome; cases hsome
  | hit hsome _ ih =>
    cases h' with
    | nil hnone => rw [hnone] at hsome; cases hsome
    | keep hnone => rw [hnone] at hsome; cases hsome
    | hit hsome' h' =>
      cases hsome.symm.trans hsome'
      rw [ih h']

/-- Where nothing matches, nothing is replaced. -/
theorem subst_self {s : List α} (h : ∀ s', s' <:+ s → m s' = none) : Subst r m s s := by
  induction s with
  | nil => exact .nil (h [] (List.suffix_refl _))
  | cons c s ih =>
    exact .keep (h _ (List.suffix_refl _))
      (ih fun s' hs' => h s' (hs'.trans (List.suffix_cons c s)))

/-- In two texts with the same beginning the same is replaced there. -/
inductive Alike (r : List α) (m : List α → Option (List α)) (v w : List α) :
    List α → List α → List α → List α → Prop
  /-- Both are read as far as the beginning goes. -/
  | cut : Alike r m v w [] [] v w
  | keep {c : α} {u U v' w' : List α} (hv : m (c :: (u ++ v)) = none)
      (hw : m (c :: (u ++ w)) = none) (h : Alike r m v w u U v' w') :
      Alike r m v w (c :: u) (c :: U) v' w'
  /-- A match that ends in the beginning. -/
  | hit {a u U v' w' : List α} (hv : m (a ++ (u ++ v)) = some (u ++ v))
      (hw : m (a ++ (u ++ w)) = some (u ++ w)) (h : Alike r m v w u U v' w') :
      Alike r m v w (a ++ u) (r ++ U) v' w'
  /-- Matches that start at one place, and go over the end of it. -/
  | cross {u v' w' : List α} (hv : m (u ++ v) = some v') (hw : m (u ++ w) = some w')
      (hv' : v' <:+ v) (hw' : w' <:+ w) : Alike r m v w u r v' w'

variable {u v w U v' w' : List α}

theorem Alike.suffix (h : Alike r m v w u U v' w') : v' <:+ v ∧ w' <:+ w := by
  induction h with
  | cut => exact ⟨List.suffix_refl _, List.suffix_refl _⟩
  | keep _ _ _ ih => exact ih
  | hit _ _ _ ih => exact ih
  | cross _ _ hv' hw' => exact ⟨hv', hw'⟩

/-- Both results begin alike. -/
theorem Alike.subst (h : Alike r m v w u U v' w') {V W : List α} (hV : Subst r m v' V)
    (hW : Subst r m w' W) : Subst r m (u ++ v) (U ++ V) ∧ Subst r m (u ++ w) (U ++ W) := by
  induction h with
  | cut => exact ⟨hV, hW⟩
  | keep hv hw _ ih => exact ⟨.keep hv (ih hV hW).1, .keep hw (ih hV hW).2⟩
  | hit hv hw _ ih =>
    rw [List.append_assoc, List.append_assoc, List.append_assoc, List.append_assoc]
    exact ⟨.hit hv (ih hV hW).1, .hit hw (ih hV hW).2⟩
  | cross hv hw => exact ⟨.hit hv hV, .hit hw hW⟩

/-- Where nothing matches in either text, they are alike. -/
theorem alike_clear (hv : ∀ s, s <:+ u ++ v → m s = none) (hw : ∀ s, s <:+ u ++ w → m s = none) :
    Alike r m v w u u v w := by
  induction u with
  | nil => exact .cut
  | cons c u ih =>
    exact .keep (hv _ (List.suffix_refl _)) (hw _ (List.suffix_refl _))
      (ih (fun s hs => hv s (hs.trans (List.suffix_cons c _)))
        fun s hs => hw s (hs.trans (List.suffix_cons c _)))

/-- One pattern after the other. -/
def substituteAll (r : List α) (ms : List (List α → Option (List α))) (s : List α) : List α :=
  ms.foldl (fun s m => substitute r m s.length s) s

/-- For each pattern in turn. -/
inductive AlikeAll (r : List α) : List (List α → Option (List α)) → List α → List α → List α → Prop
  | nil {u v w : List α} : AlikeAll r [] u v w
  | cons {m : List α → Option (List α)} {ms : List (List α → Option (List α))}
      {u v w U v' w' : List α} (h : Alike r m v w u U v' w')
      (hms : AlikeAll r ms U (substitute r m v'.length v') (substitute r m w'.length w')) :
      AlikeAll r (m :: ms) u v w

variable {ms : List (List α → Option (List α))}

/-- **The results have a common beginning**, and behind it one of them has an end of `w`, where
nothing in `w` itself is replaced. -/
theorem alikeAll_prefix (h : AlikeAll r ms u v w) (hms : ∀ m ∈ ms, Shrinks m)
    (hw : ∀ m ∈ ms, ∀ s, s <:+ w → m s = none) :
    ∃ kept rest more, substituteAll r ms (u ++ w) = kept ++ rest ∧ rest <:+ w ∧
      substituteAll r ms (u ++ v) = kept ++ more := by
  induction h with
  | nil => exact ⟨_, _, _, rfl, List.suffix_refl _, rfl⟩
  | @cons m ms u v w U v' w' halike _ ih =>
    obtain ⟨hm, hms⟩ := List.forall_mem_cons.mp hms
    obtain ⟨hwm, hws⟩ := List.forall_mem_cons.mp hw
    have hsuffix := halike.suffix.2
    have hself : substitute r m w'.length w' = w' :=
      (substitute_spec hm le_rfl).unique (subst_self fun s hs => hwm s (hs.trans hsuffix))
    obtain ⟨hV, hW⟩ := halike.subst (substitute_spec hm le_rfl) (substitute_spec hm le_rfl)
    rw [hself] at hW ih
    have hU : substitute r m (u ++ v).length (u ++ v) = U ++ substitute r m v'.length v' :=
      (substitute_spec hm le_rfl).unique hV
    have hU' : substitute r m (u ++ w).length (u ++ w) = U ++ w' :=
      (substitute_spec hm le_rfl).unique hW
    obtain ⟨kept, rest, more, hcut, hrest, hwhole⟩ :=
      ih hms fun m hmem s hs => hws m hmem s (hs.trans hsuffix)
    refine ⟨kept, rest, more, ?_, hrest.trans hsuffix, ?_⟩
    · unfold substituteAll
      rw [List.foldl_cons, hU']
      exact hcut
    · unfold substituteAll
      rw [List.foldl_cons, hU]
      exact hwhole

/-- Where no pattern matches anywhere in the two texts. -/
theorem alikeAll_clear (hms : ∀ m ∈ ms, Shrinks m)
    (hv : ∀ m ∈ ms, ∀ s, s <:+ u ++ v → m s = none)
    (hw : ∀ m ∈ ms, ∀ s, s <:+ u ++ w → m s = none) : AlikeAll r ms u v w := by
  induction ms with
  | nil => exact .nil
  | cons m ms ih =>
    obtain ⟨hm, hms⟩ := List.forall_mem_cons.mp hms
    obtain ⟨hvm, hvs⟩ := List.forall_mem_cons.mp hv
    obtain ⟨hwm, hws⟩ := List.forall_mem_cons.mp hw
    have hself : ∀ x : List α, (∀ s, s <:+ x → m s = none) → substitute r m x.length x = x :=
      fun x hx => (substitute_spec hm le_rfl).unique (subst_self hx)
    refine .cons (alike_clear hvm hwm) ?_
    rw [hself v fun s hs => hvm s (hs.trans (List.suffix_append _ _)),
      hself w fun s hs => hwm s (hs.trans (List.suffix_append _ _))]
    exact ih hms hvs hws

end Shamsu.Lib
