import Mathlib

/-!
# A match that backtracks

A part of a pattern can take more than one beginning of a text. Its ways are listed in the order
in which they are tried, each with what it takes and what it leaves; a part that follows another
is tried on each way of the first, and the match is the first way of the whole.

`first_flatMap` is the rule for a part after another: the ways before lead nowhere, and the match
goes on from this one.
-/

namespace Shamsu.Lib

variable {α β : Type}

/-- As many elements as there are, then fewer. -/
def greedy (p : α → Bool) : List α → List (List α × List α)
  | [] => [([], [])]
  | c :: s =>
    if p c then (greedy p s).map (fun way => (c :: way.1, way.2)) ++ [([], c :: s)]
    else [([], c :: s)]

/-- No element, then more. -/
def lazily (p : α → Bool) : List α → List (List α × List α)
  | [] => [([], [])]
  | c :: s =>
    ([], c :: s) :: if p c then (lazily p s).map (fun way => (c :: way.1, way.2)) else []

/-- Just `u`. -/
def literal [DecidableEq α] (u s : List α) : List (List α × List α) :=
  if u.isPrefixOf s then [(u, s.drop u.length)] else []

/-- For each element of `u` one that is related to it. -/
def literalBy (related : α → α → Bool) : List α → List α → List (List α × List α)
  | [], s => [([], s)]
  | _ :: _, [] => []
  | a :: u, c :: s =>
    if related a c then (literalBy related u s).map fun way => (c :: way.1, way.2) else []

theorem literalBy_append {related : α → α → Bool} {u v : List α}
    (h : List.Forall₂ (fun a c => related a c = true) u v) (rest : List α) :
    literalBy related u (v ++ rest) = [(v, rest)] := by
  induction h with
  | nil => rfl
  | cons hac _ ih =>
    rw [List.cons_append, literalBy, if_pos hac, ih]
    rfl

theorem first_flatMap {ways before after : List α} {a : α} {f : α → List β} {b : β}
    (h : ways = before ++ a :: after) (hbefore : ∀ x ∈ before, f x = [])
    (ha : (f a).head? = some b) : (ways.flatMap f).head? = some b := by
  have hnone : before.flatMap f = [] := List.flatMap_eq_nil_iff.mpr hbefore
  rw [h, List.flatMap_append, hnone, List.nil_append, List.flatMap_cons, List.head?_append, ha]
  rfl

/-- The first way that is tried, where it goes on. -/
theorem first_of_first {ways : List α} {a : α} {f : α → List β} {b : β}
    (h : ways.head? = some a) (ha : (f a).head? = some b) : (ways.flatMap f).head? = some b := by
  obtain ⟨after, hways⟩ := List.head?_eq_some_iff.mp h
  rw [hways]
  exact first_flatMap (List.nil_append _).symm (fun x hx => absurd hx List.not_mem_nil) ha

theorem first_greedy {p : α → Bool} {u rest : List α} (hu : ∀ c ∈ u, p c = true)
    (hrest : ∀ c ∈ rest.head?, p c = false) : (greedy p (u ++ rest)).head? = some (u, rest) := by
  induction u with
  | nil =>
    cases rest with
    | nil => rfl
    | cons c rest =>
      show (greedy p (c :: rest)).head? = _
      rw [greedy, if_neg (by rw [hrest c rfl]; decide)]
      rfl
  | cons c u ih =>
    have hmore := ih fun d hd => hu d (List.mem_cons_of_mem c hd)
    show (greedy p (c :: (u ++ rest))).head? = _
    rw [greedy, if_pos (hu c List.mem_cons_self), List.head?_append, List.head?_map, hmore]
    rfl

/-- Where nothing can be taken there is one way. -/
theorem greedy_none {p : α → Bool} {rest : List α} (hrest : ∀ c ∈ rest.head?, p c = false) :
    greedy p rest = [([], rest)] := by
  cases rest with
  | nil => rfl
  | cons c rest => rw [greedy, if_neg (by rw [hrest c rfl]; decide)]

theorem literal_append [DecidableEq α] (u rest : List α) : literal u (u ++ rest) = [(u, rest)] := by
  unfold literal
  rw [if_pos (List.isPrefixOf_iff_prefix.mpr (List.prefix_append u rest)), List.drop_left]

theorem mem_literal [DecidableEq α] {u s : List α} {way : List α × List α} :
    way ∈ literal u s ↔ way.1 = u ∧ s = u ++ way.2 := by
  unfold literal
  split
  next h =>
    obtain ⟨t, rfl⟩ := List.isPrefixOf_iff_prefix.mp h
    rw [List.mem_singleton, List.drop_left]
    constructor
    · intro heq
      subst heq
      exact ⟨rfl, rfl⟩
    · intro hsome
      obtain ⟨hu, ht⟩ := hsome
      exact Prod.ext hu (List.append_cancel_left ht).symm
  next h =>
    refine iff_of_false List.not_mem_nil fun ⟨_, hs⟩ => h ?_
    rw [hs]
    exact List.isPrefixOf_iff_prefix.mpr (List.prefix_append u _)

/-- What greedy takes is what it is tried on. -/
theorem mem_greedy {p : α → Bool} {s : List α} {way : List α × List α} (h : way ∈ greedy p s) :
    s = way.1 ++ way.2 ∧ ∀ c ∈ way.1, p c = true := by
  induction s generalizing way with
  | nil =>
    rw [List.mem_singleton.mp h]
    exact ⟨rfl, fun c hc => absurd hc List.not_mem_nil⟩
  | cons c s ih =>
    rw [greedy] at h
    split at h
    case isTrue hc =>
      rcases List.mem_append.mp h with hmore | hnone
      · obtain ⟨way', hway, rfl⟩ := List.mem_map.mp hmore
        obtain ⟨hs, hall⟩ := ih hway
        exact ⟨congrArg (c :: ·) hs, List.forall_mem_cons.mpr ⟨hc, hall⟩⟩
      · rw [List.mem_singleton.mp hnone]
        exact ⟨rfl, fun d hd => absurd hd List.not_mem_nil⟩
    case isFalse =>
      rw [List.mem_singleton.mp h]
      exact ⟨rfl, fun d hd => absurd hd List.not_mem_nil⟩

theorem mem_greedy_iff {p : α → Bool} {s : List α} {way : List α × List α} :
    way ∈ greedy p s ↔ s = way.1 ++ way.2 ∧ ∀ c ∈ way.1, p c = true := by
  refine ⟨mem_greedy, ?_⟩
  obtain ⟨u, rest⟩ := way
  intro h
  obtain ⟨rfl, hall⟩ := h
  induction u with
  | nil =>
    cases rest with
    | nil => exact List.mem_singleton_self _
    | cons c rest =>
      show _ ∈ greedy p (c :: rest)
      rw [greedy]
      split
      · exact List.mem_append_right _ (List.mem_singleton_self _)
      · exact List.mem_singleton_self _
  | cons c u ih =>
    obtain ⟨hc, hu⟩ := List.forall_mem_cons.mp hall
    show _ ∈ greedy p (c :: (u ++ rest))
    rw [greedy, if_pos hc]
    exact List.mem_append_left _ (List.mem_map.mpr ⟨_, ih hu, rfl⟩)

theorem mem_lazily_iff {p : α → Bool} {s : List α} {way : List α × List α} :
    way ∈ lazily p s ↔ s = way.1 ++ way.2 ∧ ∀ c ∈ way.1, p c = true := by
  induction s generalizing way with
  | nil =>
    show way ∈ [([], [])] ↔ _
    rw [List.mem_singleton]
    constructor
    · intro heq
      subst heq
      exact ⟨rfl, nofun⟩
    · intro hsome
      obtain ⟨hs, -⟩ := hsome
      obtain ⟨hu, hrest⟩ := List.append_eq_nil_iff.mp hs.symm
      exact Prod.ext hu hrest
  | cons c s ih =>
    obtain ⟨u, rest⟩ := way
    rw [lazily, List.mem_cons]
    cases u with
    | nil =>
      constructor
      · intro hcase
        rcases hcase with h | h
        · rw [(Prod.mk.inj h).2]
          exact ⟨rfl, nofun⟩
        · split at h
          · obtain ⟨_, _, hway⟩ := List.mem_map.mp h
            exact nomatch (Prod.mk.inj hway).1
          · cases h
      · exact fun h => .inl (Prod.ext rfl h.1.symm)
    | cons d u =>
      constructor
      · intro hcase
        rcases hcase with h | h
        · exact nomatch (Prod.mk.inj h).1
        · split at h
          next hc =>
            obtain ⟨way', hway', hway⟩ := List.mem_map.mp h
            cases hway
            obtain ⟨hs, hall⟩ := ih.mp hway'
            exact ⟨congrArg (c :: ·) hs, List.forall_mem_cons.mpr ⟨hc, hall⟩⟩
          · cases h
      · intro hsome
        obtain ⟨hs, hall⟩ := hsome
        obtain ⟨hd, hu⟩ := List.forall_mem_cons.mp hall
        cases hs
        rw [if_pos hd]
        exact .inr (List.mem_map.mpr ⟨(u, rest), ih.mpr ⟨rfl, hu⟩, rfl⟩)

/-- The first way takes all there is, and each other one less. -/
theorem greedy_longest (p : α → Bool) (s : List α) :
    ∃ more, greedy p s = (s.takeWhile p, s.dropWhile p) :: more ∧
      ∀ way ∈ more, way.1.length < (s.takeWhile p).length := by
  induction s with
  | nil => exact ⟨[], rfl, nofun⟩
  | cons c s ih =>
    obtain ⟨more, hmore, hless⟩ := ih
    rw [greedy]
    by_cases hc : p c = true
    · rw [if_pos hc, hmore, List.takeWhile_cons_of_pos hc, List.dropWhile_cons_of_pos hc]
      refine ⟨more.map (fun way => (c :: way.1, way.2)) ++ [([], c :: s)], rfl, fun way hway => ?_⟩
      rcases List.mem_append.mp hway with hway | hway
      · obtain ⟨way', hway', rfl⟩ := List.mem_map.mp hway
        exact Nat.succ_lt_succ (hless way' hway')
      · rw [List.mem_singleton.mp hway]
        exact Nat.succ_pos _
    · rw [if_neg hc, List.takeWhile_cons_of_neg hc, List.dropWhile_cons_of_neg hc]
      exact ⟨[], rfl, nofun⟩

/-- **The shortest that leads on**: nothing shorter than `u` does, and `u` does. -/
theorem first_lazily {p : α → Bool} {u rest : List α} {f : List α × List α → List β} {b : β}
    (hu : ∀ c ∈ u, p c = true)
    (hshort : ∀ (v : List α) (c : α) (w : List α), u = v ++ c :: w → f (v, c :: (w ++ rest)) = [])
    (hb : (f (u, rest)).head? = some b) : ((lazily p (u ++ rest)).flatMap f).head? = some b := by
  induction u generalizing f with
  | nil =>
    cases rest with
    | nil => exact first_of_first rfl hb
    | cons c rest => exact first_of_first rfl hb
  | cons c u ih =>
    have hmore := ih (f := fun way => f (c :: way.1, way.2))
      (fun d hd => hu d (List.mem_cons_of_mem c hd))
      (fun v d w h => hshort (c :: v) d w (congrArg (c :: ·) h)) hb
    have hnone := hshort [] c u rfl
    show ((lazily p (c :: (u ++ rest))).flatMap f).head? = _
    rw [lazily, if_pos (hu c List.mem_cons_self), List.flatMap_cons, hnone, List.nil_append,
      List.flatMap_map]
    exact hmore

end Shamsu.Lib
