import Shamsu.Tools.EditText

/-!
# Which occurrence is changed

`shamsu/tools/agent_tools.py`: where `old_string` occurs several times, `edit_file` looks at
the lines around the first five occurrences, takes the context with most words of the request
in its lines up to the match, and replaces the first `old_string` in it.

`best_replaced_iff`: the occurrence with most hint tokens of all is the one that is replaced,
whatever comes in its place, exactly when the context of the best of the first five, where it
is taken, has that occurrence as its first.
-/

namespace Shamsu.Tools

open Shamsu.Py

/-! ## All occurrences -/

/-- The places of `old` from an offset on, each after the one before. -/
def placesFrom (content old : Text) : Nat → Nat → List Nat
  | 0, _ => []
  | fuel + 1, offset =>
    match find old (content.drop offset) with
    | none => []
    | some j => (offset + j) :: placesFrom content old fuel (offset + j + max old.length 1)

/-- The places where `old` occurs in the content. -/
def places (content old : Text) : List Nat :=
  if old = [] then [] else placesFrom content old (content.length + 5) 0

/-- The candidate that `_edit_context_candidates` makes of an occurrence. -/
def contextAt (content old : Text) (index : Nat) : EditContext :=
  let startLine := (content.take index).count '\n'
  let blockStart := startLine - 2
  let blockEnd := min (splitlines content).length (startLine + (old.count '\n' + 1) + 2)
  { lineStart := blockStart + 1
    matchLine := startLine + 1
    text := join '\n' (((splitlines content).take blockEnd).drop blockStart) }

/-- The hints of a request. -/
def hintTokens (userRequest old : Text) : List Text :=
  ((editTokens userRequest).filter fun token =>
    !(editHintStopwords.any fun word => token == word.toList) &&
      !(editTokens old).contains token).dedup

/-- How many of them stand in the lines of the context up to the match. -/
def hintScore (userRequest old : Text) (c : EditContext) : Nat :=
  let shown := (splitlines c.text).take (c.matchLine - c.lineStart + 1)
  ((hintTokens userRequest old).filter fun token =>
    (editTokens (join '\n' shown)).contains token).length

/-- One has more than every other. -/
def Best (score : Nat → Nat) (among : List Nat) (p : Nat) : Prop :=
  p ∈ among ∧ ∀ q ∈ among, q ≠ p → score q < score p

instance (score : Nat → Nat) (among : List Nat) (p : Nat) : Decidable (Best score among p) :=
  inferInstanceAs (Decidable (_ ∧ _))

section Choice

variable {content old userRequest : Text}

/-- What an occurrence scores. -/
def scoreAt (content old userRequest : Text) (p : Nat) : Nat :=
  hintScore userRequest old (contextAt content old p)

theorem drop_of_find {sub s : Text} {i : Nat} (h : find sub s = some i) :
    s.drop i = sub ++ s.drop (i + sub.length) := by
  have hlen : (s.take i).length = i := List.length_take_of_le (find_le h)
  calc s.drop i = (s.take i ++ (sub ++ s.drop (i + sub.length))).drop i := by
        rw [← find_spec h]
    _ = sub ++ s.drop (i + sub.length) := List.drop_left' hlen

theorem placesFrom_take (k : Nat) : ∀ (fuel offset : Nat), k ≤ fuel →
    (placesFrom content old fuel offset).take k = placesFrom content old k offset := by
  induction k with
  | zero =>
    intro fuel offset _
    rfl
  | succ k ih =>
    intro fuel offset hfuel
    obtain ⟨fuel, rfl⟩ := Nat.exists_eq_add_of_le' (Nat.zero_lt_of_lt hfuel)
    unfold placesFrom
    cases find old (content.drop offset) with
    | none => rfl
    | some j =>
      dsimp only
      rw [List.take_succ_cons, ih fuel _ (by omega)]

theorem editContextsFrom_eq (fuel : Nat) : ∀ offset : Nat,
    editContextsFrom content old fuel offset =
      (placesFrom content old fuel offset).map (contextAt content old) := by
  induction fuel with
  | zero => exact fun _ => rfl
  | succ fuel ih =>
    intro offset
    unfold editContextsFrom placesFrom
    cases find old (content.drop offset) with
    | none => rfl
    | some j =>
      dsimp only
      rw [List.map_cons, ← ih]
      rfl

/-- The candidates are the contexts of the first five occurrences. -/
theorem editContextCandidates_eq :
    editContextCandidates content old =
      ((places content old).take 5).map (contextAt content old) := by
  unfold editContextCandidates places
  split
  · rfl
  · rw [placesFrom_take 5 _ _ (by omega), editContextsFrom_eq]

theorem le_of_mem_placesFrom (fuel : Nat) : ∀ {offset p : Nat},
    p ∈ placesFrom content old fuel offset → offset ≤ p := by
  induction fuel with
  | zero => exact fun h => absurd h List.not_mem_nil
  | succ fuel ih =>
    intro offset p h
    unfold placesFrom at h
    split at h
    · exact absurd h List.not_mem_nil
    · rcases List.mem_cons.mp h with rfl | h
      · omega
      · have := ih h
        omega

theorem nodup_placesFrom (fuel : Nat) : ∀ offset : Nat,
    (placesFrom content old fuel offset).Nodup := by
  induction fuel with
  | zero => exact fun _ => List.nodup_nil
  | succ fuel ih =>
    intro offset
    unfold placesFrom
    split
    · exact List.nodup_nil
    · refine List.nodup_cons.mpr ⟨fun h => ?_, ih _⟩
      have := le_of_mem_placesFrom fuel h
      omega

theorem nodup_places : (places content old).Nodup := by
  unfold places
  split
  · exact List.nodup_nil
  · exact nodup_placesFrom _ _

/-- `old` is at each of the places. -/
theorem drop_of_mem_places {p : Nat} (h : p ∈ places content old) :
    content.drop p = old ++ content.drop (p + old.length) := by
  have hat : ∀ (fuel offset : Nat), p ∈ placesFrom content old fuel offset →
      content.drop p = old ++ content.drop (p + old.length) := by
    intro fuel
    induction fuel with
    | zero => exact fun _ h => absurd h List.not_mem_nil
    | succ fuel ih =>
      intro offset h
      unfold placesFrom at h
      split at h
      · exact absurd h List.not_mem_nil
      next j hj =>
        rcases List.mem_cons.mp h with rfl | h
        · have hdrop := drop_of_find hj
          rwa [List.drop_drop, List.drop_drop, ← Nat.add_assoc] at hdrop
        · exact ih _ h
  unfold places at h
  split at h
  · exact absurd h List.not_mem_nil
  · exact hat _ _ h

theorem rest_of_perm {α β : Type} {f : α → β} {l : List α} {a : α} {rest : List β} (ha : a ∈ l)
    (h : (f a :: rest).Perm (l.map f)) :
    ∃ l₁ l₂, l = l₁ ++ a :: l₂ ∧ rest.Perm ((l₁ ++ l₂).map f) := by
  obtain ⟨l₁, l₂, rfl⟩ := List.append_of_mem ha
  refine ⟨l₁, l₂, rfl, List.Perm.cons_inv (a := f a) (h.trans ?_)⟩
  exact (@List.perm_middle _ a l₁ l₂).map f

theorem selectEditContext_nil {candidates : List EditContext}
    (hlist : candidates.insertionSort (fun a b => hintScore userRequest old b ≤
      hintScore userRequest old a) = []) : selectEditContext candidates userRequest old = none := by
  unfold selectEditContext
  dsimp only
  split
  · rfl
  next hcons => cases hlist.symm.trans hcons

theorem selectEditContext_cons {candidates rest : List EditContext} {best : EditContext}
    (hlist : candidates.insertionSort (fun a b => hintScore userRequest old b ≤
      hintScore userRequest old a) = best :: rest) : selectEditContext candidates userRequest old =
      if hintTokens userRequest old = [] ∨ hintScore userRequest old best = 0 then none
      else if rest.head?.any fun second =>
        hintScore userRequest old second == hintScore userRequest old best then none
      else some best := by
  unfold selectEditContext
  dsimp only
  split
  next hnil => cases hlist.symm.trans hnil
  next hcons =>
    cases hlist.symm.trans hcons
    rfl

/-- What is selected is the context of the best. -/
theorem selectEditContext_iff {ps : List Nat} (hps : ps.Nodup) {f : Nat → EditContext}
    {c : EditContext} : selectEditContext (ps.map f) userRequest old = some c ↔
      ∃ p, Best (fun q => hintScore userRequest old (f q)) ps p ∧
        0 < hintScore userRequest old (f p) ∧ c = f p := by
  let byScore (a b : EditContext) : Prop :=
    hintScore userRequest old b ≤ hintScore userRequest old a
  have : Std.Total byScore := ⟨fun a b => Nat.le_total _ _⟩
  have : IsTrans EditContext byScore := ⟨fun a b c hab hbc => Nat.le_trans hbc hab⟩
  have hperm := List.perm_insertionSort byScore (ps.map f)
  have hsorted := List.pairwise_insertionSort byScore (ps.map f)
  constructor
  · intro h
    cases hlist : (ps.map f).insertionSort byScore with
    | nil =>
      rw [selectEditContext_nil hlist] at h
      cases h
    | cons best rest =>
      rw [selectEditContext_cons hlist] at h
      rw [hlist] at hperm hsorted
      split at h
      · cases h
      next hpositive =>
        split at h
        · cases h
        next hsecond =>
          cases h
          rw [not_or] at hpositive
          obtain ⟨p, hp, rfl⟩ := List.mem_map.mp (hperm.mem_iff.mp List.mem_cons_self)
          refine ⟨p, ⟨hp, fun q hq hne => ?_⟩, Nat.pos_of_ne_zero hpositive.2, rfl⟩
          -- the others are the rest of the sorted list
          obtain ⟨l₁, l₂, rfl, hrest⟩ := rest_of_perm hp hperm
          have hq' : f q ∈ rest := by
            refine hrest.mem_iff.mpr (List.mem_map_of_mem ?_)
            rcases List.mem_append.mp hq with hq | hq
            · exact List.mem_append_left _ hq
            · exact List.mem_append_right _ ((List.mem_cons.mp hq).resolve_left hne)
          cases rest with
          | nil => exact absurd hq' List.not_mem_nil
          | cons second more =>
            have htop : byScore (f p) second :=
              List.rel_of_pairwise_cons hsorted List.mem_cons_self
            have hnot : hintScore userRequest old second ≠ hintScore userRequest old (f p) := by
              intro heq
              exact hsecond (by simp [heq])
            have hlow : byScore second (f q) := by
              rcases List.mem_cons.mp hq' with heq | hq'
              · rw [heq]
              · exact List.rel_of_pairwise_cons (List.pairwise_cons.mp hsorted).2 hq'
            exact Nat.lt_of_le_of_lt hlow (Nat.lt_of_le_of_ne htop hnot)
  · intro hsome
    obtain ⟨p, ⟨hp, hbest⟩, hpositive, rfl⟩ := hsome
    cases hlist : (ps.map f).insertionSort byScore with
    | nil =>
      rw [hlist] at hperm
      exact absurd (hperm.mem_iff.mpr (List.mem_map_of_mem hp)) List.not_mem_nil
    | cons best rest =>
      rw [selectEditContext_cons hlist]
      rw [hlist] at hperm hsorted
      obtain ⟨q, hq, rfl⟩ := List.mem_map.mp (hperm.mem_iff.mp List.mem_cons_self)
      have htop : byScore (f q) (f p) := by
        rcases List.mem_cons.mp (hperm.mem_iff.mpr (List.mem_map_of_mem hp)) with heq | hmem
        · rw [heq]
        · exact List.rel_of_pairwise_cons hsorted hmem
      have hqp : q = p := by
        by_contra hne
        exact absurd (hbest q hq hne) (Nat.not_lt.mpr htop)
      subst hqp
      have hhints : hintTokens userRequest old ≠ [] := by
        intro hnil
        unfold hintScore at hpositive
        rw [hnil] at hpositive
        exact absurd hpositive (Nat.lt_irrefl 0)
      rw [if_neg (not_or.mpr ⟨hhints, Nat.ne_of_gt hpositive⟩), if_neg]
      -- the second of the list is another occurrence
      intro hsecond
      obtain ⟨l₁, l₂, rfl, hrest⟩ := rest_of_perm hp hperm
      cases rest with
      | nil => cases hsecond
      | cons second more =>
        obtain ⟨r, hr, rfl⟩ := List.mem_map.mp (hrest.mem_iff.mp List.mem_cons_self)
        have hother : r ≠ q := fun heq =>
          (List.nodup_middle.mp hps).notMem (heq ▸ hr)
        have hlow : hintScore userRequest old (f r) < hintScore userRequest old (f q) :=
          hbest r (List.perm_middle.mem_iff.mpr (List.mem_cons_of_mem q hr)) hother
        have heq : hintScore userRequest old (f r) = hintScore userRequest old (f q) := by
          simpa using hsecond
        omega

/-! ## What is replaced -/

/-- **The best is replaced**: whatever comes in its place, an edit that succeeds replaces the
occurrence with most hint tokens of all. -/
def ReplacesBest (content old userRequest : Text) : Prop :=
  ∀ new result, replaceIn userRequest content old new false = .ok result →
    ∃ p, Best (scoreAt content old userRequest) (places content old) p ∧
      result = content.take p ++ (new ++ content.drop (p + old.length))

/-- Where the best of the first five occurrences has a hint, and its context occurs once, the
first occurrence in that context is the best of all. -/
def ContextLeadsToBest (content old userRequest : Text) : Prop :=
  ∀ p, Best (scoreAt content old userRequest) ((places content old).take 5) p →
    0 < scoreAt content old userRequest p →
    (contextAt content old p).text ≠ [] → occurrences (contextAt content old p).text content = 1 →
    ∀ i j, find (contextAt content old p).text content = some i →
      find old (contextAt content old p).text = some j →
      Best (scoreAt content old userRequest) (places content old) (i + j)

theorem selected_iff {c : EditContext} :
    selectEditContext (editContextCandidates content old) userRequest old = some c ↔
      ∃ p, Best (scoreAt content old userRequest) ((places content old).take 5) p ∧
        0 < scoreAt content old userRequest p ∧ c = contextAt content old p := by
  rw [editContextCandidates_eq]
  exact selectEditContext_iff (nodup_places.sublist (List.take_sublist 5 _))

theorem replaceOne_of_find {sub new s : Text} {i : Nat} (h : find sub s = some i) :
    replaceOne sub new s = s.take i ++ (new ++ s.drop (i + sub.length)) := by
  unfold replaceOne
  rw [h]
  simp

/-- Replacing in a context is replacing at its place. -/
theorem replaceOne_context {sub new context content : Text} {i j : Nat}
    (hi : find context content = some i) (hj : find sub context = some j) :
    replaceOne context (replaceOne sub new context) content =
      content.take (i + j) ++ (new ++ content.drop (i + j + sub.length)) := by
  have hcontext := drop_of_find hi
  have hsub := congrArg List.length (drop_of_find hj)
  have hle := find_le hj
  simp only [List.length_append, List.length_drop] at hsub
  have hbefore : content.take (i + j) = content.take i ++ context.take j := by
    rw [List.take_add, hcontext, List.take_append_of_le_length hle]
  have hafter : content.drop (i + j + sub.length) =
      context.drop (j + sub.length) ++ content.drop (i + context.length) := by
    rw [Nat.add_assoc, ← List.drop_drop, hcontext, List.drop_append_of_le_length (by omega)]
  rw [replaceOne_of_find hi, replaceOne_of_find hj, hbefore, hafter]
  simp only [List.append_assoc]

/-- When an edit of one of several occurrences succeeds. -/
theorem replaceIn_ok_iff {new result : Text} (hmany : 1 < occurrences old content) :
    replaceIn userRequest content old new false = .ok result ↔
      ∃ p, Best (scoreAt content old userRequest) ((places content old).take 5) p ∧
        0 < scoreAt content old userRequest p ∧
        (contextAt content old p).text ≠ [] ∧
        occurrences (contextAt content old p).text content = 1 ∧
        ∃ i j, find (contextAt content old p).text content = some i ∧
          find old (contextAt content old p).text = some j ∧
          (contextAt content old p).text ≠ replaceOne old new (contextAt content old p).text ∧
          result = content.take (i + j) ++ (new ++ content.drop (i + j + old.length)) := by
  have hadopt : adopt content old new = some (old, new) := by
    unfold adopt
    dsimp only
    rw [if_pos (by omega)]
  unfold replaceIn
  rw [hadopt]
  dsimp only
  rw [if_pos ⟨hmany, rfl⟩]
  constructor
  · intro h
    split at h
    · cases h
    next text htext =>
      obtain ⟨hmap, htest⟩ := Option.filter_eq_some_iff.mp htext
      obtain ⟨c, hc, rfl⟩ := Option.map_eq_some_iff.mp hmap
      rw [Bool.and_eq_true, bne_iff_ne, beq_iff_eq] at htest
      have hcandidate := mem_of_selectEditContext hc
      obtain ⟨p, hbest, hpositive, rfl⟩ := selected_iff.mp hc
      unfold replaceWith at h
      split at h
      · cases h
      next hsame =>
        rw [if_neg (by simp), indentMultilineReplacement_context hcandidate htest.1] at h
        cases h
        refine ⟨p, hbest, hpositive, htest.1, htest.2, ?_⟩
        obtain ⟨i, hi⟩ := Option.isSome_iff_exists.mp
          (find_isSome.mpr (occurrences_ne_zero.mp (by omega :
            occurrences (contextAt content old p).text content ≠ 0)))
        cases hj : find old (contextAt content old p).text with
        | none =>
          refine absurd ?_ hsame
          unfold replaceOne
          rw [hj]
        | some j => exact ⟨i, j, hi, rfl, hsame, replaceOne_context hi hj⟩
  · intro hsome
    obtain ⟨p, hbest, hpositive, hne, honce, i, j, hi, hj, hsame, rfl⟩ := hsome
    have hselected : selectEditContext (editContextCandidates content old) userRequest old =
        some (contextAt content old p) := selected_iff.mpr ⟨p, hbest, hpositive, rfl⟩
    have hfilter : ((selectEditContext (editContextCandidates content old) userRequest old).map
        EditContext.text).filter (fun text => text != [] && occurrences text content == 1) =
        some (contextAt content old p).text := by
      rw [hselected, Option.map_some, Option.filter_some, if_pos]
      rw [Bool.and_eq_true, bne_iff_ne, beq_iff_eq]
      exact ⟨hne, honce⟩
    rw [hfilter]
    unfold replaceWith
    dsimp only
    rw [if_neg hsame, if_neg (by simp),
      indentMultilineReplacement_context (mem_of_selectEditContext hselected) hne,
      replaceOne_context hi hj]

/-- A character that is new in a place stands after all that is kept. -/
theorem not_lt_of_replaced {p q : Nat} {x y : Char} {rest t u : Text} (hxy : x ≠ y)
    (hp : content.drop p = x :: rest)
    (h : content.take p ++ y :: t = content.take q ++ y :: u) : ¬ p < q := by
  intro hlt
  have hlen := congrArg List.length hp
  rw [List.length_drop, List.length_cons] at hlen
  have hleft : (content.take p ++ y :: t)[p]? = some y := by
    rw [List.getElem?_append_right (List.length_take_le p content), List.length_take_of_le (by omega),
      Nat.sub_self, List.getElem?_cons_zero]
  have hright : (content.take q ++ y :: u)[p]? = some x := by
    rw [List.getElem?_append_left (by rw [List.length_take]; omega), List.getElem?_take_of_lt hlt]
    have := congrArg (·[0]?) hp
    simpa using this
  rw [h, hright] at hleft
  exact hxy (Option.some.inj hleft)

/-- **Which one is replaced**, when `old_string` occurs several times. -/
theorem best_replaced_iff (content old userRequest : Text) (hmany : 1 < occurrences old content) :
    ReplacesBest content old userRequest ↔ ContextLeadsToBest content old userRequest := by
  constructor
  · intro h p hbest hpositive hne honce i j hi hj
    cases old with
    | nil => exact absurd (List.mem_of_mem_take hbest.1) List.not_mem_nil
    | cons x rest =>
      -- a character that is not the first of `old` shows where it has been put
      let y : Char := if x = 'a' then 'b' else 'a'
      have hxy : x ≠ y := by
        show x ≠ if x = 'a' then 'b' else 'a'
        split
        next hx =>
          rw [hx]
          decide
        next hx => exact hx
      have hreplaced := @replaceOne_of_find _ [y] _ _ hj
      have hdrop := drop_of_find hj
      have hsame : (contextAt content (x :: rest) p).text ≠
          replaceOne (x :: rest) [y] (contextAt content (x :: rest) p).text := by
        intro heq
        rw [hreplaced] at heq
        have htail := congrArg (List.drop j) heq
        rw [List.drop_left' (List.length_take_of_le (find_le hj)), hdrop] at htail
        exact hxy (List.cons.inj htail).1
      obtain ⟨q, hq, hresult⟩ := h [y] _ ((replaceIn_ok_iff hmany).mpr
        ⟨p, hbest, hpositive, hne, honce, i, j, hi, hj, hsame, rfl⟩)
      have hat : ∃ more, content.drop (i + j) = x :: more := by
        rw [← List.drop_drop, drop_of_find hi, List.drop_append_of_le_length (find_le hj), hdrop]
        exact ⟨_, rfl⟩
      obtain ⟨more, hat⟩ := hat
      have hpq : i + j = q := by
        refine Nat.le_antisymm ?_ ?_
        · exact Nat.not_lt.mp (not_lt_of_replaced hxy (drop_of_mem_places hq.1) hresult.symm)
        · exact Nat.not_lt.mp (not_lt_of_replaced hxy hat hresult)
      rw [hpq]
      exact hq
  · intro h new result hok
    obtain ⟨p, hbest, hpositive, hne, honce, i, j, hi, hj, _, rfl⟩ := (replaceIn_ok_iff hmany).mp hok
    exact ⟨i + j, h p hbest hpositive hne honce i j hi hj, rfl⟩

end Choice

theorem best_replaced_apart :
    ReplacesBest "alpha\nx = 1\n\n\n\n\nx = 1\n".toList "x = 1".toList "after alpha".toList := by
  refine (best_replaced_iff _ _ _ (by decide)).mpr ?_
  intro p hbest _ _ _ i j hi hj
  have hp : p = 6 := by
    have hall : ∀ q ∈ (places "alpha\nx = 1\n\n\n\n\nx = 1\n".toList "x = 1".toList).take 5,
        q = 6 ∨ ¬ Best (scoreAt "alpha\nx = 1\n\n\n\n\nx = 1\n".toList "x = 1".toList
          "after alpha".toList)
          ((places "alpha\nx = 1\n\n\n\n\nx = 1\n".toList "x = 1".toList).take 5) q := by
      decide
    exact (hall p hbest.1).resolve_right fun h => h hbest
  subst hp
  have hi' : find (contextAt "alpha\nx = 1\n\n\n\n\nx = 1\n".toList "x = 1".toList 6).text
      "alpha\nx = 1\n\n\n\n\nx = 1\n".toList = some 0 := by decide
  have hj' : find "x = 1".toList
      (contextAt "alpha\nx = 1\n\n\n\n\nx = 1\n".toList "x = 1".toList 6).text = some 6 := by
    decide
  cases hi.symm.trans hi'
  cases hj.symm.trans hj'
  decide

/-- The context of the second occurrence has the first one in it. -/
theorem other_replaced : ¬ ∀ content old userRequest : Text, 1 < occurrences old content →
    ReplacesBest content old userRequest := by
  intro hall
  obtain ⟨p, hbest, hresult⟩ := hall "x = 1\nalpha\nx = 1\n".toList "x = 1".toList
    "after alpha".toList (by decide) "y = 2".toList "y = 2\nalpha\nx = 1\n".toList
    (by decide)
  have hsecond : ∀ q ∈ places "x = 1\nalpha\nx = 1\n".toList "x = 1".toList,
      Best (scoreAt "x = 1\nalpha\nx = 1\n".toList "x = 1".toList "after alpha".toList)
        (places "x = 1\nalpha\nx = 1\n".toList "x = 1".toList) q → q = 12 := by decide
  cases hsecond p hbest.1 hbest
  exact absurd hresult (by decide)

end Shamsu.Tools
