import Mathlib

/-!
# Depth-first search for a cycle

`visit` walks a graph of dependencies depth first, with the path that leads to the
node and the nodes it is done with. It returns a cycle, or those nodes with the ones
it finished added in the order it finished them.

- `visitAll_ordered`: without a cycle, each node on the list has its dependencies
  before it (`Ordered`).
- `Ordered.exists_ready`: along such a list, if some node is not done, then some node
  that is not done has all its dependencies done.
- `visitAll_ne_none`: with fuel for a path through every node, the search ends, and a
  cycle it names has a node (`visitAll_ne_nil_cycle`).
- `visitAll_cycle`: what it names is a way from a node back to it (`IsCycle`); and along
  such a list there is none (`Ordered.acyclic`).
-/

namespace Shamsu.Lib.Acyclic

variable {ν : Type} [DecidableEq ν]

/-- What a search returns. -/
inductive Search (ν : Type) where
  | cycle (nodes : List ν)
  | finished (visited : List ν)
  deriving DecidableEq, Repr

/-- A search from each of some nodes, until one finds a cycle. -/
def each (search : List ν → ν → Option (Search ν)) : List ν → List ν → Option (Search ν)
  | visited, [] => some (.finished visited)
  | visited, node :: nodes =>
    match search visited node with
    | some (.finished visited') => each search visited' nodes
    | other => other

/-- The search from one node; `none` when the fuel ran out. -/
def visit (deps : ν → List ν) : Nat → List ν → List ν → ν → Option (Search ν)
  | 0, _, _, _ => none
  | fuel + 1, path, visited, node =>
    if node ∈ path then some (.cycle (path.drop (path.idxOf node) ++ [node]))
    else if node ∈ visited then some (.finished visited)
    else
      match each (visit deps fuel (path ++ [node])) visited (deps node) with
      | some (.finished visited') => some (.finished (visited' ++ [node]))
      | other => other

/-- The search from each node. -/
def visitAll (deps : ν → List ν) (nodes : List ν) : Option (Search ν) :=
  each (visit deps (nodes.length + 1) []) [] nodes

/-- Each node has its dependencies before it. -/
inductive Ordered (deps : ν → List ν) : List ν → Prop where
  | nil : Ordered deps []
  | snoc {visited : List ν} {node : ν} (rest : Ordered deps visited)
      (before : ∀ d ∈ deps node, d ∈ visited) : Ordered deps (visited ++ [node])

omit [DecidableEq ν] in
/-- The first node that is not done is ready. -/
theorem Ordered.exists_ready {deps : ν → List ν} {nodes : List ν} (h : Ordered deps nodes)
    (done : ν → Prop) (hsome : ∃ node ∈ nodes, ¬ done node) :
    ∃ node ∈ nodes, ¬ done node ∧ ∀ d ∈ deps node, done d := by
  induction h with
  | nil =>
    obtain ⟨node, hnode, _⟩ := hsome
    exact absurd hnode List.not_mem_nil
  | @snoc visited last _ before ih =>
    by_cases hearlier : ∃ node ∈ visited, ¬ done node
    · obtain ⟨node, hnode, hready⟩ := ih hearlier
      exact ⟨node, List.mem_append_left _ hnode, hready⟩
    · -- everything before the last node is done, its dependencies among it
      have hall : ∀ node ∈ visited, done node := by
        intro node hnode
        by_contra hd
        exact hearlier ⟨node, hnode, hd⟩
      obtain ⟨node, hnode, hd⟩ := hsome
      rcases List.mem_append.mp hnode with hin | hin
      · exact absurd (hall node hin) hd
      · rw [List.mem_singleton.mp hin] at hd
        exact ⟨last, by simp, hd, fun d hdep => hall d (before d hdep)⟩

/-- What a search that finds no cycle does to the list. -/
def Extends (deps : ν → List ν) (nodes visited visited' : List ν) : Prop :=
  (Ordered deps visited → Ordered deps visited') ∧ visited ⊆ visited' ∧ nodes ⊆ visited'

omit [DecidableEq ν] in
theorem each_extends {deps : ν → List ν} {search : List ν → ν → Option (Search ν)}
    (hsearch : ∀ visited node visited', search visited node = some (.finished visited') →
      Extends deps [node] visited visited') {nodes visited visited' : List ν}
    (h : each search visited nodes = some (.finished visited')) :
    Extends deps nodes visited visited' := by
  induction nodes generalizing visited with
  | nil =>
    cases h
    exact ⟨id, List.Subset.refl _, List.nil_subset _⟩
  | cons node nodes ih =>
    unfold each at h
    split at h
    next v hv =>
      obtain ⟨hord, hsub, hnode⟩ := hsearch _ _ _ hv
      obtain ⟨hord', hsub', hnodes⟩ := ih h
      refine ⟨hord' ∘ hord, List.Subset.trans hsub hsub', ?_⟩
      intro x hx
      rcases List.mem_cons.mp hx with rfl | hx
      · exact hsub' (hnode (List.mem_singleton_self x))
      · exact hnodes hx
    next other hne => exact absurd h (hne visited')

theorem visit_extends {deps : ν → List ν} {fuel : Nat} {path visited visited' : List ν} {node : ν}
    (h : visit deps fuel path visited node = some (.finished visited')) :
    Extends deps [node] visited visited' := by
  induction fuel generalizing path visited visited' node with
  | zero => cases h
  | succ fuel ih =>
    unfold visit at h
    split at h
    · cases h
    · split at h
      next hin =>
        cases h
        exact ⟨id, List.Subset.refl _, by simpa using hin⟩
      next =>
        split at h
        next v hv =>
          cases h
          obtain ⟨hord, hsub, hdeps⟩ := each_extends (fun _ _ _ hs => ih hs) hv
          refine ⟨fun ho => Ordered.snoc (hord ho) fun d hd => hdeps hd, ?_, by simp⟩
          exact fun x hx => List.mem_append_left _ (hsub hx)
        next other hne => exact absurd h (hne visited')

/-- **Without a cycle** the nodes are in an order in which dependencies come first. -/
theorem visitAll_ordered {deps : ν → List ν} {nodes visited : List ν}
    (h : visitAll deps nodes = some (.finished visited)) :
    Ordered deps visited ∧ nodes ⊆ visited := by
  obtain ⟨hord, _, hnodes⟩ := each_extends (fun _ _ _ hs => visit_extends hs) h
  exact ⟨hord Ordered.nil, hnodes⟩

omit [DecidableEq ν] in
theorem each_ne_nil_cycle {search : List ν → ν → Option (Search ν)}
    (hsearch : ∀ visited node, search visited node ≠ some (.cycle [])) {nodes visited : List ν} :
    each search visited nodes ≠ some (.cycle []) := by
  induction nodes generalizing visited with
  | nil => simp [each]
  | cons node nodes ih =>
    unfold each
    split
    next => exact ih
    next => exact hsearch visited node

theorem visit_ne_nil_cycle {deps : ν → List ν} {fuel : Nat} {path visited : List ν} {node : ν} :
    visit deps fuel path visited node ≠ some (.cycle []) := by
  induction fuel generalizing path visited node with
  | zero => simp [visit]
  | succ fuel ih =>
    unfold visit
    split
    · simp
    · split
      · simp
      · split
        · simp
        · exact each_ne_nil_cycle fun _ _ => ih

/-- A cycle has a node. -/
theorem visitAll_ne_nil_cycle {deps : ν → List ν} {nodes : List ν} :
    visitAll deps nodes ≠ some (.cycle []) :=
  each_ne_nil_cycle fun _ _ => visit_ne_nil_cycle

/-! ## Cycles -/

/-- The graph has an edge to each dependency. -/
def Edge (deps : ν → List ν) (a b : ν) : Prop := b ∈ deps a

/-- A way along edges from a node back to it. -/
structure IsCycle (deps : ν → List ν) (nodes : List ν) : Prop where
  closed : nodes.head? = nodes.getLast?
  edges : nodes.IsChain (Edge deps)
  edge : 2 ≤ nodes.length

omit [DecidableEq ν] in
theorem each_cycle {search : List ν → ν → Option (Search ν)} {P : List ν → Prop}
    {nodes visited found : List ν}
    (hsearch : ∀ visited, ∀ node ∈ nodes, search visited node = some (.cycle found) → P found)
    (h : each search visited nodes = some (.cycle found)) : P found := by
  induction nodes generalizing visited with
  | nil => cases h
  | cons node nodes ih =>
    unfold each at h
    split at h
    next => exact ih (fun u x hx => hsearch u x (List.mem_cons_of_mem _ hx)) h
    next => exact hsearch visited node List.mem_cons_self h

/-- The path and the node that it leads to are a way along edges, and so is its end from
that node on. -/
theorem visit_cycle {deps : ν → List ν} {fuel : Nat} {path visited found : List ν} {node : ν}
    (hpath : (path ++ [node]).IsChain (Edge deps))
    (h : visit deps fuel path visited node = some (.cycle found)) : IsCycle deps found := by
  induction fuel generalizing path visited node with
  | zero => cases h
  | succ fuel ih =>
    unfold visit at h
    split at h
    next hin =>
      cases h
      have hlt := List.idxOf_lt_length_of_mem hin
      have hdrop : (path ++ [node]).drop (path.idxOf node) =
          path.drop (path.idxOf node) ++ [node] := List.drop_append_of_le_length hlt.le
      rw [← hdrop]
      refine ⟨?_, hpath.suffix (List.drop_suffix _ _), ?_⟩
      · rw [hdrop, List.getLast?_concat, List.head?_append, List.head?_drop,
          List.getElem?_eq_getElem hlt, List.getElem_idxOf hlt]
        rfl
      · rw [hdrop, List.length_append, List.length_drop, List.length_singleton]
        omega
    next =>
      split at h
      · cases h
      · split at h
        next => cases h
        next =>
          refine each_cycle (fun u dep hdep hfound => ih ?_ hfound) h
          rw [List.isChain_append]
          refine ⟨hpath, .singleton _, fun x hx y hy => ?_⟩
          rw [List.getLast?_concat] at hx
          cases hx
          cases hy
          exact hdep

/-- **What is named is a cycle.** -/
theorem visitAll_cycle {deps : ν → List ν} {nodes found : List ν}
    (h : visitAll deps nodes = some (.cycle found)) : IsCycle deps found :=
  each_cycle (fun _ _ _ hfound => visit_cycle (.singleton _) hfound) h

omit [DecidableEq ν] in
theorem Ordered.acc {deps : ν → List ν} {nodes : List ν} (h : Ordered deps nodes) :
    ∀ node ∈ nodes, Acc (fun b a => Edge deps a b) node := by
  induction h with
  | nil => exact fun node hnode => absurd hnode List.not_mem_nil
  | @snoc visited last _ before ih =>
    intro node hnode
    rcases List.mem_append.mp hnode with hin | hin
    · exact ih node hin
    · rw [List.mem_singleton.mp hin]
      exact Acc.intro last fun dep hdep => ih dep (before dep hdep)

omit [DecidableEq ν] in
/-- **Along an ordered list** no way leads back. -/
theorem Ordered.acyclic {deps : ν → List ν} {nodes : List ν} (h : Ordered deps nodes) {node : ν}
    (hnode : node ∈ nodes) : ¬ Relation.TransGen (Edge deps) node node := by
  have hback : ∀ {x}, Acc (Relation.TransGen fun b a => Edge deps a b) x →
      ¬ Relation.TransGen (fun b a => Edge deps a b) x x := by
    intro x hacc
    induction hacc with
    | intro x _ ih => exact fun hx => ih x hx hx
  intro hcycle
  exact hback (h.acc node hnode).transGen (Relation.transGen_swap.mp hcycle)

omit [DecidableEq ν] in
/-- A cycle leads from its first node back to it. -/
theorem IsCycle.transGen {deps : ν → List ν} {nodes : List ν} (h : IsCycle deps nodes) :
    ∃ node, Relation.TransGen (Edge deps) node node := by
  obtain ⟨hclosed, hedges, hedge⟩ := h
  match nodes with
  | [] => cases hedge
  | [a] => exact absurd hedge (by simp)
  | a :: b :: rest =>
    rw [List.isChain_cons_cons] at hedges
    have hrest := List.relationReflTransGen_of_exists_isChain_cons rest hedges.2 rfl
    rw [List.getLast?_cons_cons, List.getLast?_eq_some_getLast (List.cons_ne_nil b rest)] at hclosed
    have ha : a = (b :: rest).getLast (List.cons_ne_nil b rest) := Option.some.inj hclosed
    rw [← ha] at hrest
    exact ⟨a, Relation.TransGen.head' hedges.1 hrest⟩

omit [DecidableEq ν] in
theorem each_ne_none {search : List ν → ν → Option (Search ν)} {nodes : List ν}
    (hsearch : ∀ visited, ∀ node ∈ nodes, search visited node ≠ none) (visited : List ν) :
    each search visited nodes ≠ none := by
  induction nodes generalizing visited with
  | nil => simp [each]
  | cons node nodes ih =>
    unfold each
    split
    next v _ => exact ih (fun u x hx => hsearch u x (List.mem_cons_of_mem _ hx)) v
    next => exact hsearch visited node (List.mem_cons_self ..)

/-- A path has different nodes, all with dependencies, so it is no longer than `nodes`. -/
theorem visit_ne_none {deps : ν → List ν} {nodes : List ν} (hnodes : ∀ x, x ∉ nodes → deps x = [])
    {fuel : Nat} {path : List ν} (hnodup : path.Nodup) (hpath : path ⊆ nodes)
    (hfuel : nodes.length < path.length + fuel) (visited : List ν) (node : ν) :
    visit deps fuel path visited node ≠ none := by
  induction fuel generalizing path visited node with
  | zero =>
    have := (hnodup.subperm hpath).length_le
    omega
  | succ fuel ih =>
    unfold visit
    split
    · simp
    · next hnew =>
      split
      · simp
      · have hrec : each (visit deps fuel (path ++ [node])) visited (deps node) ≠ none := by
          by_cases hin : node ∈ nodes
          · refine each_ne_none (fun u x _ => ih ?_ ?_ ?_ u x) visited
            · exact List.nodup_append.mpr ⟨hnodup, by simp, by
                intro a ha b hb
                rw [List.mem_singleton.mp hb]
                intro heq
                subst heq
                exact hnew ha⟩
            · exact List.append_subset.mpr ⟨hpath, by simpa using hin⟩
            · rw [List.length_append, List.length_singleton]
              omega
          · rw [hnodes node hin]
            simp [each]
        split
        · simp
        · exact hrec

/-- The fuel suffices. -/
theorem visitAll_ne_none {deps : ν → List ν} {nodes : List ν}
    (hnodes : ∀ x, x ∉ nodes → deps x = []) : visitAll deps nodes ≠ none :=
  each_ne_none (fun u x _ =>
    visit_ne_none hnodes List.nodup_nil (List.nil_subset _) (by simp) u x) []

end Shamsu.Lib.Acyclic
