import Mathlib

/-!
# A list whose blocks are replaced

`Piece`s cut a list: each has the elements that stay before a block, the block, and
what comes in its place. The pieces are in order and do not overlap, as they are one
after the other; what is after the last one stays too. `source` is the list they cut
and `target` is what it becomes.
-/

namespace Shamsu.Lib

structure Piece (α : Type) where
  before : List α
  old : List α
  new : List α
  deriving DecidableEq, Repr

namespace Piece

variable {α : Type}

/-- The list that is cut, up to what is after the pieces. -/
def source (pieces : List (Piece α)) (rest : List α) : List α :=
  pieces.foldr (fun p l => p.before ++ (p.old ++ l)) rest

/-- The list with its blocks replaced. -/
def target (pieces : List (Piece α)) (rest : List α) : List α :=
  pieces.foldr (fun p l => p.before ++ (p.new ++ l)) rest

@[simp] theorem source_nil (rest : List α) : source [] rest = rest := rfl

@[simp] theorem target_nil (rest : List α) : target [] rest = rest := rfl

@[simp] theorem source_cons (p : Piece α) (pieces : List (Piece α)) (rest : List α) :
    source (p :: pieces) rest = p.before ++ (p.old ++ source pieces rest) := rfl

@[simp] theorem target_cons (p : Piece α) (pieces : List (Piece α)) (rest : List α) :
    target (p :: pieces) rest = p.before ++ (p.new ++ target pieces rest) := rfl

/-- What comes after is at the end. -/
theorem target_rest (pieces : List (Piece α)) (rest more : List α) :
    target pieces (rest ++ more) = target pieces rest ++ more := by
  induction pieces with
  | nil => rfl
  | cons p pieces ih => simp only [target_cons, ih, List.append_assoc]

/-- So it is in the list that is cut. -/
theorem exists_source (pieces : List (Piece α)) :
    ∃ front, ∀ rest, source pieces rest = front ++ rest := by
  induction pieces with
  | nil => exact ⟨[], fun _ => rfl⟩
  | cons p pieces ih =>
    obtain ⟨front, hfront⟩ := ih
    refine ⟨p.before ++ (p.old ++ front), fun rest => ?_⟩
    rw [source_cons, hfront, List.append_assoc, List.append_assoc]

/-- What stays is in both. -/
theorem mem_source_of_before {pieces : List (Piece α)} {rest : List α} {p : Piece α} {a : α}
    (hp : p ∈ pieces) (ha : a ∈ p.before) : a ∈ source pieces rest := by
  induction pieces with
  | nil => cases hp
  | cons q pieces ih =>
    rw [source_cons]
    rcases List.mem_cons.mp hp with rfl | hp
    · exact List.mem_append_left _ ha
    · exact List.mem_append_right _ (List.mem_append_right _ (ih hp))

theorem mem_target_of_before {pieces : List (Piece α)} {rest : List α} {p : Piece α} {a : α}
    (hp : p ∈ pieces) (ha : a ∈ p.before) : a ∈ target pieces rest := by
  induction pieces with
  | nil => cases hp
  | cons q pieces ih =>
    rw [target_cons]
    rcases List.mem_cons.mp hp with rfl | hp
    · exact List.mem_append_left _ ha
    · exact List.mem_append_right _ (List.mem_append_right _ (ih hp))

/-- What is in the result stays, or comes in the place of a block. -/
theorem mem_target {pieces : List (Piece α)} {rest : List α} {a : α}
    (h : a ∈ target pieces rest) : (∃ p ∈ pieces, a ∈ p.new) ∨ a ∈ source pieces rest := by
  induction pieces with
  | nil => exact Or.inr h
  | cons p pieces ih =>
    rw [target_cons] at h
    rcases List.mem_append.mp h with h | h
    · exact Or.inr (List.mem_append_left _ h)
    · rcases List.mem_append.mp h with h | h
      · exact Or.inl ⟨p, List.mem_cons_self, h⟩
      · rcases ih h with ⟨q, hq, h⟩ | h
        · exact Or.inl ⟨q, List.mem_cons_of_mem _ hq, h⟩
        · exact Or.inr (List.mem_append_right _ (List.mem_append_right _ h))

theorem source_append (front back : List (Piece α)) (rest : List α) :
    source (front ++ back) rest = source front (source back rest) := List.foldr_append

theorem mem_source_of_old {pieces : List (Piece α)} {rest : List α} {p : Piece α} {a : α}
    (hp : p ∈ pieces) (ha : a ∈ p.old) : a ∈ source pieces rest := by
  induction pieces with
  | nil => cases hp
  | cons q pieces ih =>
    rw [source_cons]
    rcases List.mem_cons.mp hp with rfl | hp
    · exact List.mem_append_right _ (List.mem_append_left _ ha)
    · exact List.mem_append_right _ (List.mem_append_right _ (ih hp))

theorem mem_target_of_new {pieces : List (Piece α)} {rest : List α} {p : Piece α} {a : α}
    (hp : p ∈ pieces) (ha : a ∈ p.new) : a ∈ target pieces rest := by
  induction pieces with
  | nil => cases hp
  | cons q pieces ih =>
    rw [target_cons]
    rcases List.mem_cons.mp hp with rfl | hp
    · exact List.mem_append_right _ (List.mem_append_left _ ha)
    · exact List.mem_append_right _ (List.mem_append_right _ (ih hp))

/-- The lengths differ by what the blocks do. -/
theorem length_target (pieces : List (Piece α)) (rest : List α) :
    ((target pieces rest).length : Int) = (source pieces rest).length +
      (pieces.map fun p => (p.new.length : Int) - p.old.length).sum := by
  induction pieces with
  | nil => simp
  | cons p pieces ih =>
    rw [target_cons, source_cons, List.map_cons, List.sum_cons]
    simp only [List.length_append]
    omega

end Piece

end Shamsu.Lib
