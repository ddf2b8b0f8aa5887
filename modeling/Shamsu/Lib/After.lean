import Mathlib

/-!
# The elements of a list after what is before them

`EachAfter Q before l`: every element of `l` meets `Q` with all that is before it, in
`before` and then in `l`. `SomeAfter` is that one does.
-/

namespace Shamsu.Lib

variable {α : Type} {Q : List α → α → Prop}

def EachAfter (Q : List α → α → Prop) : List α → List α → Prop
  | _, [] => True
  | before, a :: l => Q before a ∧ EachAfter Q (before ++ [a]) l

def SomeAfter (Q : List α → α → Prop) : List α → List α → Prop
  | _, [] => False
  | before, a :: l => Q before a ∨ SomeAfter Q (before ++ [a]) l

instance EachAfter.decidable [∀ before a, Decidable (Q before a)] :
    ∀ before l, Decidable (EachAfter Q before l)
  | _, [] => inferInstanceAs (Decidable True)
  | before, a :: l =>
    have := EachAfter.decidable (before ++ [a]) l
    inferInstanceAs (Decidable (Q before a ∧ EachAfter Q (before ++ [a]) l))

instance SomeAfter.decidable [∀ before a, Decidable (Q before a)] :
    ∀ before l, Decidable (SomeAfter Q before l)
  | _, [] => inferInstanceAs (Decidable False)
  | before, a :: l =>
    have := SomeAfter.decidable (before ++ [a]) l
    inferInstanceAs (Decidable (Q before a ∨ SomeAfter Q (before ++ [a]) l))

theorem eachAfter_concat {before l : List α} {a : α} :
    EachAfter Q before (l ++ [a]) ↔ EachAfter Q before l ∧ Q (before ++ l) a := by
  induction l generalizing before with
  | nil =>
    show Q before a ∧ True ↔ True ∧ Q (before ++ []) a
    rw [List.append_nil, and_true, true_and]
  | cons b l ih =>
    show Q before b ∧ EachAfter Q (before ++ [b]) (l ++ [a]) ↔ _
    rw [ih, List.append_assoc]
    exact and_assoc.symm

theorem someAfter_concat {before l : List α} {a : α} :
    SomeAfter Q before (l ++ [a]) ↔ SomeAfter Q before l ∨ Q (before ++ l) a := by
  induction l generalizing before with
  | nil =>
    show Q before a ∨ False ↔ False ∨ Q (before ++ []) a
    rw [List.append_nil, or_false, false_or]
  | cons b l ih =>
    show Q before b ∨ SomeAfter Q (before ++ [b]) (l ++ [a]) ↔ _
    rw [ih, List.append_assoc]
    exact or_assoc.symm

end Shamsu.Lib
