import Mathlib.Tactic

namespace Along

variable {S X : Type} (step : S → X → S) (P : S → X → Prop)

def Holds (s : S) : List X → Prop
  | [] => True
  | x :: xs => P s x ∧ Holds (step s x) xs

def decidableHolds [∀ s x, Decidable (P s x)] (s : S) : (xs : List X) → Decidable (Holds step P s xs)
  | [] => isTrue trivial
  | x :: xs => @instDecidableAnd _ _ _ (decidableHolds (step s x) xs)

instance [∀ s x, Decidable (P s x)] (s : S) (xs : List X) : Decidable (Holds step P s xs) :=
  decidableHolds step P s xs

variable {step P}

theorem holds_append {s : S} {xs ys : List X} :
    Holds step P s (xs ++ ys) ↔ Holds step P s xs ∧ Holds step P (xs.foldl step s) ys := by
  induction xs generalizing s with
  | nil => simp [Holds]
  | cons x xs ih => simp [Holds, ih, and_assoc]

theorem holds_snoc {s : S} {xs : List X} {x : X} :
    Holds step P s (xs ++ [x]) ↔ Holds step P s xs ∧ P (xs.foldl step s) x := by
  rw [holds_append]
  simp [Holds]

theorem foldl_snoc (xs ys : List X) : xs.foldl (fun p x => p ++ [x]) ys = ys ++ xs := by
  induction xs generalizing ys with
  | nil => simp
  | cons x xs ih => simpa using ih (ys ++ [x])

end Along
