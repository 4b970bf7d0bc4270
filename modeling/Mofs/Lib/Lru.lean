import Mathlib.Data.List.Basic
import Mathlib.Order.Basic

namespace Mofs.Lru

variable {κ ι τ : Type} [DecidableEq κ]

/-- What happens to a key of a cache: it is used, or it is taken out. -/
inductive Action (κ : Type)
  | use (b : κ)
  | drop (b : κ)

/-- The keys in a cache of `n` slots, the last one used first. A key that is used comes to the front, and the keys behind
the last slot are given up. -/
def step (n : Nat) (l : List κ) : Action κ → List κ
  | .use b => (b :: l.filter (· ≠ b)).take n
  | .drop b => l.filter (· ≠ b)

def run (n : Nat) (l : List κ) (as : List (Action κ)) : List κ := as.foldl (step n) l

/-- In a list from the latest stamp to the earliest, an item with a least stamp is the last one. -/
theorem last_of_least [DecidableEq ι] [Preorder τ] {f : ι → τ} {is : List ι} {i : ι}
    (h : is.Pairwise fun i j => f j < f i) (hi : i ∈ is) (hmin : ∀ j, j ∈ is → f i ≤ f j) :
    is.filter (· ≠ i) ++ [i] = is := by
  induction is with
  | nil => cases hi
  | cons j js ih =>
    obtain ⟨hj, hjs⟩ := List.pairwise_cons.mp h
    by_cases hij : i = j
    · subst hij
      cases js with
      | nil => simp
      | cons k ks => exact absurd (hj k List.mem_cons_self) (hmin k (by simp)).not_gt
    · have hi' : i ∈ js := (List.mem_cons.mp hi).resolve_left hij
      rw [List.filter_cons_of_pos (by simpa using Ne.symm hij), List.cons_append,
        ih hjs hi' fun k hk => hmin k (List.mem_cons_of_mem _ hk)]

end Mofs.Lru
