import Mathlib.Data.Set.Finite.Basic
import Mathlib.Dynamics.PeriodicPts.Defs

namespace Mofs.Loop

variable {σ : Type} {next : σ → σ} {Goes : σ → Prop} {s : σ}

/-- The loop that moves from a state to the `next` one as long as the state satisfies `Goes` is left at some point. -/
def Ends (next : σ → σ) (Goes : σ → Prop) (s : σ) : Prop := ∃ k, ¬ Goes (next^[k] s)

/-- The loop comes back to a state it has been in. -/
def Cycles (next : σ → σ) (Goes : σ → Prop) (s : σ) : Prop :=
  ∃ a b, a < b ∧ next^[a] s = next^[b] s ∧ ∀ k < b, Goes (next^[k] s)

theorem Cycles.goes (h : Cycles next Goes s) (k : Nat) : Goes (next^[k] s) := by
  obtain ⟨a, b, hab, heq, hgo⟩ := h
  by_cases hk : k < b
  · exact hgo k hk
  -- from `a` on the states repeat with period `b - a`
  have hper : Function.IsPeriodicPt next (b - a) (next^[a] s) := by
    rw [Function.IsPeriodicPt, Function.IsFixedPt, ← Function.iterate_add_apply, Nat.sub_add_cancel hab.le]
    exact heq.symm
  have hmod := hper.iterate_mod_apply (k - a)
  rw [← Function.iterate_add_apply, ← Function.iterate_add_apply, Nat.sub_add_cancel (by omega)] at hmod
  rw [← hmod]
  have hlt := Nat.mod_lt (k - a) (Nat.sub_pos_of_lt hab)
  exact hgo _ (by omega)

/-- A loop over finitely many states is left if and only if it never comes back to a state. -/
theorem ends_iff_not_cycles (hfin : (∀ k, Goes (next^[k] s)) → (Set.range fun k => next^[k] s).Finite) :
    Ends next Goes s ↔ ¬ Cycles next Goes s := by
  constructor
  · rintro ⟨k, hk⟩ hc
    exact hk (hc.goes k)
  intro hno
  by_contra hend
  have hgo : ∀ k, Goes (next^[k] s) := by
    intro k
    by_contra hk
    exact hend ⟨k, hk⟩
  have hnot : ¬ Function.Injective fun k => next^[k] s := fun hinj => Set.infinite_range_of_injective hinj (hfin hgo)
  obtain ⟨a, b, heq, hne⟩ := Function.not_injective_iff.mp hnot
  rcases Nat.lt_or_gt_of_ne hne with hab | hba
  · exact hno ⟨a, b, hab, heq, fun k _ => hgo k⟩
  · exact hno ⟨b, a, hba, heq.symm, fun k _ => hgo k⟩

/-- A loop that goes on for as many iterations as there are states comes back to one of them. -/
theorem cycles_of_card {S : Finset σ} (hS : ∀ k ≤ S.card, next^[k] s ∈ S) (hgo : ∀ k < S.card, Goes (next^[k] s)) :
    Cycles next Goes s := by
  have hcard : S.card < (Finset.range (S.card + 1)).card := by simp
  have hmaps : ∀ k ∈ Finset.range (S.card + 1), next^[k] s ∈ S := fun k hk =>
    hS k (Nat.lt_succ_iff.mp (Finset.mem_range.mp hk))
  obtain ⟨a, ha, b, hb, hne, heq⟩ := Finset.exists_ne_map_eq_of_card_lt_of_maps_to hcard hmaps
  have ha := Finset.mem_range.mp ha
  have hb := Finset.mem_range.mp hb
  rcases Nat.lt_or_gt_of_ne hne with hab | hba
  · exact ⟨a, b, hab, heq, fun k hk => hgo k (by omega)⟩
  · exact ⟨b, a, hba, heq.symm, fun k hk => hgo k (by omega)⟩

/-- Of `fuel` iterations the first one goes on, and then the others do. -/
theorem forall_iterate_succ {fuel : Nat} :
    (∀ k < fuel + 1, Goes (next^[k] s)) ↔ Goes s ∧ ∀ k < fuel, Goes (next^[k] (next s)) := Nat.forall_lt_succ_left

/-- A function that runs the loop for at most `fuel` iterations, and has no result if they are not enough, has one for some
`fuel` if and only if the loop ends. -/
theorem returns_iff_ends {ρ : Type} {loop : Nat → Option ρ} (h : ∀ fuel, loop fuel = none ↔ ∀ k < fuel, Goes (next^[k] s)) :
    (∃ fuel, loop fuel ≠ none) ↔ Ends next Goes s := by
  constructor
  · rintro ⟨fuel, hf⟩
    rw [ne_eq, h, not_forall] at hf
    obtain ⟨k, hk⟩ := hf
    exact ⟨k, fun hp => hk fun _ => hp⟩
  · rintro ⟨k, hk⟩
    exact ⟨k + 1, fun hf => hk ((h _).mp hf k (Nat.lt_succ_self k))⟩

/-- The states before the loop is left are distinct. -/
theorem ne_of_not_cycles (h : ¬ Cycles next Goes s) {n : Nat} (hgo : ∀ k < n, Goes (next^[k] s)) {i j : Nat} (hij : i < j)
    (hj : j < n) : next^[i] s ≠ next^[j] s := fun heq =>
  h ⟨i, j, hij, heq, fun k hk => hgo k (by omega)⟩

end Mofs.Loop
