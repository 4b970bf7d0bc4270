import Mathlib.Logic.Function.Basic

namespace Mofs.Linked

variable {ν β : Type} {next next' : ν → ν} {vals vals' : ν → List β} {null a : ν} {ns ms : List ν} {vs ws : List β}

/-- A linked list in a store. From `a` the links visit the nodes `ns` and end at `null`, and the values the
nodes hold are `vs` in order. -/
inductive Links (next : ν → ν) (vals : ν → List β) (null : ν) : ν → List ν → List β → Prop
  | nil : Links next vals null null [] []
  | cons {a : ν} {ns : List ν} {vs : List β} (ha : a ≠ null) (h : Links next vals null (next a) ns vs) :
      Links next vals null a (a :: ns) (vals a ++ vs)

namespace Links

theorem congr (h : Links next vals null a ns vs) (hn : ∀ b ∈ ns, next b = next' b) (hv : ∀ b ∈ ns, vals b = vals' b) :
    Links next' vals' null a ns vs := by
  induction h with
  | nil => exact .nil
  | cons ha h ih =>
    rw [hv _ (by simp)]
    refine .cons ha ?_
    rw [← hn _ (by simp)]
    exact ih (fun b hb => hn b (by simp [hb])) (fun b hb => hv b (by simp [hb]))

theorem unique (h : Links next vals null a ns vs) (h' : Links next vals null a ms ws) : ns = ms ∧ vs = ws := by
  induction h generalizing ms ws with
  | nil =>
    cases h' with
    | nil => exact ⟨rfl, rfl⟩
    | cons ha => exact absurd rfl ha
  | cons ha h ih =>
    cases h' with
    | nil => exact absurd rfl ha
    | cons ha' h' =>
      obtain ⟨rfl, rfl⟩ := ih h'
      exact ⟨rfl, rfl⟩

theorem of_null (h : Links next vals null null ns vs) : ns = [] ∧ vs = [] := h.unique .nil

theorem ne_null (h : Links next vals null a ns vs) (hvs : vs ≠ []) : a ≠ null := by
  rintro rfl
  exact hvs h.of_null.2

end Links

end Mofs.Linked
