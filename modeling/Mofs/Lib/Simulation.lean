import Mathlib.Logic.Basic

/-! Labelled transition systems: their runs and forward simulation. -/

namespace Simulation

variable {S A L : Type}

/-- The runs of a transition relation from `s`, with the labels of their steps in order. -/
inductive Runs (step : S → L → S → Prop) (s : S) : List L → S → Prop
  | start : Runs step s [] s
  | next {ls : List L} {l : L} {u v : S} (h : Runs step s ls u) (hstep : step u l v) : Runs step s (ls ++ [l]) v

variable {step : S → L → S → Prop} {s t u : S} {ls ls' : List L}

namespace Runs

theorem append (h : Runs step s ls t) (h' : Runs step t ls' u) : Runs step s (ls ++ ls') u := by
  induction h' with
  | start =>
    rw [List.append_nil]
    exact h
  | next _ hstep ih =>
    rw [← List.append_assoc]
    exact .next ih hstep

theorem mono {step' : S → L → S → Prop} (hstep : ∀ u l v, step u l v → step' u l v) (h : Runs step s ls t) : Runs step' s ls t := by
  induction h with
  | start => exact .start
  | next _ h ih => exact .next ih (hstep _ _ _ h)

/-- What every step preserves holds after every run. -/
theorem invariant {I : S → Prop} (hstep : ∀ u l v, I u → step u l v → I v) (h : Runs step s ls t) (hs : I s) : I t := by
  induction h with
  | start => exact hs
  | next _ h ih => exact hstep _ _ _ ih h

/-- Every run of a system is matched, label by label, by a run of each system that simulates it. -/
theorem simulates {abs : A → L → A → Prop} {R : S → A → Prop}
    (hR : ∀ u a l v, R u a → step u l v → ∃ b, abs a l b ∧ R v b) (h : Runs step s ls t) {a : A} (hs : R s a) :
    ∃ b, Runs abs a ls b ∧ R t b := by
  induction h with
  | start => exact ⟨a, .start, hs⟩
  | next _ hstep ih =>
    obtain ⟨b, hruns, hrel⟩ := ih
    obtain ⟨c, habs, hrel'⟩ := hR _ _ _ _ hrel hstep
    exact ⟨c, .next hruns habs, hrel'⟩

/-- A run that ends `I` has a first step that ends it. -/
theorem exists_step {I : S → Prop} (h : Runs step s ls t) (hs : I s) (ht : ¬ I t) :
    ∃ ls₁ l ls₂ u v, ls = ls₁ ++ l :: ls₂ ∧ Runs step s ls₁ u ∧ I u ∧ step u l v ∧ ¬ I v := by
  induction h with
  | start => exact absurd hs ht
  | next hruns hstep ih =>
    rename_i ls l u v
    by_cases hu : I u
    · exact ⟨ls, l, [], u, v, rfl, hruns, hu, hstep, ht⟩
    · obtain ⟨ls₁, l', ls₂, u', v', rfl, hrest⟩ := ih hu
      exact ⟨ls₁, l', ls₂ ++ [l], u', v', by simp, hrest⟩

end Runs

end Simulation
