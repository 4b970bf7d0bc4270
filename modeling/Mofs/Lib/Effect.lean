import Mathlib.Logic.Function.Basic

namespace Mofs.Effect

variable {Op : Type} {Ans : Op → Type} {E α β σ : Type}

/-- A program over the operations `Op`. It returns, fails, never returns, or asks for an operation
and continues with the answer. What the operations do is left to an interpreter. -/
inductive Prog (Op : Type) (Ans : Op → Type) (E α : Type) : Type
  | ret (a : α)
  | fail (e : E)
  | hang
  | ask (op : Op) (k : Ans op → Prog Op Ans E α)

def bind : Prog Op Ans E α → (α → Prog Op Ans E β) → Prog Op Ans E β
  | .ret a, f => f a
  | .fail e, _ => .fail e
  | .hang, _ => .hang
  | .ask op k, f => .ask op (fun a => bind (k a) f)

instance : Monad (Prog Op Ans E) where
  pure := .ret
  bind := bind

def call (op : Op) : Prog Op Ans E (Ans op) := .ask op .ret

/-- Run a part of a program and keep its error as a value, as code that tests a return code does. -/
def attempt : Prog Op Ans E α → Prog Op Ans E (Except E α)
  | .ret a => .ret (.ok a)
  | .fail e => .ret (.error e)
  | .hang => .hang
  | .ask op k => .ask op (fun a => attempt (k a))

/-- A step that is taken only if `c` holds. -/
def onlyIf (c : Prop) [Decidable c] (p : Prog Op Ans E Unit) : Prog Op Ans E Unit := if c then p else pure ()

def ofExcept : Except E α → Prog Op Ans E α
  | .ok a => .ret a
  | .error e => .fail e

def run (H : (op : Op) → σ → Ans op × σ) : Prog Op Ans E α → σ → Option (Except E α × σ)
  | .ret a, s => some (.ok a, s)
  | .fail e, s => some (.error e, s)
  | .hang, _ => none
  | .ask op k, s => run H (k (H op s).1) (H op s).2

/-- Total correctness: the program returns, and its outcome and final state satisfy `Q`. -/
def wp (H : (op : Op) → σ → Ans op × σ) (p : Prog Op Ans E α) (Q : Except E α → σ → Prop) (s : σ) : Prop :=
  ∃ r t, run H p s = some (r, t) ∧ Q r t

variable {H : (op : Op) → σ → Ans op × σ} {s t : σ} {r : Except E α} {p : Prog Op Ans E α}
  {f : α → Prog Op Ans E β} {Q R : Except E α → σ → Prop} {S : Except E β → σ → Prop}

@[simp] theorem run_pure (a : α) : run H (pure a : Prog Op Ans E α) s = some (.ok a, s) := rfl

@[simp] theorem run_fail (e : E) : run H (.fail e : Prog Op Ans E α) s = some (.error e, s) := rfl

@[simp] theorem run_hang : run H (.hang : Prog Op Ans E α) s = none := rfl

@[simp] theorem run_call (op : Op) : run H (call op : Prog Op Ans E _) s = some (.ok (H op s).1, (H op s).2) := rfl

@[simp] theorem run_ofExcept (x : Except E α) : run H (ofExcept x : Prog Op Ans E α) s = some (x, s) := by
  cases x <;> rfl

theorem run_bind (p : Prog Op Ans E α) (f : α → Prog Op Ans E β) (s : σ) :
    run H (p >>= f) s = match run H p s with
      | none => none
      | some (.error e, t) => some (.error e, t)
      | some (.ok a, t) => run H (f a) t := by
  induction p generalizing s with
  | ret a => rfl
  | fail e => rfl
  | hang => rfl
  | ask op k ih => exact ih (H op s).1 (H op s).2

theorem run_attempt (p : Prog Op Ans E α) (s : σ) :
    run H (attempt p) s = (run H p s).map (fun x => (.ok x.1, x.2)) := by
  induction p generalizing s with
  | ret a => rfl
  | fail e => rfl
  | hang => rfl
  | ask op k ih => exact ih (H op s).1 (H op s).2

theorem run_bind_ok {a : α} (h : run H p s = some (.ok a, t)) : run H (p >>= f) s = run H (f a) t := by
  rw [run_bind, h]

theorem run_bind_error {e : E} (h : run H p s = some (.error e, t)) :
    run H (p >>= f) s = some (.error e, t) := by
  rw [run_bind, h]

/-- A sequence that returns has returned from both of its parts. -/
theorem run_bind_eq_ok {b : β} (h : run H (p >>= f) s = some (.ok b, t)) :
    ∃ a u, run H p s = some (.ok a, u) ∧ run H (f a) u = some (.ok b, t) := by
  rw [run_bind] at h
  rcases hp : run H p s with _ | ⟨_ | a, u⟩
  · simp [hp] at h
  · simp [hp] at h
  · exact ⟨a, u, rfl, by simpa [hp] using h⟩

/-- A sequence that fails has failed in one of its parts. -/
theorem run_bind_eq_error {e : E} (h : run H (p >>= f) s = some (.error e, t)) :
    run H p s = some (.error e, t) ∨ ∃ a u, run H p s = some (.ok a, u) ∧ run H (f a) u = some (.error e, t) := by
  rw [run_bind] at h
  rcases hp : run H p s with _ | ⟨_ | a, u⟩
  · simp [hp] at h
  · simp only [hp] at h
    cases h
    exact .inl rfl
  · exact .inr ⟨a, u, rfl, by simpa [hp] using h⟩

/-- A sequence does not return if one of its parts does not. -/
theorem run_bind_eq_none : run H (p >>= f) s = none ↔
    run H p s = none ∨ ∃ a t, run H p s = some (.ok a, t) ∧ run H (f a) t = none := by
  rw [run_bind]
  rcases run H p s with _ | ⟨_ | a, u⟩
  · simp
  · simp
  · refine ⟨fun h => .inr ⟨a, u, rfl, h⟩, ?_⟩
    rintro (h | ⟨b, t, h, ht⟩)
    · cases h
    · cases h
      exact ht

theorem run_attempt_of (h : run H p s = some (r, t)) : run H (attempt p) s = some (.ok r, t) := by
  rw [run_attempt, h]; rfl

theorem wp_iff_of_run (h : run H p s = some (r, t)) : wp H p Q s ↔ Q r t := by
  constructor
  · rintro ⟨r', t', h', hQ⟩
    rw [h] at h'
    cases h'
    exact hQ
  · exact fun hQ => ⟨r, t, h, hQ⟩

@[simp] theorem wp_pure (a : α) : wp H (pure a : Prog Op Ans E α) Q s ↔ Q (.ok a) s := wp_iff_of_run rfl

@[simp] theorem wp_ret (a : α) : wp H (.ret a : Prog Op Ans E α) Q s ↔ Q (.ok a) s := wp_iff_of_run rfl

@[simp] theorem wp_fail (e : E) : wp H (.fail e : Prog Op Ans E α) Q s ↔ Q (.error e) s := wp_iff_of_run rfl

theorem wp_mono (h : wp H p Q s) (hQR : ∀ r t, Q r t → R r t) : wp H p R s := by
  obtain ⟨r, t, hr, hq⟩ := h
  exact ⟨r, t, hr, hQR r t hq⟩

/-- The postcondition of the first part of a sequence, given the one of the whole. -/
def andThen (H : (op : Op) → σ → Ans op × σ) (f : α → Prog Op Ans E β) (S : Except E β → σ → Prop) :
    Except E α → σ → Prop
  | .ok a, t => wp H (f a) S t
  | .error e, t => S (.error e) t

@[simp] theorem andThen_ok (a : α) : andThen H f S (.ok a) t ↔ wp H (f a) S t := Iff.rfl

@[simp] theorem andThen_error (e : E) : andThen H f S (.error e) t ↔ S (.error e) t := Iff.rfl

theorem wp_bind : wp H (p >>= f) S s ↔ wp H p (andThen H f S) s := by
  simp only [wp, run_bind]
  constructor
  · rintro ⟨r, t, h, hS⟩
    rcases hp : run H p s with _ | ⟨_ | a, u⟩
    · simp [hp] at h
    · simp only [hp, Option.some.injEq, Prod.mk.injEq] at h
      exact ⟨_, _, rfl, by obtain ⟨rfl, rfl⟩ := h; exact hS⟩
    · simp only [hp] at h
      exact ⟨_, _, rfl, r, t, h, hS⟩
  · rintro ⟨_ | a, u, h, hS⟩
    · exact ⟨_, _, by rw [h], hS⟩
    · obtain ⟨r, t, hr, hS⟩ := hS
      exact ⟨r, t, by rw [h]; exact hr, hS⟩

theorem wp_attempt {Q : Except E (Except E α) → σ → Prop} :
    wp H (attempt p) Q s ↔ wp H p (fun r t => Q (.ok r) t) s := by
  simp only [wp, run_attempt]
  constructor
  · rintro ⟨r, t, h, hQ⟩
    rcases hp : run H p s with _ | ⟨r', u⟩
    · simp [hp] at h
    · simp only [hp, Option.map_some, Option.some.injEq, Prod.mk.injEq] at h
      exact ⟨r', u, rfl, by obtain ⟨rfl, rfl⟩ := h; exact hQ⟩
  · rintro ⟨r, t, h, hQ⟩
    exact ⟨_, _, by rw [h]; rfl, hQ⟩

section Uses

variable {A B : Op → Prop} {P P' : α → Prop} {R : β → Prop}

/-- Whatever the answers are, the program asks only for operations in `A`, and returns only values in `P`. -/
def Uses (A : Op → Prop) (P : α → Prop) : Prog Op Ans E α → Prop
  | .ret a => P a
  | .fail _ => True
  | .hang => True
  | .ask op k => A op ∧ ∀ a, Uses A P (k a)

theorem uses_pure {a : α} (h : P a) : Uses A P (pure a : Prog Op Ans E α) := h

theorem uses_mono (h : Uses A P p) (hP : ∀ a, P a → P' a) : Uses A P' p := by
  induction p with
  | ret a => exact hP a h
  | fail e => trivial
  | hang => trivial
  | ask op k ih => exact ⟨h.1, fun a => ih a (h.2 a)⟩

theorem uses_bind (h : Uses A P p) (hf : ∀ a, P a → Uses A R (f a)) : Uses A R (p >>= f) := by
  induction p with
  | ret a => exact hf a h
  | fail e => trivial
  | hang => trivial
  | ask op k ih => exact ⟨h.1, fun a => ih a (h.2 a)⟩

theorem uses_attempt (h : Uses A P p) : Uses A (fun r => ∀ a, r = .ok a → P a) (attempt p) := by
  induction p with
  | ret a =>
    intro b hb
    cases hb
    exact h
  | fail e =>
    intro b hb
    cases hb
  | hang => trivial
  | ask op k ih => exact ⟨h.1, fun a => ih a (h.2 a)⟩

theorem uses_call {op : Op} (h : A op) : Uses A (fun _ => True) (call op : Prog Op Ans E (Ans op)) := ⟨h, fun _ => trivial⟩

theorem uses_ofExcept {x : Except E α} (h : ∀ a, x = .ok a → P a) : Uses A P (ofExcept x : Prog Op Ans E α) := by
  cases x with
  | ok a => exact h a rfl
  | error e => trivial

theorem uses_any (p : Prog Op Ans E α) : Uses (fun _ => True) (fun _ => True) p := by
  induction p with
  | ret a => trivial
  | fail e => trivial
  | hang => trivial
  | ask op k ih => exact ⟨trivial, ih⟩

theorem value_of_uses {a : α} (h : Uses A P p) (hr : run H p s = some (.ok a, t)) : P a := by
  induction p generalizing s with
  | ret b =>
    cases hr
    exact h
  | fail e => cases hr
  | hang => cases hr
  | ask op k ih => exact ih _ (h.2 _) hr

/-- A program whose operations leave the state alone leaves it alone. -/
theorem run_of_uses (hA : ∀ op s, A op → (H op s).2 = s) (h : Uses A P p) (hr : run H p s = some (r, t)) : t = s := by
  induction p with
  | ret a =>
    cases hr
    rfl
  | fail e =>
    cases hr
    rfl
  | hang => cases hr
  | ask op k ih =>
    rw [run, hA op s h.1] at hr
    exact ih _ (h.2 _) hr

end Uses

/-- The states a run may be cut off in: the one before it, and the one after each of its operations. -/
inductive Cut (H : (op : Op) → σ → Ans op × σ) : Prog Op Ans E α → σ → σ → Prop
  | here (p : Prog Op Ans E α) (s : σ) : Cut H p s s
  | step {op : Op} {k : Ans op → Prog Op Ans E α} {s t : σ} (h : Cut H (k (H op s).1) (H op s).2 t) :
      Cut H (.ask op k) s t

/-- A sequence is cut off in its first part, or after it. -/
theorem cut_bind (h : Cut H (p >>= f) s t) : Cut H p s t ∨ ∃ a u, run H p s = some (.ok a, u) ∧ Cut H (f a) u t := by
  induction p generalizing s with
  | ret a => exact .inr ⟨a, s, rfl, h⟩
  | fail e =>
    cases h
    exact .inl (.here _ _)
  | hang =>
    cases h
    exact .inl (.here _ _)
  | ask op k ih =>
    cases h with
    | here => exact .inl (.here _ _)
    | step h =>
      rcases ih _ h with h | ⟨a, u, hr, hu⟩
      · exact .inl (.step h)
      · exact .inr ⟨a, u, hr, hu⟩

theorem cut_attempt (h : Cut H (attempt p) s t) : Cut H p s t := by
  induction p generalizing s with
  | ret a =>
    cases h
    exact .here _ _
  | fail e =>
    cases h
    exact .here _ _
  | hang =>
    cases h
    exact .here _ _
  | ask op k ih =>
    cases h with
    | here => exact .here _ _
    | step h => exact .step (ih _ h)

theorem cut_of_uses {A : Op → Prop} {P : α → Prop} (hA : ∀ op s, A op → (H op s).2 = s) (h : Uses A P p)
    (hc : Cut H p s t) : t = s := by
  induction hc with
  | here => rfl
  | step _ ih => rw [ih (h.2 _), hA _ _ h.1]

theorem cut_of_run (h : run H p s = some (r, t)) : Cut H p s t := by
  induction p generalizing s with
  | ret a =>
    cases h
    exact .here _ _
  | fail e =>
    cases h
    exact .here _ _
  | hang => cases h
  | ask op k ih => exact .step (ih _ h)

end Mofs.Effect
