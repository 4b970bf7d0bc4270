import Mofs.Lib.Effect

namespace Mofs.Effect

variable {Op : Type} {Ans : Op → Type} {E α β σ : Type} {H : (op : Op) → σ → Ans op × σ} {Fails : (op : Op) → Ans op → Prop}
  {p : Prog Op Ans E α} {f : α → Prog Op Ans E β} {s t u : σ}

/-- The runs in which one operation fails. That one is answered with a failure and has no effect; the interpreter answers
all the others. -/
inductive Faulted (H : (op : Op) → σ → Ans op × σ) (Fails : (op : Op) → Ans op → Prop) :
    Prog Op Ans E α → σ → Except E α → σ → Prop
  | here {op : Op} {k : Ans op → Prog Op Ans E α} {s t : σ} {r : Except E α} {a : Ans op} (ha : Fails op a)
      (h : run H (k a) s = some (r, t)) : Faulted H Fails (.ask op k) s r t
  | later {op : Op} {k : Ans op → Prog Op Ans E α} {s t : σ} {r : Except E α}
      (h : Faulted H Fails (k (H op s).1) (H op s).2 r t) : Faulted H Fails (.ask op k) s r t

theorem not_faulted_pure {a : α} {r : Except E α} : ¬ Faulted H Fails (pure a : Prog Op Ans E α) s r t := nofun

theorem not_faulted_fail {e : E} {r : Except E α} : ¬ Faulted H Fails (.fail e : Prog Op Ans E α) s r t := nofun

theorem not_faulted_ofExcept {x r : Except E α} : ¬ Faulted H Fails (ofExcept x : Prog Op Ans E α) s r t := by
  cases x <;> nofun

theorem Faulted.mono {Fails' : (op : Op) → Ans op → Prop} {r : Except E α} (h : Faulted H Fails p s r t)
    (hF : ∀ op a, Fails op a → Fails' op a) : Faulted H Fails' p s r t := by
  induction h with
  | here ha hr => exact .here (hF _ _ ha) hr
  | later _ ih => exact .later ih

theorem faulted_call {op : Op} {r : Except E (Ans op)} (h : Faulted H Fails (call op : Prog Op Ans E (Ans op)) s r t) :
    ∃ a, Fails op a ∧ r = .ok a ∧ t = s := by
  cases h with
  | here ha h =>
    cases h
    exact ⟨_, ha, rfl, rfl⟩
  | later h => nomatch h

/-- The failure happens in the first part of a sequence, which then fails or goes on, or after it. -/
theorem faulted_bind {r : Except E β} (h : Faulted H Fails (p >>= f) s r t) :
    (∃ e, r = .error e ∧ Faulted H Fails p s (.error e) t) ∨
    (∃ a u, Faulted H Fails p s (.ok a) u ∧ run H (f a) u = some (r, t)) ∨
    ∃ a u, run H p s = some (.ok a, u) ∧ Faulted H Fails (f a) u r t := by
  induction p generalizing s with
  | ret a => exact .inr (.inr ⟨a, s, rfl, h⟩)
  | fail e => nomatch h
  | hang => nomatch h
  | ask op k ih =>
    cases h with
    | here ha h =>
      rename_i b
      rw [show run H (Effect.bind (k b) f) s = _ from run_bind (k b) f s] at h
      rcases hk : run H (k b) s with _ | ⟨e | a, u⟩
      · simp [hk] at h
      · simp only [hk, Option.some.injEq, Prod.mk.injEq] at h
        obtain ⟨rfl, rfl⟩ := h
        exact .inl ⟨e, rfl, .here ha hk⟩
      · simp only [hk] at h
        exact .inr (.inl ⟨a, u, .here ha hk, h⟩)
    | later h =>
      rcases ih _ h with ⟨e, hr, hp⟩ | ⟨a, u, hp, hf⟩ | ⟨a, u, hp, hf⟩
      · exact .inl ⟨e, hr, .later hp⟩
      · exact .inr (.inl ⟨a, u, .later hp, hf⟩)
      · exact .inr (.inr ⟨a, u, hp, hf⟩)

/-- When only the first part of a sequence has operations, its error is that of the sequence. -/
theorem eq_error_of_faulted_bind {r : Except E β} {e : E} (hp : ∀ r u, Faulted H Fails p s r u → r = .error e)
    (hf : ∀ a u r t, ¬ Faulted H Fails (f a) u r t) (h : Faulted H Fails (p >>= f) s r t) : r = .error e := by
  rcases faulted_bind h with ⟨e', rfl, hp'⟩ | ⟨a, u, hp', -⟩ | ⟨a, u, -, hf'⟩
  · exact congrArg Except.error (Except.error.inj (hp _ _ hp'))
  · cases hp _ _ hp'
  · exact absurd hf' (hf a u r t)

theorem Faulted.bind_ok {a : α} {r : Except E β} (hp : Faulted H Fails p s (.ok a) u) (hf : run H (f a) u = some (r, t)) :
    Faulted H Fails (p >>= f) s r t := by
  induction p generalizing s with
  | ret a => nomatch hp
  | fail e => nomatch hp
  | hang => nomatch hp
  | ask op k ih =>
    cases hp with
    | here ha h => exact .here ha ((run_bind_ok h).trans hf)
    | later h => exact .later (ih _ h)

theorem Faulted.bind_error {e : E} (hp : Faulted H Fails p s (.error e) t) : Faulted H Fails (p >>= f) s (.error e) t := by
  induction p generalizing s with
  | ret a => nomatch hp
  | fail e => nomatch hp
  | hang => nomatch hp
  | ask op k ih =>
    cases hp with
    | here ha h => exact .here ha (run_bind_error h)
    | later h => exact .later (ih _ h)

/-- A failure can be put behind any part of the program that runs without one. -/
theorem Faulted.bind_later {a : α} {r : Except E β} (hp : run H p s = some (.ok a, u)) (hf : Faulted H Fails (f a) u r t) :
    Faulted H Fails (p >>= f) s r t := by
  induction p generalizing s with
  | ret b =>
    cases hp
    exact hf
  | fail e => nomatch hp
  | hang => nomatch hp
  | ask op k ih => exact .later (ih _ hp)

theorem faulted_attempt {r : Except E (Except E α)} (h : Faulted H Fails (attempt p) s r t) :
    ∃ r', r = .ok r' ∧ Faulted H Fails p s r' t := by
  induction p generalizing s with
  | ret a => nomatch h
  | fail e => nomatch h
  | hang => nomatch h
  | ask op k ih =>
    cases h with
    | here ha h =>
      rename_i b
      rw [run_attempt] at h
      rcases hk : run H (k b) s with _ | ⟨r', u⟩
      · simp [hk] at h
      · simp only [hk, Option.map_some, Option.some.injEq, Prod.mk.injEq] at h
        obtain ⟨rfl, rfl⟩ := h
        exact ⟨r', rfl, .here ha hk⟩
    | later h =>
      obtain ⟨r', hr, hp⟩ := ih _ h
      exact ⟨r', hr, .later hp⟩

theorem Faulted.attempt {r : Except E α} (h : Faulted H Fails p s r t) : Faulted H Fails (attempt p) s (.ok r) t := by
  induction p generalizing s with
  | ret a => nomatch h
  | fail e => nomatch h
  | hang => nomatch h
  | ask op k ih =>
    cases h with
    | here ha h => exact .here ha (run_attempt_of h)
    | later h => exact .later (ih _ h)

theorem faulted_of_uses {A : Op → Prop} {P : α → Prop} {r : Except E α} (hA : ∀ op s, A op → (H op s).2 = s) (h : Uses A P p)
    (hf : Faulted H Fails p s r t) : t = s := by
  induction hf with
  | here ha hr => exact run_of_uses hA (h.2 _) hr
  | later _ ih => rw [ih (h.2 _), hA _ _ h.1]

/-- A failing operation makes the program fail. -/
def Surfaces (H : (op : Op) → σ → Ans op × σ) (Fails : (op : Op) → Ans op → Prop) (p : Prog Op Ans E α) : Prop :=
  ∀ s r t, Faulted H Fails p s r t → ∃ e, r = .error e

theorem Surfaces.pure (a : α) : Surfaces H Fails (pure a : Prog Op Ans E α) := fun _ _ _ h => absurd h not_faulted_pure

theorem Surfaces.fail (e : E) : Surfaces H Fails (.fail e : Prog Op Ans E α) := fun _ _ _ h => absurd h not_faulted_fail

theorem Surfaces.bind (hp : Surfaces H Fails p) (hf : ∀ a, Surfaces H Fails (f a)) : Surfaces H Fails (p >>= f) := by
  intro s r t h
  rcases faulted_bind h with ⟨e, rfl, -⟩ | ⟨a, u, hp', -⟩ | ⟨a, u, -, hf'⟩
  · exact ⟨e, rfl⟩
  · obtain ⟨e, he⟩ := hp _ _ _ hp'
    cases he
  · exact hf a _ _ _ hf'

end Mofs.Effect
