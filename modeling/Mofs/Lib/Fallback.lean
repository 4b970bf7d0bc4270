import Mofs.Lib.Effect

namespace Mofs.Effect

variable {Op : Type} {Ans : Op → Type} {E α β δ σ τ γ : Type}

theorem bind_bind (p : Prog Op Ans E α) (f : α → Prog Op Ans E β) (g : β → Prog Op Ans E δ) :
    (p >>= f) >>= g = p >>= fun a => f a >>= g := by
  induction p with
  | ret a => rfl
  | fail e => rfl
  | hang => rfl
  | ask op k ih => exact congrArg (Prog.ask op) (funext ih)

/-- Whatever the answers are, the program does not fail. -/
def NeverFails : Prog Op Ans E α → Prop
  | .ret _ => True
  | .fail _ => False
  | .hang => True
  | .ask _ k => ∀ a, NeverFails (k a)

theorem neverFails_attempt (p : Prog Op Ans E α) : NeverFails (attempt p) := by
  induction p with
  | ret a => trivial
  | fail e => trivial
  | hang => trivial
  | ask op k ih => exact ih

theorem attempt_bind {p : Prog Op Ans E α} (h : NeverFails p) (f : α → Prog Op Ans E β) :
    attempt (p >>= f) = p >>= fun a => attempt (f a) := by
  induction p with
  | ret a => rfl
  | fail e => exact h.elim
  | hang => rfl
  | ask op k ih => exact congrArg (Prog.ask op) (funext fun a => ih a (h a))

/-- The operations a program asks for in a run, in their order. -/
def asked (H : (op : Op) → σ → Ans op × σ) : Prog Op Ans E α → σ → List Op
  | .ret _, _ => []
  | .fail _, _ => []
  | .hang, _ => []
  | .ask op k, s => op :: asked H (k (H op s).1) (H op s).2

section Asked

variable {H : (op : Op) → σ → Ans op × σ} {s t : σ} {p : Prog Op Ans E α} {f : α → Prog Op Ans E β}

theorem asked_bind_ok {a : α} (h : run H p s = some (.ok a, t)) :
    asked H (p >>= f) s = asked H p s ++ asked H (f a) t := by
  induction p generalizing s with
  | ret b =>
    cases h
    rfl
  | fail e => cases h
  | hang => cases h
  | ask op k ih => exact congrArg (List.cons op) (ih _ h)

theorem asked_bind (p : Prog Op Ans E α) (f : α → Prog Op Ans E β) (s : σ) :
    ∃ ops, asked H (p >>= f) s = asked H p s ++ ops := by
  induction p generalizing s with
  | ret a => exact ⟨_, rfl⟩
  | fail e => exact ⟨[], rfl⟩
  | hang => exact ⟨[], rfl⟩
  | ask op k ih =>
    obtain ⟨ops, hops⟩ := ih (H op s).1 (H op s).2
    exact ⟨ops, congrArg (List.cons op) hops⟩

theorem asked_attempt (p : Prog Op Ans E α) (s : σ) : asked H (attempt p) s = asked H p s := by
  induction p generalizing s with
  | ret a => rfl
  | fail e => rfl
  | hang => rfl
  | ask op k ih => exact congrArg (List.cons op) (ih _ _)

end Asked

/-- Operations that an interpreter may refuse, the answer that refuses one, and a program that does the same. -/
structure Alternative (Op : Type) (Ans : Op → Type) (E : Type) where
  optional : Op → Prop
  refusal : (op : Op) → Ans op
  instead : (op : Op) → Prog Op Ans E (Ans op)
  neverFails : ∀ op, NeverFails (instead op)

variable {F : Alternative Op Ans E}

/-- Wherever the program is refused an optional operation, it runs the alternative and goes on with the answer of that. -/
inductive FallsBack (F : Alternative Op Ans E) : Prog Op Ans E α → Prop
  | ret (a : α) : FallsBack F (.ret a)
  | fail (e : E) : FallsBack F (.fail e)
  | hang : FallsBack F .hang
  | ask {op : Op} {k : Ans op → Prog Op Ans E α} (hop : ¬ F.optional op) (hk : ∀ a, FallsBack F (k a)) :
      FallsBack F (.ask op k)
  | instead {op : Op} {k : Ans op → Prog Op Ans E α} (k' : Ans op → Prog Op Ans E α) (hop : F.optional op)
      (hk : ∀ a, FallsBack F (k' a)) (hyes : ∀ a, a ≠ F.refusal op → k a = k' a)
      (hno : k (F.refusal op) = F.instead op >>= k') : FallsBack F (.ask op k)

namespace FallsBack

variable {p : Prog Op Ans E α} {f : α → Prog Op Ans E β}

theorem pure (a : α) : FallsBack F (pure a : Prog Op Ans E α) := .ret a

theorem ofExcept (x : Except E α) : FallsBack F (ofExcept x : Prog Op Ans E α) := by
  cases x with
  | ok a => exact .ret a
  | error e => exact .fail e

theorem bind (h : FallsBack F p) (hf : ∀ a, FallsBack F (f a)) : FallsBack F (p >>= f) := by
  induction h with
  | ret a => exact hf a
  | fail e => exact .fail e
  | hang => exact .hang
  | ask hop _ ih => exact .ask hop ih
  | instead k' hop _ hyes hno ih =>
    refine .instead (fun a => k' a >>= f) hop ih (fun a ha => ?_) ?_
    · rw [← hyes a ha]
      rfl
    · rw [← bind_bind, ← hno]
      rfl

theorem attempt (h : FallsBack F p) : FallsBack F (attempt p) := by
  induction h with
  | ret a => exact .ret _
  | fail e => exact .ret _
  | hang => exact .hang
  | ask hop _ ih => exact .ask hop ih
  | instead k' hop _ hyes hno ih =>
    refine .instead (fun a => Effect.attempt (k' a)) hop ih (fun a ha => ?_) ?_
    · rw [hyes a ha]
    · rw [← attempt_bind (F.neverFails _), hno]

theorem ite {c : Prop} [Decidable c] {q : Prog Op Ans E α} (h : FallsBack F p) (h' : FallsBack F q) :
    FallsBack F (if c then p else q) := by
  split
  · exact h
  · exact h'

theorem onlyIf {c : Prop} [Decidable c] {p : Prog Op Ans E Unit} (h : FallsBack F p) : FallsBack F (onlyIf c p) :=
  h.ite (.ret ())

end FallsBack

/-- The operations are all allowed one after the other, where `after` is what is known of the state after one of them. -/
def Follows (allowed : γ → Op → Prop) (after : γ → Op → γ) : γ → List Op → Prop
  | _, [] => True
  | g, op :: ops => allowed g op ∧ Follows allowed after (after g op) ops

instance decidableFollows (allowed : γ → Op → Prop) (after : γ → Op → γ) [∀ g op, Decidable (allowed g op)] :
    (g : γ) → (ops : List Op) → Decidable (Follows allowed after g ops)
  | _, [] => .isTrue trivial
  | g, op :: ops => @instDecidableAnd _ _ _ (decidableFollows allowed after (after g op) ops)

variable {allowed : γ → Op → Prop} {after : γ → Op → γ}

theorem follows_append {g : γ} {ops ops' : List Op} :
    Follows allowed after g (ops ++ ops') ↔ Follows allowed after g ops ∧ Follows allowed after (ops.foldl after g) ops' := by
  induction ops generalizing g with
  | nil => exact (and_iff_right trivial).symm
  | cons op ops ih => exact (and_congr_right' ih).trans and_assoc.symm

/-- An interpreter `H` that refuses the optional operations, and one `H'` that does them: related states stay related as
long as the operations are allowed, and what `H'` does for an optional operation is what `H` does for its alternative. -/
structure Matches (F : Alternative Op Ans E) (H : (op : Op) → σ → Ans op × σ) (H' : (op : Op) → τ → Ans op × τ)
    (allowed : γ → Op → Prop) (after : γ → Op → γ) (rel : γ → σ → τ → Prop) : Prop where
  step : ∀ {g s t op}, ¬ F.optional op → rel g s t → allowed g op →
    (H' op t).1 = (H op s).1 ∧ rel (after g op) (H op s).2 (H' op t).2
  refuses : ∀ {op s}, F.optional op → H op s = (F.refusal op, s)
  instead : ∀ {g s t op}, F.optional op → rel g s t → allowed g op →
    Follows allowed after (after g op) (asked H (F.instead op) s) →
    (H' op t).1 ≠ F.refusal op ∧ ∃ u, run H (F.instead op) s = some (.ok (H' op t).1, u) ∧
      rel ((asked H (F.instead op) s).foldl after (after g op)) u (H' op t).2

/-- Where a program that falls back ends under the first interpreter, it ends in a related state under the other. -/
theorem FallsBack.run_related {p : Prog Op Ans E α} {H : (op : Op) → σ → Ans op × σ} {H' : (op : Op) → τ → Ans op × τ}
    {rel : γ → σ → τ → Prop} {g : γ} {s u : σ} {t : τ} {r : Except E α} (h : FallsBack F p)
    (hm : Matches F H H' allowed after rel) (hrel : rel g s t) (hops : Follows allowed after g (asked H p s))
    (hrun : run H p s = some (r, u)) : ∃ v, run H' p t = some (r, v) ∧ rel ((asked H p s).foldl after g) u v := by
  induction h generalizing g s t with
  | ret a =>
    cases hrun
    exact ⟨t, rfl, hrel⟩
  | fail e =>
    cases hrun
    exact ⟨t, rfl, hrel⟩
  | hang => cases hrun
  | @ask op k hop _ ih =>
    obtain ⟨hans, hrel'⟩ := hm.step hop hrel hops.1
    rw [run] at hrun
    rw [run, hans]
    exact ih _ hrel' hops.2 hrun
  | @instead op k k' hop _ hyes hno ih =>
    have hrefused := hm.refuses (s := s) hop
    rw [run, hrefused, hno] at hrun
    rw [asked, hrefused, hno] at hops ⊢
    obtain ⟨rest, happend⟩ := asked_bind (H := H) (F.instead op) k' s
    obtain ⟨hallowed, hboth⟩ := hops
    rw [happend, follows_append] at hboth
    obtain ⟨hne, v, hrun', hrel'⟩ := hm.instead hop hrel hallowed hboth.1
    rw [asked_bind_ok hrun'] at happend ⊢
    obtain rfl := List.append_cancel_left happend
    rw [run_bind_ok hrun'] at hrun
    rw [run, hyes _ hne, List.foldl_cons, List.foldl_append]
    exact ih _ hrel' hboth.2 hrun

end Mofs.Effect
