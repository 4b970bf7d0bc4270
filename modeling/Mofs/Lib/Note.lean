import Mofs.Lib.Effect

namespace Mofs.Effect

variable {Op : Type} {Ans : Op → Type} {L E α β σ : Type}

/-- The answers of an interface that also takes notes. -/
abbrev NoteAns (L : Type) (Ans : Op → Type) : Op ⊕ L → Type
  | .inl op => Ans op
  | .inr _ => Unit

/-- A program that leaves notes of type `L` on its way. The notes say what a step is for, which its operations alone do
not. -/
abbrev Noted (L : Type) (Op : Type) (Ans : Op → Type) (E α : Type) : Type := Prog (Op ⊕ L) (NoteAns L Ans) E α

/-- A program without notes. -/
def lift : Prog Op Ans E α → Noted L Op Ans E α
  | .ret a => .ret a
  | .fail e => .fail e
  | .hang => .hang
  | .ask op k => .ask (.inl op) (fun a => lift (k a))

def note (l : L) : Noted L Op Ans E Unit := .ask (.inr l) .ret

/-- The program that is left when the notes are dropped. -/
def erase : Noted L Op Ans E α → Prog Op Ans E α
  | .ret a => .ret a
  | .fail e => .fail e
  | .hang => .hang
  | .ask (.inl op) k => .ask op (fun a => erase (k a))
  | .ask (.inr _) k => erase (k ())

/-- The notes left in a run, also in one that does not end. -/
def notes (H : (op : Op) → σ → Ans op × σ) : Noted L Op Ans E α → σ → List L
  | .ret _, _ => []
  | .fail _, _ => []
  | .hang, _ => []
  | .ask (.inl op) k, s => notes H (k (H op s).1) (H op s).2
  | .ask (.inr l) k, s => l :: notes H (k ()) s

variable {H : (op : Op) → σ → Ans op × σ} {s t : σ} {A : L → Prop} {p : Noted L Op Ans E α}
  {f : α → Noted L Op Ans E β}

@[simp] theorem erase_pure (a : α) : erase (pure a : Noted L Op Ans E α) = pure a := rfl

@[simp] theorem erase_fail (e : E) : erase (.fail e : Noted L Op Ans E α) = .fail e := rfl

@[simp] theorem erase_lift (p : Prog Op Ans E α) : erase (lift p : Noted L Op Ans E α) = p := by
  induction p with
  | ret a => rfl
  | fail e => rfl
  | hang => rfl
  | ask op k ih => exact congrArg (Prog.ask op) (funext ih)

@[simp] theorem erase_bind (p : Noted L Op Ans E α) (f : α → Noted L Op Ans E β) :
    erase (p >>= f) = erase p >>= fun a => erase (f a) := by
  induction p with
  | ret a => rfl
  | fail e => rfl
  | hang => rfl
  | ask op k ih =>
    cases op with
    | inl op => exact congrArg (Prog.ask op) (funext ih)
    | inr l => exact ih ()

@[simp] theorem erase_attempt (p : Noted L Op Ans E α) : erase (attempt p) = attempt (erase p) := by
  induction p with
  | ret a => rfl
  | fail e => rfl
  | hang => rfl
  | ask op k ih =>
    cases op with
    | inl op => exact congrArg (Prog.ask op) (funext ih)
    | inr l => exact ih ()

theorem erase_ite (c : Prop) [Decidable c] (p q : Noted L Op Ans E α) :
    erase (if c then p else q) = if c then erase p else erase q := apply_ite erase c p q

@[simp] theorem notes_pure (a : α) : notes H (pure a : Noted L Op Ans E α) s = [] := rfl

@[simp] theorem notes_fail (e : E) : notes H (.fail e : Noted L Op Ans E α) s = [] := rfl

@[simp] theorem notes_lift (p : Prog Op Ans E α) : notes H (lift p : Noted L Op Ans E α) s = [] := by
  induction p generalizing s with
  | ret a => rfl
  | fail e => rfl
  | hang => rfl
  | ask op k ih => exact ih _

@[simp] theorem notes_note (l : L) (f : Unit → Noted L Op Ans E β) : notes H (note l >>= f) s = l :: notes H (f ()) s := rfl

theorem notes_bind (p : Noted L Op Ans E α) (f : α → Noted L Op Ans E β) (s : σ) :
    notes H (p >>= f) s = notes H p s ++ match run H (erase p) s with
      | some (.ok a, t) => notes H (f a) t
      | _ => [] := by
  induction p generalizing s with
  | ret a => rfl
  | fail e => rfl
  | hang => rfl
  | ask op k ih =>
    cases op with
    | inl op => exact ih (H op s).1 (H op s).2
    | inr l => exact congrArg (l :: ·) (ih () s)

@[simp] theorem notes_attempt (p : Noted L Op Ans E α) : notes H (attempt p) s = notes H p s := by
  induction p generalizing s with
  | ret a => rfl
  | fail e => rfl
  | hang => rfl
  | ask op k ih =>
    cases op with
    | inl op => exact ih _
    | inr l => exact congrArg (l :: ·) (ih ())

theorem mem_notes_bind {l : L} : l ∈ notes H (p >>= f) s ↔
    l ∈ notes H p s ∨ ∃ a t, run H (erase p) s = some (.ok a, t) ∧ l ∈ notes H (f a) t := by
  rw [notes_bind, List.mem_append]
  refine or_congr_right ?_
  rcases run H (erase p) s with _ | ⟨_ | a, t⟩
  · simp
  · simp
  · constructor
    · exact fun h => ⟨a, t, rfl, h⟩
    · rintro ⟨_, _, he, h⟩
      cases he
      exact h

theorem mem_notes_lift_bind {l : L} {p : Prog Op Ans E α} :
    l ∈ notes H (lift p >>= f) s ↔ ∃ a t, run H p s = some (.ok a, t) ∧ l ∈ notes H (f a) t := by
  rw [mem_notes_bind, notes_lift, erase_lift]
  simp

theorem notes_bind_of {a : α} (h : run H (erase p) s = some (.ok a, t)) :
    notes H (p >>= f) s = notes H p s ++ notes H (f a) t := by
  rw [notes_bind, h]

theorem notes_lift_bind_of {p : Prog Op Ans E α} {a : α} (h : run H p s = some (.ok a, t)) :
    notes H (lift p >>= f) s = notes H (f a) t := by
  rw [notes_bind_of (by rw [erase_lift]; exact h), notes_lift, List.nil_append]

/-- Whatever the answers are, the program leaves only notes in `A`. -/
def NotesIn (A : L → Prop) (p : Noted L Op Ans E α) : Prop := Uses (fun op => ∀ l, op = .inr l → A l) (fun _ => True) p

theorem NotesIn.pure (a : α) : NotesIn A (pure a : Noted L Op Ans E α) := trivial

theorem NotesIn.fail (e : E) : NotesIn A (.fail e : Noted L Op Ans E α) := trivial

theorem NotesIn.lift (p : Prog Op Ans E α) : NotesIn A (lift p : Noted L Op Ans E α) := by
  induction p with
  | ret a => trivial
  | fail e => trivial
  | hang => trivial
  | ask op k ih => exact ⟨fun l hl => (nomatch hl), ih⟩

theorem NotesIn.bind (hp : NotesIn A p) (hf : ∀ a, NotesIn A (f a)) : NotesIn A (p >>= f) := uses_bind hp fun a _ => hf a

theorem NotesIn.attempt (hp : NotesIn A p) : NotesIn A (attempt p) := uses_mono (uses_attempt hp) fun _ _ => trivial

theorem NotesIn.note {l : L} (h : A l) : NotesIn A (note l : Noted L Op Ans E Unit) :=
  ⟨fun l' hl => by cases hl; exact h, fun _ => trivial⟩

theorem NotesIn.ite {c : Prop} [Decidable c] {p q : Noted L Op Ans E α} (hp : c → NotesIn A p) (hq : ¬ c → NotesIn A q) :
    NotesIn A (if c then p else q) := by
  split
  next h => exact hp h
  next h => exact hq h

theorem NotesIn.notes (h : NotesIn A p) : ∀ l ∈ notes H p s, A l := by
  induction p generalizing s with
  | ret a => exact fun l hl => (nomatch hl)
  | fail e => exact fun l hl => (nomatch hl)
  | hang => exact fun l hl => (nomatch hl)
  | ask op k ih =>
    cases op with
    | inl op => exact ih _ (h.2 _)
    | inr l =>
      intro l' hl
      rcases List.mem_cons.mp hl with rfl | hl
      · exact h.1 l' rfl
      · exact ih () (h.2 ()) l' hl

end Mofs.Effect
