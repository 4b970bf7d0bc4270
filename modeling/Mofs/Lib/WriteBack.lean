import Mathlib.Logic.Function.Basic

namespace Mofs.WriteBack

variable {ι κ β : Type}

/-- What a slot of a write-back cache holds: the content of the item `key`, ahead of the device if `dirty`. -/
structure Line (κ β : Type) where
  key : κ
  data : β
  dirty : Bool

/-- The slots `hold` cache the items of `region` of a store whose content is `logical` and whose device holds `dev`. -/
structure Coherent (region : κ → Prop) (hold : ι → Option (Line κ β)) (dev logical : κ → β) : Prop where
  inside : ∀ i l, hold i = some l → region l.key
  unique : ∀ i j l l', hold i = some l → hold j = some l' → l.key = l'.key → i = j
  data : ∀ i l, hold i = some l → l.data = logical l.key
  clean : ∀ i l, hold i = some l → l.dirty = false → dev l.key = logical l.key
  absent : ∀ b, region b → (∀ i l, hold i = some l → l.key ≠ b) → dev b = logical b

variable {region : κ → Prop} {hold : ι → Option (Line κ β)} {dev dev' logical logical' : κ → β} {i : ι} {l : Line κ β}
  {b : κ}

theorem Coherent.empty (dev : κ → β) (h : ∀ i, hold i = none) : Coherent region hold dev dev := by
  constructor
  all_goals simp [h]

/-- Only the items of the region matter. -/
theorem Coherent.congr (h : Coherent region hold dev logical) (hdev : ∀ b, region b → dev' b = dev b)
    (hlog : ∀ b, region b → logical' b = logical b) : Coherent region hold dev' logical' where
  inside := h.inside
  unique := h.unique
  data i l hl := by rw [hlog _ (h.inside i l hl)]; exact h.data i l hl
  clean i l hl hc := by rw [hdev _ (h.inside i l hl), hlog _ (h.inside i l hl)]; exact h.clean i l hl hc
  absent b hb hno := by rw [hdev b hb, hlog b hb]; exact h.absent b hb hno

/-- When no slot is ahead of the device, the device holds the content of the store. -/
theorem Coherent.written (h : Coherent region hold dev logical) (hc : ∀ i l, hold i = some l → l.dirty = false)
    (hb : region b) : dev b = logical b := by
  by_cases hheld : ∃ i l, hold i = some l ∧ l.key = b
  · obtain ⟨i, l, hl, rfl⟩ := hheld
    exact h.clean i l hl (hc i l hl)
  · exact h.absent b hb fun i l hl hk => hheld ⟨i, l, hl, hk⟩

variable [DecidableEq ι]

theorem update_eq_some {o : Option (Line κ β)} {j : ι} {l : Line κ β} (h : Function.update hold i o j = some l) :
    (j = i ∧ o = some l) ∨ (j ≠ i ∧ hold j = some l) := by
  by_cases hj : j = i
  · subst hj
    exact .inl ⟨rfl, by rwa [Function.update_self] at h⟩
  · exact .inr ⟨hj, by rwa [Function.update_of_ne hj] at h⟩

namespace Coherent

/-- Slot `i` is given the content `o`, while at most the item it held and the item it holds now change. -/
theorem replace (h : Coherent region hold dev logical) {o : Option (Line κ β)}
    (hnew : ∀ l, o = some l → region l.key ∧ l.data = logical' l.key ∧ (l.dirty = false → dev' l.key = logical' l.key) ∧
      ∀ j l', hold j = some l' → l'.key = l.key → j = i)
    (hgone : ∀ l, hold i = some l → (∀ l', o = some l' → l'.key ≠ l.key) → dev' l.key = logical' l.key)
    (hrest : ∀ b, (∀ l, hold i = some l → l.key ≠ b) → (∀ l, o = some l → l.key ≠ b) →
      dev' b = dev b ∧ logical' b = logical b) :
    Coherent region (Function.update hold i o) dev' logical' := by
  -- an item in another slot is neither the old nor the new one
  have hkeep {j : ι} {l : Line κ β} (hji : j ≠ i) (hl : hold j = some l) :
      dev' l.key = dev l.key ∧ logical' l.key = logical l.key :=
    hrest l.key (fun l' hl' hk => hji (h.unique j i l l' hl hl' hk.symm))
      fun l' hl' hk => hji ((hnew l' hl').2.2.2 j l hl hk.symm)
  refine ⟨fun j l hj => ?_, fun j k l l' hj hk he => ?_, fun j l hj => ?_, fun j l hj hc => ?_, fun b hb hno => ?_⟩
  · rcases update_eq_some hj with ⟨-, ho⟩ | ⟨-, hj⟩
    · exact (hnew l ho).1
    · exact h.inside j l hj
  · rcases update_eq_some hj with ⟨hji, ho⟩ | ⟨-, hj'⟩ <;> rcases update_eq_some hk with ⟨hki, ho'⟩ | ⟨-, hk'⟩
    · rw [hji, hki]
    · rw [hji, (hnew l ho).2.2.2 k l' hk' he.symm]
    · rw [hki, (hnew l' ho').2.2.2 j l hj' he]
    · exact h.unique j k l l' hj' hk' he
  · rcases update_eq_some hj with ⟨-, ho⟩ | ⟨hji, hj⟩
    · exact (hnew l ho).2.1
    · rw [(hkeep hji hj).2]
      exact h.data j l hj
  · rcases update_eq_some hj with ⟨-, ho⟩ | ⟨hji, hj⟩
    · exact (hnew l ho).2.2.1 hc
    · rw [(hkeep hji hj).1, (hkeep hji hj).2]
      exact h.clean j l hj hc
  · have ho : ∀ l, o = some l → l.key ≠ b := fun l hl => hno i l (by rw [Function.update_self, hl])
    by_cases hheld : ∃ l, hold i = some l ∧ l.key = b
    · obtain ⟨l, hl, rfl⟩ := hheld
      exact hgone l hl ho
    · have hi : ∀ l, hold i = some l → l.key ≠ b := fun l hl hk => hheld ⟨l, hl, hk⟩
      rw [(hrest b hi ho).1, (hrest b hi ho).2]
      refine h.absent b hb fun j l hj => ?_
      by_cases hji : j = i
      · subst hji
        exact hi l hj
      · exact hno j l (by rwa [Function.update_of_ne hji])

/-- A slot that is not ahead of the device may be given up. -/
theorem evict (h : Coherent region hold dev logical) (hc : ∀ l, hold i = some l → l.dirty = false) :
    Coherent region (Function.update hold i none) dev logical := by
  refine h.replace (fun l hl => ?_) (fun l hl _ => h.clean i l hl (hc l hl)) fun b _ _ => ⟨rfl, rfl⟩
  cases hl

variable [DecidableEq κ]

/-- A slot may be given up unwritten, if the device content is to count from now on. -/
theorem drop (h : Coherent region hold dev logical) (hl : hold i = some l) :
    Coherent region (Function.update hold i none) dev (Function.update logical l.key (dev l.key)) := by
  refine h.replace (fun l' hl' => ?_) (fun l' hl' _ => ?_) fun b hb _ => ⟨rfl, ?_⟩
  · cases hl'
  · rw [hl] at hl'
    cases hl'
    rw [Function.update_self]
  · exact Function.update_of_ne (hb l hl).symm _ _

/-- A slot is written back. -/
theorem writeBack (h : Coherent region hold dev logical) (hl : hold i = some l) :
    Coherent region (Function.update hold i (some { l with dirty := false })) (Function.update dev l.key l.data) logical := by
  refine h.replace (fun l' hl' => ?_) (fun l' hl' hne => ?_) fun b hb _ => ⟨?_, rfl⟩
  · cases hl'
    refine ⟨h.inside i l hl, h.data i l hl, fun _ => ?_, fun j l' hj hk => h.unique j i l' l hj hl hk⟩
    rw [Function.update_self]
    exact h.data i l hl
  · rw [hl] at hl'
    cases hl'
    exact absurd rfl (hne { l with dirty := false } rfl)
  · exact Function.update_of_ne (hb l hl).symm _ _

/-- Slot `i` takes the item `b`, which no other slot holds and which now counts as `x`; unless it is dirty, `x` is on the
device. -/
theorem put (h : Coherent region hold dev logical) (hb : region b) {x : β} {dirty : Bool}
    (hi : ∀ l, hold i = some l → l.key = b) (hother : ∀ j l, hold j = some l → l.key = b → j = i)
    (hx : dirty = false → dev b = x) :
    Coherent region (Function.update hold i (some ⟨b, x, dirty⟩)) dev (Function.update logical b x) := by
  refine h.replace (fun l hl => ?_) (fun l hl hne => ?_) fun c _ hc => ⟨rfl, ?_⟩
  · cases hl
    refine ⟨hb, ?_, fun hd => ?_, hother⟩
    · rw [Function.update_self]
    · rw [Function.update_self]
      exact hx hd
  · exact absurd (hi l hl).symm (hne _ rfl)
  · exact Function.update_of_ne (hc _ rfl).symm _ _

omit [DecidableEq ι] in
/-- The item of a dirty slot is safe, whatever happens to it on the device. -/
theorem spoil (h : Coherent region hold dev logical) (hl : hold i = some l) (hd : l.dirty = true) (x : β) :
    Coherent region hold (Function.update dev l.key x) logical := by
  refine ⟨h.inside, h.unique, h.data, fun j l' hj hc => ?_, fun b hb hno => ?_⟩
  · have hk : l'.key ≠ l.key := fun hk => by
      obtain rfl := h.unique j i l' l hj hl hk
      rw [hl] at hj
      cases hj
      rw [hd] at hc
      cases hc
    rw [Function.update_of_ne hk]
    exact h.clean j l' hj hc
  · rw [Function.update_of_ne (hno i l hl).symm]
    exact h.absent b hb hno

end Coherent

end Mofs.WriteBack
