import Mofs.Lib.Slots

namespace Mofs.Slots

variable {κ ν : Type} [DecidableEq κ] {t t' t₁ : List (Option (κ × ν))} {e : κ × ν} {a a' j k : Nat}

/-- A key stands in one slot only. -/
theorem Distinct.slot_unique (hd : Distinct t) {x : κ} {v w : ν} (hj : t[j]? = some (some (x, v)))
    (hk : t[k]? = some (some (x, w))) : j = k := by
  by_contra hne
  have hnone : lookup (t.set j none) x = none := by rw [hd.lookup_clear hj, if_pos rfl]
  refine lookup_eq_none.mp hnone w (List.mem_of_getElem? (i := k) ?_)
  rw [List.getElem?_set_ne hne]
  exact hk

/-- A change that keeps the slots of a table where they are: an entry goes, or a new key takes a vacant slot. -/
inductive Edited (t : List (Option (κ × ν))) : List (Option (κ × ν)) → Prop
  | same : Edited t t
  | clear {k : Nat} {e : κ × ν} (hk : t[k]? = some (some e)) : Edited t (t.set k none)
  | put {k : Nat} {x : κ} {v : ν} (hk : t[k]? = some none) (hnew : lookup t x = none) : Edited t (t.set k (some (x, v)))

namespace Edited

theorem length (h : Edited t t') : t'.length = t.length := by
  cases h with
  | same => rfl
  | clear => exact List.length_set
  | put => exact List.length_set

theorem distinct (h : Edited t t') (hd : Distinct t) : Distinct t' := by
  cases h with
  | same => exact hd
  | clear hk => exact hd.clear hk
  | put hk hnew => exact hd.put hnew hk

/-- An entry that is there before and after has not moved. -/
theorem slot_eq (h : Edited t t') (hd : Distinct t) (hj : t[j]? = some (some e)) (hmem : some e ∈ t') :
    t'[j]? = some (some e) := by
  cases h with
  | same => exact hj
  | @clear k e' hk =>
    by_cases hkj : k = j
    · -- the entry of this slot went, and there is no other
      subst hkj
      obtain rfl : e' = e := by simpa [hk] using hj
      have hnone : lookup (t.set k none) e'.1 = none := by rw [hd.lookup_clear hk, if_pos rfl]
      exact absurd hmem (lookup_eq_none.mp hnone e'.2)
    · rw [List.getElem?_set_ne hkj]
      exact hj
  | @put k x v hk hnew =>
    have hkj : k ≠ j := by
      rintro rfl
      rw [hk] at hj
      cases hj
    rw [List.getElem?_set_ne hkj]
    exact hj

end Edited

/-- A pass over a table with a cursor that starts at `a` and ends at `a'`. A step delivers the first entry from the cursor
on, and moves the cursor behind it; between the steps the table may change. `seen` are the tables of the pass, `out` is
what it delivers, each with its slot. -/
inductive Pass : List (Option (κ × ν)) → Nat → (seen : List (List (Option (κ × ν)))) → (out : List (Nat × κ × ν)) →
    List (Option (κ × ν)) → Nat → Prop
  | done (t : List (Option (κ × ν))) (a : Nat) : Pass t a [t] [] t a
  | edit {t t₁ t' : List (Option (κ × ν))} {a a' : Nat} {seen : List (List (Option (κ × ν)))} {out : List (Nat × κ × ν)}
      (hE : Edited t t₁) (rest : Pass t₁ a seen out t' a') : Pass t a (t :: seen) out t' a'
  | next {t t' : List (Option (κ × ν))} {a a' j : Nat} {e : κ × ν} {seen : List (List (Option (κ × ν)))}
      {out : List (Nat × κ × ν)} (hle : a ≤ j) (hj : t[j]? = some (some e)) (hskip : ∀ k, a ≤ k → k < j → t[k]? = some none)
      (rest : Pass t (j + 1) seen out t' a') : Pass t a (t :: seen) ((j, e) :: out) t' a'

namespace Pass

variable {seen : List (List (Option (κ × ν)))} {out : List (Nat × κ × ν)}

theorem mem_seen (h : Pass t a seen out t' a') : t ∈ seen := by
  cases h <;> simp

theorem distinct (h : Pass t a seen out t' a') (hd : Distinct t) : Distinct t' := by
  induction h with
  | done => exact hd
  | edit hE _ ih => exact ih (hE.distinct hd)
  | next _ _ _ _ ih => exact ih hd

/-- The cursor moves at least one slot with every entry. -/
theorem cursor_le (h : Pass t a seen out t' a') : a + out.length ≤ a' := by
  induction h with
  | done => exact Nat.le_refl _
  | edit _ _ ih => exact ih
  | next _ _ _ _ ih =>
    rw [List.length_cons]
    omega

theorem cursor_le_length (h : Pass t a seen out t' a') (ha : a ≤ t.length) : t'.length = t.length ∧ a' ≤ t.length := by
  induction h with
  | done => exact ⟨rfl, ha⟩
  | edit hE _ ih =>
    have hlen := hE.length
    obtain ⟨h1, h2⟩ := ih (by omega)
    exact ⟨h1.trans hlen, by omega⟩
  | next _ hj _ _ ih =>
    have hlt := (List.getElem?_eq_some_iff.mp hj).1
    exact ih hlt

/-- The slots delivered lie behind the first cursor, in order. -/
theorem slots (h : Pass t a seen out t' a') : (∀ p ∈ out, a ≤ p.1) ∧ (out.map Prod.fst).Pairwise (· < ·) := by
  induction h with
  | done => simp
  | edit _ _ ih => exact ih
  | @next t t' a a' j e seen out hle hj hskip _ ih =>
    obtain ⟨hge, hsorted⟩ := ih
    refine ⟨fun p hp => ?_, ?_⟩
    · rcases List.mem_cons.mp hp with rfl | hp
      · exact hle
      · have := hge p hp
        omega
    · refine List.pairwise_cons.mpr ⟨fun k hk => ?_, hsorted⟩
      obtain ⟨p, hp, rfl⟩ := List.mem_map.mp hk
      exact hge p hp

/-- An entry that is in all tables of the pass stays in its slot, and is delivered once when the cursor goes over it. -/
theorem count (h : Pass t a seen out t' a') [BEq (κ × ν)] [LawfulBEq (κ × ν)] (hd : Distinct t) (hk : t[k]? = some (some e))
    (hall : ∀ s ∈ seen, some e ∈ s) :
    t'[k]? = some (some e) ∧ (out.map Prod.snd).count e = if a ≤ k ∧ k < a' then 1 else 0 := by
  induction h with
  | done => exact ⟨hk, by rw [if_neg (by omega)]; rfl⟩
  | edit hE rest ih =>
    have hk₁ := hE.slot_eq hd hk (hall _ (List.mem_cons_of_mem _ rest.mem_seen))
    exact ih (hE.distinct hd) hk₁ fun s hs => hall s (List.mem_cons_of_mem _ hs)
  | @next t t' a a' j e' seen out hle hj hskip rest ih =>
    obtain ⟨hend, hcount⟩ := ih hd hk fun s hs => hall s (List.mem_cons_of_mem _ hs)
    refine ⟨hend, ?_⟩
    have hle' := rest.cursor_le
    rw [List.map_cons]
    by_cases hjk : j = k
    · subst hjk
      obtain rfl : e' = e := by simpa [hj] using hk
      rw [List.count_cons_self, hcount, if_neg (by omega), if_pos (by omega)]
    · have hne : e' ≠ e := fun he => hjk (hd.slot_unique (he ▸ hj) hk)
      -- slots that the cursor skips are vacant
      have hskipped : ¬ (a ≤ k ∧ k < j) := fun hlt => by
        rw [hskip k hlt.1 hlt.2] at hk
        cases hk
      rw [List.count_cons_of_ne hne, hcount]
      refine if_congr ?_ rfl rfl
      omega

end Pass

end Mofs.Slots
