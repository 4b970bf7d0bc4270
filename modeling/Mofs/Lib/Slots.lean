import Mathlib.Data.List.GetD
import Mathlib.Data.List.Nodup
import Mathlib.Data.List.ReduceOption

namespace Mofs.Slots

section

variable {p q : Nat → Bool} {a c n : Nat}

/-- The first of the numbers `a, …, a + n - 1` with property `p`. -/
def firstIn (p : Nat → Bool) (a n : Nat) : Option Nat := (List.range' a n).find? p

@[simp] theorem firstIn_zero (p : Nat → Bool) (a : Nat) : firstIn p a 0 = none := rfl

theorem firstIn_succ (p : Nat → Bool) (a n : Nat) : firstIn p a (n + 1) = if p a then some a else firstIn p (a + 1) n := by
  rw [firstIn, List.range'_succ, List.find?_cons]
  cases p a <;> rfl

theorem firstIn_add (p : Nat → Bool) (a c n : Nat) :
    firstIn p a (c + n) = (firstIn p a c).or (firstIn p (a + c) n) := by
  rw [firstIn, ← List.range'_append_1, List.find?_append, firstIn, firstIn]

theorem firstIn_shift (p : Nat → Bool) (a n : Nat) :
    firstIn p a n = ((List.range n).find? (fun j => p (a + j))).map (a + ·) := by
  rw [firstIn, List.range'_eq_map_range, List.find?_map]
  rfl

/-- A search through blocks of `c` numbers, one block at a time. -/
theorem firstIn_block (p : Nat → Bool) (b c n : Nat) :
    firstIn p (b * c) (n - b * c) =
      (firstIn p (b * c) (min c (n - b * c))).or (firstIn p ((b + 1) * c) (n - (b + 1) * c)) := by
  rw [Nat.add_mul, Nat.one_mul]
  by_cases h : c ≤ n - b * c
  · rw [Nat.min_eq_left h, ← firstIn_add]
    congr 1
    omega
  · rw [Nat.min_eq_right (by omega), show n - (b * c + c) = 0 by omega]
    exact Option.or_none.symm

theorem firstIn_congr (h : ∀ k, a ≤ k → k < a + n → p k = q k) : firstIn p a n = firstIn q a n := by
  have hmem : ∀ k ∈ List.range' a n, p k = q k := fun k hk => by
    have := List.mem_range'_1.mp hk
    exact h k this.1 this.2
  rw [firstIn, firstIn]
  generalize List.range' a n = l at hmem
  induction l with
  | nil => rfl
  | cons k l ih =>
    rw [List.find?_cons, List.find?_cons, hmem k List.mem_cons_self, ih fun j hj => hmem j (List.mem_cons_of_mem _ hj)]

theorem firstIn_eq_none : firstIn p a n = none ↔ ∀ k, a ≤ k → k < a + n → p k = false := by
  rw [firstIn, List.find?_eq_none]
  simp [List.mem_range'_1]

theorem firstIn_spec {k : Nat} (h : firstIn p a n = some k) :
    a ≤ k ∧ k < a + n ∧ p k = true ∧ ∀ j, a ≤ j → j < k → p j = false := by
  have hmem := List.mem_range'_1.mp (List.mem_of_find?_eq_some h)
  refine ⟨hmem.1, hmem.2, List.find?_some h, fun j hj hjk => ?_⟩
  -- a hit before `k` would have been found first
  have hn : n = (k - a) + (n - (k - a)) := by omega
  rw [hn, firstIn_add] at h
  cases hf : firstIn p a (k - a) with
  | none => exact firstIn_eq_none.mp hf j hj (by omega)
  | some j' =>
    rw [hf, Option.some_or, Option.some.injEq] at h
    have := List.mem_range'_1.mp (List.mem_of_find?_eq_some hf)
    omega

end

variable {κ ν : Type} {t : List (Option (κ × ν))} {k k' : κ} {v : ν} {e : κ × ν} {i : Nat}

/-- The entries of a table, in order. -/
def entries (t : List (Option (κ × ν))) : List (κ × ν) := t.reduceOption

/-- No key occurs twice. -/
def Distinct (t : List (Option (κ × ν))) : Prop := ((entries t).map Prod.fst).Nodup

theorem mem_entries : e ∈ entries t ↔ some e ∈ t := List.reduceOption_mem_iff

@[simp] theorem entries_nil : entries ([] : List (Option (κ × ν))) = [] := rfl

@[simp] theorem entries_cons_none : entries (none :: t) = entries t := List.reduceOption_cons_of_none t

@[simp] theorem entries_cons_some : entries (some e :: t) = e :: entries t := List.reduceOption_cons_of_some e t

theorem entries_put (hi : t[i]? = some none) : (entries (t.set i (some e))).Perm (e :: entries t) := by
  induction t generalizing i with
  | nil => simp at hi
  | cons s t ih =>
    cases i with
    | zero =>
      obtain rfl : s = none := by simpa using hi
      simp
    | succ i =>
      have hi : t[i]? = some none := by simpa using hi
      cases s with
      | none => simpa using ih hi
      | some e' =>
        rw [List.set_cons_succ, entries_cons_some, entries_cons_some]
        exact ((ih hi).cons e').trans (List.Perm.swap e e' _)

theorem entries_clear (hi : t[i]? = some (some e)) : (e :: entries (t.set i none)).Perm (entries t) := by
  induction t generalizing i with
  | nil => simp at hi
  | cons s t ih =>
    cases i with
    | zero =>
      obtain rfl : s = some e := by simpa using hi
      simp
    | succ i =>
      have hi : t[i]? = some (some e) := by simpa using hi
      cases s with
      | none => simpa using ih hi
      | some e' =>
        rw [List.set_cons_succ, entries_cons_some, entries_cons_some]
        exact (List.Perm.swap e' e _).trans ((ih hi).cons e')

theorem Distinct.clear (hd : Distinct t) (hi : t[i]? = some (some e)) : Distinct (t.set i none) := by
  have hp := (entries_clear hi).map Prod.fst
  exact (List.nodup_cons.mp (hp.nodup_iff.mpr hd)).2

variable [DecidableEq κ]

/-- Does a slot hold an entry with key `k`? -/
def isKey (k : κ) : Option (κ × ν) → Bool
  | some e => e.1 = k
  | none => false

/-- The value of the first entry with key `k` in a table with vacant slots. -/
def lookup : List (Option (κ × ν)) → κ → Option ν
  | [], _ => none
  | some e :: t, k => if e.1 = k then some e.2 else lookup t k
  | none :: t, k => lookup t k

theorem lookup_eq_none : lookup t k = none ↔ ∀ v, some (k, v) ∉ t := by
  induction t with
  | nil => simp [lookup]
  | cons s t ih =>
    cases s with
    | none => simp [lookup, ih]
    | some e =>
      obtain ⟨k', v'⟩ := e
      by_cases hk : k' = k
      · refine iff_of_false (by simp [lookup, hk]) fun h => h v' ?_
        rw [hk]
        exact List.mem_cons_self
      · simp [lookup, hk, ih, Ne.symm hk]

theorem mem_of_lookup (h : lookup t k = some v) : some (k, v) ∈ t := by
  induction t with
  | nil => cases h
  | cons s t ih =>
    cases s with
    | none => exact List.mem_cons_of_mem _ (ih h)
    | some e =>
      obtain ⟨k', v'⟩ := e
      by_cases hk : k' = k
      · simp only [lookup, if_pos hk, Option.some.injEq] at h
        rw [hk, h]
        exact List.mem_cons_self
      · simp only [lookup, if_neg hk] at h
        exact List.mem_cons_of_mem _ (ih h)

/-- Without repeated keys, every entry is the one that is found. -/
theorem Distinct.lookup_of_mem (hd : Distinct t) (h : some (k, v) ∈ t) : lookup t k = some v := by
  induction t with
  | nil => cases h
  | cons s t ih =>
    cases s with
    | none =>
      rw [Distinct, entries_cons_none] at hd
      exact ih hd (by simpa using h)
    | some e =>
      rw [Distinct, entries_cons_some, List.map_cons, List.nodup_cons] at hd
      rcases List.mem_cons.mp h with he | h
      · cases he
        simp [lookup]
      · have hne : e.1 ≠ k := by
          rintro rfl
          exact hd.1 (List.mem_map.mpr ⟨_, mem_entries.mpr h, rfl⟩)
        rw [lookup, if_neg hne]
        exact ih hd.2 h

/-- The entry at the first slot with key `k`. -/
theorem lookup_of_firstIn {j : Nat} (h : firstIn (fun j => isKey k (t.getD j none)) 0 t.length = some j) :
    ∃ v, t[j]? = some (some (k, v)) ∧ lookup t k = some v := by
  obtain ⟨-, hj, hk, hbefore⟩ := firstIn_spec h
  clear h
  induction t generalizing j with
  | nil => simp at hj
  | cons s t ih =>
    cases j with
    | zero =>
      cases s with
      | none => simp [isKey] at hk
      | some e =>
        obtain ⟨k', v⟩ := e
        have hk' : k' = k := by simpa [isKey] using hk
        exact ⟨v, by simp [hk'], by simp [lookup, hk']⟩
    | succ j =>
      have h0 := hbefore 0 (Nat.le_refl 0) (Nat.succ_pos j)
      obtain ⟨v, hv, hl⟩ := ih (by simpa using hj) (by simpa using hk) fun i _ hi => by
        simpa using hbefore (i + 1) (Nat.zero_le _) (by omega)
      refine ⟨v, by simpa using hv, ?_⟩
      cases s with
      | none => exact hl
      | some e =>
        have hne : e.1 ≠ k := by simpa [isKey] using h0
        rw [lookup, if_neg hne]
        exact hl

theorem lookup_of_firstIn_none (h : firstIn (fun j => isKey k (t.getD j none)) 0 t.length = none) : lookup t k = none := by
  rw [lookup_eq_none]
  intro v hv
  obtain ⟨j, hj, he⟩ := List.getElem_of_mem hv
  have := firstIn_eq_none.mp h j (Nat.zero_le j) (by omega)
  rw [List.getD_eq_getElem _ _ hj, he] at this
  simp [isKey] at this

theorem lookup_append (hk : lookup t k = none) :
    lookup (t ++ [some (k, v)]) k' = if k' = k then some v else lookup t k' := by
  induction t with
  | nil => simp [lookup, eq_comm]
  | cons s t ih =>
    cases s with
    | none => exact ih hk
    | some e =>
      have hne : e.1 ≠ k := fun he => by simp [lookup, he] at hk
      rw [lookup, if_neg hne] at hk
      rw [List.cons_append, lookup, ih hk, lookup]
      by_cases he : e.1 = k'
      · have hk' : k' ≠ k := fun h => hne (he.trans h)
        rw [if_pos he, if_pos he, if_neg hk']
      · rw [if_neg he, if_neg he]

/-- A new key in a vacant slot. -/
theorem lookup_put (hk : lookup t k = none) (hi : t[i]? = some none) :
    lookup (t.set i (some (k, v))) k' = if k' = k then some v else lookup t k' := by
  induction t generalizing i with
  | nil => simp at hi
  | cons s t ih =>
    cases i with
    | zero =>
      obtain rfl : s = none := by simpa using hi
      rw [List.set_cons_zero, lookup, lookup]
      by_cases h : k = k'
      · rw [if_pos h, if_pos h.symm]
      · rw [if_neg h, if_neg (Ne.symm h)]
    | succ i =>
      have hi : t[i]? = some none := by simpa using hi
      cases s with
      | none => exact ih hk hi
      | some e =>
        have hne : e.1 ≠ k := fun he => by simp [lookup, he] at hk
        rw [lookup, if_neg hne] at hk
        rw [List.set_cons_succ, lookup, ih hk hi, lookup]
        by_cases he : e.1 = k'
        · have hk' : k' ≠ k := fun h => hne (he.trans h)
          rw [if_pos he, if_pos he, if_neg hk']
        · rw [if_neg he, if_neg he]

theorem Distinct.put (hd : Distinct t) (hk : lookup t k = none) (hi : t[i]? = some none) :
    Distinct (t.set i (some (k, v))) := by
  have hp := (entries_put (e := (k, v)) hi).map Prod.fst
  refine hp.nodup_iff.mpr (List.nodup_cons.mpr ⟨fun hm => ?_, hd⟩)
  obtain ⟨e, he, rfl⟩ := List.mem_map.mp hm
  exact lookup_eq_none.mp hk e.2 (mem_entries.mp he)

/-- An entry taken out of a table without repeated keys. -/
theorem Distinct.lookup_clear (hd : Distinct t) (hi : t[i]? = some (some (k, v))) :
    lookup (t.set i none) k' = if k' = k then none else lookup t k' := by
  have hp := entries_clear hi
  have hk : k ∉ (entries (t.set i none)).map Prod.fst :=
    (List.nodup_cons.mp ((hp.map Prod.fst).nodup_iff.mpr hd)).1
  by_cases h : k' = k
  · rw [if_pos h, lookup_eq_none]
    exact fun v' hm => hk (List.mem_map.mpr ⟨_, mem_entries.mpr hm, h⟩)
  · rw [if_neg h]
    cases hl : lookup t k' with
    | none =>
      rw [lookup_eq_none] at hl ⊢
      exact fun v' hm => hl v' (mem_entries.mp (hp.mem_iff.mp (List.mem_cons_of_mem _ (mem_entries.mpr hm))))
    | some w =>
      have hm := hp.mem_iff.mpr (mem_entries.mpr (mem_of_lookup hl))
      rcases List.mem_cons.mp hm with he | hm
      · exact absurd (Prod.mk.inj he).1 h
      · exact (hd.clear hi).lookup_of_mem (mem_entries.mp hm)

omit [DecidableEq κ] in
theorem entries_append (t u : List (Option (κ × ν))) : entries (t ++ u) = entries t ++ entries u :=
  List.reduceOption_append t u

/-- A table with one more entry, in a vacant slot or behind all slots. -/
inductive Added (t : List (Option (κ × ν))) (k : κ) (v : ν) : List (Option (κ × ν)) → Prop
  | put {i : Nat} (hi : t[i]? = some none) : Added t k v (t.set i (some (k, v)))
  | append : Added t k v (t ++ [some (k, v)])

namespace Added

variable {t' : List (Option (κ × ν))}

omit [DecidableEq κ] in
theorem perm (h : Added t k v t') : (entries t').Perm ((k, v) :: entries t) := by
  cases h with
  | put hi => exact entries_put hi
  | append =>
    rw [entries_append]
    exact List.perm_append_comm

omit [DecidableEq κ] in
theorem length_le (h : Added t k v t') : t.length ≤ t'.length := by
  cases h <;> simp

theorem lookup (h : Added t k v t') (hk : lookup t k = none) : lookup t' k' = if k' = k then some v else Slots.lookup t k' := by
  cases h with
  | put hi => exact lookup_put hk hi
  | append => exact lookup_append hk

theorem distinct (h : Added t k v t') (hd : Distinct t) (hk : Slots.lookup t k = none) : Distinct t' := by
  refine (h.perm.map Prod.fst).nodup_iff.mpr (List.nodup_cons.mpr ⟨fun hm => ?_, hd⟩)
  obtain ⟨e, he, rfl⟩ := List.mem_map.mp hm
  exact lookup_eq_none.mp hk e.2 (mem_entries.mp he)

omit [DecidableEq κ] in
/-- The slots in front that are all taken stay as they are. -/
theorem of_append {l s : List (Option (κ × ν))} (h : Added (l ++ t) k v s) (hl : none ∉ l) : ∃ t', s = l ++ t' ∧ Added t k v t' := by
  cases h with
  | @put i hi =>
    rw [List.getElem?_append] at hi
    split at hi
    · exact absurd (List.mem_of_getElem? hi) hl
    · refine ⟨_, ?_, .put hi⟩
      rw [List.set_append_right _ _ (by omega)]
  | append => exact ⟨_, List.append_assoc _ _ _, .append⟩

omit [DecidableEq κ] in
theorem prepend (h : Added t k v t') (l : List (Option (κ × ν))) : Added (l ++ t) k v (l ++ t') := by
  cases h with
  | @put i hi =>
    have := Added.put (t := l ++ t) (k := k) (v := v) (i := l.length + i) (by
      rw [List.getElem?_append_right (Nat.le_add_right _ _), Nat.add_sub_cancel_left, hi])
    rwa [List.set_append_right _ _ (Nat.le_add_right _ _), Nat.add_sub_cancel_left] at this
  | append =>
    rw [← List.append_assoc]
    exact .append

end Added

end Mofs.Slots
