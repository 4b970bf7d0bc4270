import Mathlib.Data.List.Nodup
import Mathlib.Logic.Function.Basic

namespace Mofs.Tree

variable {α : Type} {up up' : α → α} {root c s q : α} {l l' : List α}

/-- `l` is the way from `c` up to the root. -/
inductive Climb (up : α → α) (root : α) : α → List α → Prop
  | root : Climb up root root [root]
  | step {c : α} {l : List α} (hc : c ≠ root) (h : Climb up root (up c) l) : Climb up root c (c :: l)

namespace Climb

theorem unique (h : Climb up root c l) (h' : Climb up root c l') : l = l' := by
  induction h generalizing l' with
  | root =>
    cases h' with
    | root => rfl
    | step hc _ => exact absurd rfl hc
  | step hc _ ih =>
    cases h' with
    | root => exact absurd rfl hc
    | step _ h' => rw [ih h']

theorem mem_self (h : Climb up root c l) : c ∈ l := by
  cases h <;> exact List.mem_cons_self

/-- The way up from a node on the way up is the rest of it. -/
theorem of_mem (h : Climb up root c l) (hq : q ∈ l) : ∃ l', Climb up root q l' ∧ l' <:+ l := by
  induction h with
  | root =>
    obtain rfl : q = root := by simpa using hq
    exact ⟨_, .root, List.suffix_rfl⟩
  | @step c l hc h ih =>
    rcases List.mem_cons.mp hq with rfl | hq
    · exact ⟨_, .step hc h, List.suffix_rfl⟩
    · obtain ⟨l', hl', hsuf⟩ := ih hq
      exact ⟨l', hl', hsuf.trans (List.suffix_cons c l)⟩

theorem nodup (h : Climb up root c l) : l.Nodup := by
  induction h with
  | root => simp
  | @step c l hc h ih =>
    refine List.nodup_cons.mpr ⟨fun hm => ?_, ih⟩
    -- a node above itself would have a way up that is shorter than itself
    obtain ⟨l', hl', hsuf⟩ := h.of_mem hm
    have := hsuf.length_le
    rw [hl'.unique (.step hc h), List.length_cons] at this
    omega

theorem up_ne (h : Climb up root c l) (hc : c ≠ root) : up c ≠ c := fun he => by
  cases h with
  | root => exact hc rfl
  | @step _ l _ h =>
    have hself := (he ▸ h : Climb up root c l)
    have hlen := congrArg List.length (hself.unique (.step hc h))
    simp at hlen

theorem root_mem (h : Climb up root c l) : root ∈ l := by
  induction h with
  | root => exact List.mem_cons_self
  | step _ _ ih => exact List.mem_cons_of_mem _ ih

theorem congr (h : Climb up root c l) (hup : ∀ x ∈ l, x ≠ root → up' x = up x) : Climb up' root c l := by
  induction h with
  | root => exact .root
  | @step c l hc h ih =>
    refine .step hc ?_
    rw [hup c List.mem_cons_self hc]
    exact ih fun x hx => hup x (List.mem_cons_of_mem _ hx)

/-- Every node keeps a way up when `s` is hung below a node that is not below `s`. -/
theorem move [DecidableEq α] (h : Climb up root c l) (hq : Climb up root q l') (hs : s ∉ l') :
    ∃ l'', Climb (Function.update up s q) root c l'' := by
  have hq' : Climb (Function.update up s q) root q l' := hq.congr fun x hx _ =>
    Function.update_of_ne (ne_of_mem_of_not_mem hx hs) _ _
  induction h with
  | root => exact ⟨_, .root⟩
  | @step c l hc h ih =>
    by_cases hcs : c = s
    · subst hcs
      exact ⟨_, .step hc (by rw [Function.update_self]; exact hq')⟩
    · obtain ⟨l'', hl''⟩ := ih
      exact ⟨_, .step hc (by rw [Function.update_of_ne hcs]; exact hl'')⟩

end Climb

/-- The nodes in use form a tree: `kids` lists the children of a node and `up` is the parent of a child. -/
structure IsTree (used : α → Prop) (kids : α → List α) (up : α → α) (root : α) : Prop where
  root_used : used root
  kid : ∀ p, used p → ∀ c ∈ kids p, used c ∧ c ≠ root ∧ up c = p
  parent : ∀ c, used c → c ≠ root → used (up c) ∧ c ∈ kids (up c)
  nodup : ∀ p, used p → (kids p).Nodup
  rooted : ∀ c, used c → ∃ l, Climb up root c l

namespace IsTree

variable {used used' : α → Prop} {kids kids' : α → List α} {p : α}

theorem climb_used (h : IsTree used kids up root) (hc : used c) (hl : Climb up root c l) : ∀ x ∈ l, used x := by
  induction hl with
  | root => simpa using hc
  | @step c l hne _ ih =>
    intro x hx
    rcases List.mem_cons.mp hx with rfl | hx
    · exact hc
    · exact ih (h.parent c hc hne).1 x hx

/-- A node without children is not above any other. -/
theorem not_mem_climb (h : IsTree used kids up root) (hs : kids s = []) (hc : used c) (hcs : c ≠ s)
    (hl : Climb up root c l) (hsr : s ≠ root) : s ∉ l := by
  induction hl with
  | root => simpa using hsr
  | @step c l hne hl ih =>
    intro hm
    rcases List.mem_cons.mp hm with rfl | hm
    · exact hcs rfl
    · obtain ⟨hup, hkid⟩ := h.parent c hc hne
      refine ih hup (fun he => ?_) hm
      rw [he, hs] at hkid
      cases hkid

theorem up_ne (h : IsTree used kids up root) (hc : used c) (hr : c ≠ root) : up c ≠ c := by
  obtain ⟨l, hl⟩ := h.rooted c hc
  exact hl.up_ne hr

variable [DecidableEq α]

/-- A new leaf. -/
theorem insert (h : IsTree used kids up root) (hp : used p) (hc : ¬ used c)
    (hused : ∀ x, used' x ↔ used x ∨ x = c) (hkids : ∀ x y, y ∈ kids' x ↔ (x ≠ c ∧ y ∈ kids x) ∨ (x = p ∧ y = c))
    (hnodup : ∀ x, used' x → (kids' x).Nodup) : IsTree used' kids' (Function.update up c p) root := by
  have hcr : c ≠ root := fun he => hc (he ▸ h.root_used)
  have hne {x : α} (hx : used x) : x ≠ c := fun he => hc (he ▸ hx)
  refine ⟨(hused _).mpr (.inl h.root_used), fun x hx y hy => ?_, fun x hx hxr => ?_, hnodup, fun x hx => ?_⟩
  · rcases (hkids x y).mp hy with ⟨hxc, hy⟩ | ⟨rfl, rfl⟩
    · obtain ⟨hy', hyr, hup⟩ := h.kid x (((hused x).mp hx).resolve_right hxc) y hy
      exact ⟨(hused y).mpr (.inl hy'), hyr, by rw [Function.update_of_ne (hne hy')]; exact hup⟩
    · exact ⟨(hused y).mpr (.inr rfl), hcr, Function.update_self _ _ _⟩
  · by_cases hxc : x = c
    · subst hxc
      rw [Function.update_self]
      exact ⟨(hused p).mpr (.inl hp), (hkids p x).mpr (.inr ⟨rfl, rfl⟩)⟩
    · rw [Function.update_of_ne hxc]
      obtain ⟨hup, hkid⟩ := h.parent x (((hused x).mp hx).resolve_right hxc) hxr
      exact ⟨(hused _).mpr (.inl hup), (hkids _ x).mpr (.inl ⟨hne hup, hkid⟩)⟩
  · have hkeep {x : α} {l : List α} (hx : used x) (hl : Climb up root x l) : Climb (Function.update up c p) root x l :=
      hl.congr fun y hy _ => Function.update_of_ne (hne (h.climb_used hx hl y hy)) _ _
    rcases (hused x).mp hx with hx | rfl
    · obtain ⟨l, hl⟩ := h.rooted x hx
      exact ⟨l, hkeep hx hl⟩
    · obtain ⟨l, hl⟩ := h.rooted p hp
      exact ⟨_, .step hcr (by rw [Function.update_self]; exact hkeep hp hl)⟩

omit [DecidableEq α] in
/-- A leaf taken away. -/
theorem remove (h : IsTree used kids up root) (hcr : c ≠ root) (hleaf : kids c = [])
    (hused : ∀ x, used' x ↔ used x ∧ x ≠ c) (hkids : ∀ x, used' x → ∀ y, y ∈ kids' x ↔ y ∈ kids x ∧ y ≠ c)
    (hnodup : ∀ x, used' x → (kids' x).Nodup) : IsTree used' kids' up root := by
  refine ⟨(hused _).mpr ⟨h.root_used, Ne.symm hcr⟩, fun x hx y hy => ?_, fun x hx hxr => ?_, hnodup, fun x hx => ?_⟩
  · obtain ⟨hy, hyc⟩ := (hkids x hx y).mp hy
    obtain ⟨hy', hyr, hup⟩ := h.kid x ((hused x).mp hx).1 y hy
    exact ⟨(hused y).mpr ⟨hy', hyc⟩, hyr, hup⟩
  · obtain ⟨hx, hxc⟩ := (hused x).mp hx
    obtain ⟨hup, hkid⟩ := h.parent x hx hxr
    have hupc : up x ≠ c := fun he => by
      rw [he, hleaf] at hkid
      cases hkid
    have hup' := (hused (up x)).mpr ⟨hup, hupc⟩
    exact ⟨hup', (hkids _ hup' x).mpr ⟨hkid, hxc⟩⟩
  · exact h.rooted x ((hused x).mp hx).1

/-- A node, with all that is below it, hung somewhere else. -/
theorem move (h : IsTree used kids up root) (hs : used s) (hsr : s ≠ root) (hq : used q) (hl : Climb up root q l)
    (hsl : s ∉ l) (hkids : ∀ x, used x → ∀ y, y ∈ kids' x ↔ (y ∈ kids x ∧ y ≠ s) ∨ (x = q ∧ y = s))
    (hnodup : ∀ x, used x → (kids' x).Nodup) : IsTree used kids' (Function.update up s q) root := by
  refine ⟨h.root_used, fun x hx y hy => ?_, fun x hx hxr => ?_, hnodup, fun x hx => ?_⟩
  · rcases (hkids x hx y).mp hy with ⟨hy, hys⟩ | ⟨rfl, rfl⟩
    · obtain ⟨hy', hyr, hup⟩ := h.kid x hx y hy
      exact ⟨hy', hyr, by rw [Function.update_of_ne hys]; exact hup⟩
    · exact ⟨hs, hsr, Function.update_self _ _ _⟩
  · by_cases hxs : x = s
    · subst hxs
      rw [Function.update_self]
      exact ⟨hq, (hkids q hq x).mpr (.inr ⟨rfl, rfl⟩)⟩
    · rw [Function.update_of_ne hxs]
      obtain ⟨hup, hkid⟩ := h.parent x hx hxr
      exact ⟨hup, (hkids _ hup x).mpr (.inl ⟨hkid, hxs⟩)⟩
  · obtain ⟨l', hl'⟩ := h.rooted x hx
    exact hl'.move hl hsl

/-- A new leaf, where the lists of children are given up to their order. -/
theorem insert_perm (h : IsTree used kids up root) (hp : used p) (hc : ¬ used c) (hused : ∀ x, used' x ↔ used x ∨ x = c)
    (hkc : kids' c = []) (hkp : (kids' p).Perm (c :: kids p)) (hko : ∀ x, x ≠ c → x ≠ p → kids' x = kids x) :
    IsTree used' kids' (Function.update up c p) root := by
  have hpc : p ≠ c := fun he => hc (he ▸ hp)
  have hnew : c ∉ kids p := fun hm => hc (h.kid p hp c hm).1
  refine h.insert hp hc hused (fun x y => ?_) fun x hx => ?_
  · by_cases hxc : x = c
    · subst hxc
      simp [hkc, hpc.symm]
    · by_cases hxp : x = p
      · subst hxp
        rw [hkp.mem_iff]
        simp [hxc, or_comm]
      · simp [hko x hxc hxp, hxc, hxp]
  · by_cases hxc : x = c
    · subst hxc
      rw [hkc]
      exact List.nodup_nil
    · by_cases hxp : x = p
      · subst hxp
        exact hkp.nodup_iff.mpr (List.nodup_cons.mpr ⟨hnew, h.nodup x hp⟩)
      · rw [hko x hxc hxp]
        exact h.nodup x (((hused x).mp hx).resolve_right hxc)

omit [DecidableEq α] in
theorem remove_perm (h : IsTree used kids up root) (hc : used c) (hcr : c ≠ root) (hleaf : kids c = []) (hup : up c = p)
    (hused : ∀ x, used' x ↔ used x ∧ x ≠ c) (hkp : (c :: kids' p).Perm (kids p))
    (hko : ∀ x, x ≠ c → x ≠ p → kids' x = kids x) : IsTree used' kids' up root := by
  have hpu : used p := hup ▸ (h.parent c hc hcr).1
  obtain ⟨hnot, hnodup⟩ := List.nodup_cons.mp (hkp.nodup_iff.mpr (h.nodup p hpu))
  refine h.remove hcr hleaf hused (fun x hx y => ?_) fun x hx => ?_
  · obtain ⟨hxu, hxc⟩ := (hused x).mp hx
    by_cases hxp : x = p
    · subst hxp
      rw [← hkp.mem_iff, List.mem_cons]
      exact ⟨fun hy => ⟨.inr hy, ne_of_mem_of_not_mem hy hnot⟩, fun hy => hy.1.resolve_left hy.2⟩
    · rw [hko x hxc hxp]
      refine ⟨fun hy => ⟨hy, ?_⟩, fun hy => hy.1⟩
      rintro rfl
      exact hxp ((h.kid x hxu y hy).2.2.symm.trans hup)
  · obtain ⟨hxu, hxc⟩ := (hused x).mp hx
    by_cases hxp : x = p
    · subst hxp
      exact hnodup
    · rw [hko x hxc hxp]
      exact h.nodup x hxu

theorem move_perm (h : IsTree used kids up root) (hs : used s) (hsr : s ≠ root) (hq : used q) (hl : Climb up root q l)
    (hsl : s ∉ l) (hup : up s = p) (hpq : p ≠ q) (hkp : (s :: kids' p).Perm (kids p)) (hkq : (kids' q).Perm (s :: kids q))
    (hko : ∀ x, x ≠ p → x ≠ q → kids' x = kids x) : IsTree used kids' (Function.update up s q) root := by
  have hpu : used p := hup ▸ (h.parent s hs hsr).1
  have hnot {x : α} (hx : used x) (hxp : x ≠ p) : s ∉ kids x := fun hm => hxp ((h.kid x hx s hm).2.2.symm.trans hup)
  obtain ⟨hnp, hnodup⟩ := List.nodup_cons.mp (hkp.nodup_iff.mpr (h.nodup p hpu))
  refine h.move hs hsr hq hl hsl (fun x hx y => ?_) fun x hx => ?_
  · by_cases hxp : x = p
    · subst hxp
      rw [← hkp.mem_iff, List.mem_cons]
      constructor
      · exact fun hy => .inl ⟨.inr hy, ne_of_mem_of_not_mem hy hnp⟩
      · rintro (⟨hy, hys⟩ | ⟨he, -⟩)
        · exact hy.resolve_left hys
        · exact absurd he hpq
    · by_cases hxq : x = q
      · subst hxq
        rw [hkq.mem_iff, List.mem_cons]
        constructor
        · rintro (rfl | hy)
          · exact .inr ⟨rfl, rfl⟩
          · exact .inl ⟨hy, ne_of_mem_of_not_mem hy (hnot hx hxp)⟩
        · rintro (⟨hy, -⟩ | ⟨-, rfl⟩)
          · exact .inr hy
          · exact .inl rfl
      · rw [hko x hxp hxq]
        constructor
        · exact fun hy => .inl ⟨hy, ne_of_mem_of_not_mem hy (hnot hx hxp)⟩
        · rintro (⟨hy, -⟩ | ⟨he, -⟩)
          · exact hy
          · exact absurd he hxq
  · by_cases hxp : x = p
    · subst hxp
      exact hnodup
    · by_cases hxq : x = q
      · subst hxq
        exact hkq.nodup_iff.mpr (List.nodup_cons.mpr ⟨hnot hx hxp, h.nodup x hx⟩)
      · rw [hko x hxp hxq]
        exact h.nodup x hx

end IsTree

end Mofs.Tree
