import Mofs.DotEntries
import Mofs.Permission

namespace Mofs

open Effect Bytes Slots Mofs.Tree

variable {sb : Superblock} {V W : View} {G H : Owners} {T : Nat → List Slot} {up : Nat → Nat} {user : User} {path : Path}
  {i p q s c k mode : Nat} {n nn name : Name} {slots : List Slot} {info : PathInfo}

/-- Directory `p` has a slot without an entry. -/
def HasVacancy (sb : Superblock) (V : View) (p : Nat) : Prop := ∃ ns ds slots, DirAt sb V p ns ds slots ∧ none ∈ slots

theorem hasVacancy_iff (h : Vol sb V G T up) (hp : (V.inode p).isDir = true) :
    HasVacancy sb V p ↔ none ∈ dirSlots up T p := by
  constructor
  · rintro ⟨ns, ds, slots, hdir, hnone⟩
    rwa [hdir.unique (h.dirAt hp)] at hnone
  · intro hnone
    exact ⟨_, _, _, h.dirAt hp, hnone⟩

/-- A new entry does not make directory `p` grow: there is a slot for it, or there are no blocks to grow by. -/
def TakesEntry (sb : Superblock) (V : View) (p : Nat) : Prop := HasVacancy sb V p ∨ (sb.freeData V).length < 2

namespace Mount

/-- One more block takes one for its data and at least one for the list. -/
theorem two_le_of_canGrow (m : Mount) {len : Nat} (h : m.sb.canGrow V len 1) : 2 ≤ (m.sb.freeData V).length := by
  obtain ⟨hmax, hfree⟩ := h
  have hne := m.listNodes_ne_zero (show len + 1 ≤ 2 * maxFileDataBlocks by omega) (Nat.succ_ne_zero len)
  omega

end Mount

/-- An entry that was added to a directory of one block without blocks to grow by found a vacant slot. -/
theorem AddPost.mem_of_few {m : Mount} (h : AddPost m.sb V W G q slots name c (.ok ()))
    (hlen : slots.length = entriesPerBlk m.sb) (hfew : (m.sb.freeData V).length < 2) : none ∈ slots := by
  by_contra hnone
  unfold AddPost at h
  rw [vacant_eq_none.mpr hnone, hlen, Nat.mod_self] at h
  simp only [ne_eq, not_true_eq_false, if_false] at h
  split at h
  · cases h.1
  split at h
  · cases h.1
  split at h
  · next hgrow => exact absurd (m.two_le_of_canGrow hgrow) (Nat.not_le.mpr hfew)
  · cases h.1

section Sizes

/-- A directory that got as many slots as its size says keeps its size, and so do the others. -/
theorem DirSet.sizes (h : DirSet sb V W G p slots) (hsize : (V.inode p).iSize.toNat = direntBytes * slots.length) (i : Nat) :
    (W.inode i).iSize = (V.inode i).iSize := by
  by_cases hi : i = p
  · subst hi
    apply UInt32.toNat_inj.mp
    rw [h.dir.size, hsize]
  · rw [(h.frame.same i (by simpa using hi)).inode]

theorem AddPost.sizes (h : AddPost sb V W G q slots name c (.ok ())) (hnone : none ∈ slots)
    (hsize : (V.inode q).iSize.toNat = direntBytes * slots.length) (i : Nat) : (W.inode i).iSize = (V.inode i).iSize := by
  unfold AddPost at h
  split at h
  · cases h.1
  split at h
  · cases h.1
  split at h
  · exact h.2.sizes (by rw [hsize, List.length_set]) i
  · next hv => exact absurd hnone (vacant_eq_none.mp hv)

theorem setInode_size {x : Inode} (hx : x.iSize = (V.inode p).iSize) (i : Nat) :
    ((V.setInode p x).inode i).iSize = (V.inode i).iSize := by
  by_cases hi : i = p
  · subst hi
    simp only [View.setInode, Function.update_self, hx]
  · simp only [View.setInode, Function.update_of_ne hi]

theorem Finished.sizes {srcIsDir : Bool} (h : Finished V W G srcIsDir p q s) (i : Nat) :
    (W.inode i).iSize = (V.inode i).iSize := by
  obtain ⟨V', hV', t, rfl⟩ := h
  refine (setInode_size (V := V') (x := (V'.inode s).stamp timeCtime t) rfl i).trans ?_
  split at hV'
  · obtain ⟨U, t₁, t₂, hF, rfl⟩ := hV'
    have hU (j : Nat) : (U.inode j).iSize = (V.inode j).iSize := by rw [hF.inode]
    have hp (j : Nat) : ((U.setInode p (nlinkInode (V.inode p) (-1) t₁)).inode j).iSize = (V.inode j).iSize :=
      (setInode_size (x := nlinkInode (V.inode p) (-1) t₁) (hU p).symm j).trans (hU j)
    exact (setInode_size (x := nlinkInode (V.inode q) 1 t₂) (hp q).symm i).trans (hp i)
  · rw [hV']

/-- A move within a directory, or to one with a vacant slot, changes no size. -/
theorem MovePost.sizes (h : Vol sb V G T up) (hp : (V.inode p).isDir = true) (hq : (V.inode q).isDir = true)
    (hroom : p = q ∨ none ∈ dirSlots up T q) (hM : MovePost sb V W G T up p n s q nn (.ok ())) (i : Nat) :
    (W.inode i).iSize = (V.inode i).iSize := by
  obtain ⟨k, V₁, r₁, W₁, hk, hset, hadd, hr₁⟩ := hM
  have hout := hset.sizes (by rw [(h.dirAt hp).size, List.length_set])
  cases r₁ with
  | error e => cases hr₁.1
  | ok u =>
    refine (hr₁.2.sizes i).trans (.trans ?_ (hout i))
    have hsize : (V₁.inode q).iSize.toNat = direntBytes * (slotsWithout up T p q k).length := by
      rw [hout q, (h.dirAt hq).size, slotsWithout]
      split
      next he => rw [he, List.length_set]
      next => rfl
    refine hadd.sizes ?_ hsize i
    rw [slotsWithout]
    split
    · exact List.mem_iff_getElem?.mpr ⟨k, by
        rw [List.getElem?_set_self (List.getElem?_eq_some_iff.mp hk).1]⟩
    next hpq => exact hroom.resolve_left hpq

end Sizes

namespace Ungrown

/-- A well-formed volume is ungrown when its directories have the sizes they had. -/
theorem of_sizes {T' : Nat → List Slot} {up' : Nat → Nat} (h : Ungrown sb V G T up) (hvol : Vol sb W H T' up')
    (hsize : ∀ i, (W.inode i).isDir = true → (V.inode i).isDir = true ∧ (W.inode i).iSize = (V.inode i).iSize) :
    Ungrown sb W H T' up' := by
  refine ⟨hvol, fun i hi => ?_⟩
  obtain ⟨hd, hs⟩ := hsize i hi
  have hW := (hvol.dirAt hi).size
  rw [hs, (h.vol.dirAt hd).size, h.one i hd] at hW
  exact (Nat.eq_of_mul_eq_mul_left (by decide) hW).symm

end Ungrown

theorem dotless_iff : Dotless T ↔ lookup (T rootInodeNum) dot = none ∧ lookup (T rootInodeNum) dotdot = none := by
  rw [lookup_eq_none, lookup_eq_none]
  constructor
  · intro h
    exact ⟨fun c hm => (h _ c hm).1 rfl, fun c hm => (h _ c hm).2 rfl⟩
  · rintro ⟨hdot, hdotdot⟩ name c hm
    refine ⟨?_, ?_⟩
    · rintro rfl
      exact hdot c hm
    · rintro rfl
      exact hdotdot c hm

/-- The volume as it is left by a call that may enter new inodes under some names, given with their directories: ungrown
again, without dot names in the root if the call enters none there, and with no inode in use that was not, but the first free
one if the call enters it. -/
structure Kept (sb : Superblock) (V W : View) (T : Nat → List Slot) (enters : Nat → Name → Prop) (G : Owners)
    (T' : Nat → List Slot) (up : Nat → Nat) : Prop where
  ungrown : Ungrown sb W G T' up
  dotless : Dotless T → ¬ enters rootInodeNum dot → ¬ enters rootInodeNum dotdot → Dotless T'
  bits : ∀ i, W.ibit i = true → V.ibit i = true ∨ (∃ p name, enters p name) ∧ (sb.freeInodes V).head? = some i

/-- What one call keeps of a volume with the ordinary slots `T`. -/
def Keeps (sb : Superblock) (V W : View) (T : Nat → List Slot) (enters : Nat → Name → Prop) : Prop :=
  ∃ G T' up, Kept sb V W T enters G T' up

theorem Ungrown.keeps (h : Ungrown sb V G T up) (enters : Nat → Name → Prop) : Keeps sb V V T enters :=
  ⟨G, T, up, h, fun hT _ _ => hT, fun _ hi => .inl hi⟩

section Entering

variable {enters : Nat → Name → Prop}

/-- A new name in the root is the one the call enters. -/
theorem Dotless.set {j : Nat} {t : List Slot} (hT : Dotless T) (hc : c ≠ rootInodeNum) (hname : enters p name)
    (hdot : ¬ enters rootInodeNum dot) (hdotdot : ¬ enters rootInodeNum dotdot) :
    Dotless (Function.update (Function.update T p ((T p).set j (some (name, c)))) c t) := by
  intro x y hm
  rw [Function.update_of_ne hc.symm] at hm
  by_cases hp : rootInodeNum = p
  · rw [← hp, Function.update_self] at hm
    rcases List.mem_or_eq_of_mem_set hm with hm | hm
    · exact hT x y hm
    · obtain ⟨rfl, -⟩ := Prod.mk.inj (Option.some.inj hm)
      rw [← hp] at hname
      exact ⟨fun he => hdot (he ▸ hname), fun he => hdotdot (he ▸ hname)⟩
  · rw [Function.update_of_ne hp] at hm
    exact hT x y hm

/-- A new inode entered in a vacant slot. -/
theorem Ungrown.keeps_entered {j : Nat} {tc : List Slot} (h : Ungrown sb V G T up) (hE : Entering sb V T up user path info c)
    (hvol : Vol sb W H (Function.update (Function.update T info.parentInodeNum
      ((T info.parentInodeNum).set j (some (info.leafName, c)))) c tc) (Function.update up c info.parentInodeNum))
    (hib : W.ibit = Function.update V.ibit c true) (hperm : ∀ x, x ≠ c → SamePerm (V.inode x) (W.inode x))
    (hc : (W.inode c).isDir = true → tc.length + 2 = entriesPerBlk sb)
    (hname : enters info.parentInodeNum info.leafName) : Keeps sb V W T enters := by
  have hr : c ≠ rootInodeNum := by
    have := hE.free.2.1
    simp only [rootInodeNum]
    omega
  refine ⟨H, _, _, h.entered hvol hr hperm hc, fun hT => hT.set hr hname, fun i hi => ?_⟩
  by_cases hic : i = c
  · exact .inr ⟨⟨_, _, hname⟩, hic ▸ hE.next⟩
  · rw [hib, Function.update_of_ne hic] at hi
    exact .inl hi

/-- A created file, in a directory that did not have to grow for it. -/
theorem CreatePost.keeps {m : Mount} {r : Except Errno Nat} (h : Ungrown m.sb V G T up)
    (hP : CreatePost m.sb V W G T up user path mode r)
    (htake : ∀ info, resolve V up T resolveTarget user path = .ok info → info.leafFound = false →
      TakesEntry m.sb V info.parentInodeNum ∧ enters info.parentInodeNum info.leafName) :
    Keeps m.sb V W T enters := by
  obtain ⟨rfl, -⟩ | ⟨info, c, t, -, hE, hadd⟩ := hP.cases
  · exact h.keeps enters
  obtain ⟨hp, hl, -⟩ := hE.located h.vol
  obtain ⟨hlt, h3, hc⟩ := hE.free
  obtain ⟨hroom, hname⟩ := htake info hE.resolved hE.missing
  have hlen := h.one _ hp
  have hnone : none ∈ dirSlots up T info.parentInodeNum := by
    rcases hroom with hvac | hfew
    · exact (hasVacancy_iff h.vol hp).mp hvac
    · exact hadd.mem_of_few hlen hfew
  obtain ⟨-, j, hC⟩ := Created.of_addPost h.vol m.ok hp hlt h3 hc (mem_ordinary hnone) hl (short_of_eq m.ok hlen) hadd
  refine h.keeps_entered hE hC.vol hC.ibit hC.perm (fun hd => ?_) hname
  obtain ⟨t', ht'⟩ := hC.inode
  rw [ht', newInode_isDir 1 (by decide)] at hd
  exact absurd hd (by decide)

theorem MkdirPost.keeps {m : Mount} {r : Except Errno Unit} (h : Ungrown m.sb V G T up)
    (hP : MkdirPost m.sb V W G T up user path mode r)
    (htake : ∀ info, resolve V up T resolveTarget user path = .ok info → info.leafFound = false →
      TakesEntry m.sb V info.parentInodeNum ∧ enters info.parentInodeNum info.leafName) :
    Keeps m.sb V W T enters := by
  obtain ⟨hF, -⟩ | ⟨info, c, H, V', W', t, -, hE, hgrow, hnew, hadd, hW⟩ := hP.cases h.vol.wf
  · exact ⟨G, T, up, h.of_frame m.ok hF, fun hT _ _ => hT, fun i hi => .inl ((hF.same i (by simp)).ibit ▸ hi)⟩
  obtain ⟨hp, hl, -⟩ := hE.located h.vol
  obtain ⟨-, h3, hc⟩ := hE.free
  obtain ⟨hroom, hname⟩ := htake info hE.resolved hE.missing
  have hlen := h.one _ hp
  have hnone : none ∈ dirSlots up T info.parentInodeNum := by
    rcases hroom with hvac | hfew
    · exact (hasVacancy_iff h.vol hp).mp hvac
    · -- the new directory has taken a block and a list node
      exact absurd (m.two_le_of_canGrow hgrow) (Nat.not_le.mpr hfew)
  obtain ⟨-, j, hD⟩ := MadeDir.of_addPost h.vol m.ok hp h3 hc (mem_ordinary hnone) hl (short_of_eq m.ok hlen)
    (h.few_links m.ok hp) hnew hadd hW
  have hent := m.ok.entries_ge
  refine h.keeps_entered hE hD.vol hD.ibit hD.perm (fun _ => ?_) hname
  rw [List.length_replicate]
  omega

end Entering

section Removing

/-- An entry and its inode gone: no directory has another size. -/
theorem Unlinked.sizes (h : Vol sb V G T up) (hD : Unlinked sb V W G H T up p c name) (hp : (V.inode p).isDir = true)
    (hi : (W.inode i).isDir = true) : (V.inode i).isDir = true ∧ (W.inode i).iSize = (V.inode i).iSize := by
  have hic : i ≠ c := by
    rintro rfl
    rw [hD.inode] at hi
    cases hi
  by_cases hip : i = p
  · subst hip
    obtain ⟨j, -, hdir⟩ := hD.dir
    refine ⟨hp, UInt32.toNat_inj.mp ?_⟩
    rw [hdir.size, (h.dirAt hp).size, dirSlots, List.length_append, List.length_append, List.length_set]
  · have hsame := (hD.frame.same i (by simp [hip, hic])).inode
    rw [hsame] at hi ⊢
    exact ⟨hi, rfl⟩

theorem Dotless.clear {j : Nat} (hT : Dotless T) : Dotless (Function.update (Function.update T p ((T p).set j none)) c []) := by
  intro x y hm
  by_cases hc : rootInodeNum = c
  · rw [← hc, Function.update_self] at hm
    cases hm
  rw [Function.update_of_ne hc] at hm
  by_cases hp : rootInodeNum = p
  · rw [← hp, Function.update_self] at hm
    rcases List.mem_or_eq_of_mem_set hm with hm | hm
    · exact hT x y hm
    · cases hm
  · rw [Function.update_of_ne hp] at hm
    exact hT x y hm

theorem bits_of_cleared (hib : W.ibit = Function.update V.ibit c false) (i : Nat) (hi : W.ibit i = true) : V.ibit i = true := by
  by_cases hic : i = c
  · rw [hib, hic, Function.update_self] at hi
    cases hi
  · rwa [hib, Function.update_of_ne hic] at hi

theorem Removal.keeps (h : Ungrown sb V G T up) (hok : sb.Ok) (hR : Removal sb V W G H T up user path info)
    (enters : Nat → Name → Prop) : Keeps sb V W T enters := by
  obtain ⟨j, -, hvol⟩ := hR.vol h.vol hok
  have hp := hR.parent_isDir h.vol
  exact ⟨H, _, up, h.of_sizes hvol fun i hi => hR.unlinked.sizes h.vol hp hi, fun hT _ _ => hT.clear,
    fun i hi => .inl (bits_of_cleared hR.unlinked.ibit i hi)⟩

theorem UnlinkPost.keeps {r : Except Errno Unit} (h : Ungrown sb V G T up) (hok : sb.Ok)
    (hP : UnlinkPost sb V W G T up user path r) (enters : Nat → Name → Prop) : Keeps sb V W T enters := by
  obtain ⟨rfl, -⟩ | ⟨-, info, H, hR⟩ := hP.cases h.vol
  · exact h.keeps enters
  · exact hR.keeps h hok enters

theorem RmdirPost.keeps {r : Except Errno Unit} (h : Ungrown sb V G T up) (hok : sb.Ok)
    (hP : RmdirPost sb V W G T up user path r) (enters : Nat → Name → Prop) : Keeps sb V W T enters := by
  obtain ⟨rfl, -⟩ | ⟨-, info, H, hR⟩ := hP.cases
  · exact h.keeps enters
  · exact hR.keeps h hok enters

end Removing

section Moving

/-- Without a place for the moved entry it is put back, if its directory is not of the largest size. -/
theorem MovePost.put_back {e : Errno} (h : Vol sb V G T up) (hok : sb.Ok) (hp : (V.inode p).isDir = true)
    (hlead : some (n, s) ∉ lead up p) (hmax : (dirSlots up T p).length < sb.maxSlots)
    (hM : MovePost sb V W G T up p n s q nn (.error e)) :
    ∃ j t, (T p)[j]? = some (some (n, s)) ∧ Added ((T p).set j none) n s t ∧ Vol sb W G (Function.update T p t) up ∧
      W.ibit = V.ibit ∧ (∀ x, SamePerm (V.inode x) (W.inode x)) ∧ ∀ i, (W.inode i).iSize = (V.inode i).iSize := by
  obtain ⟨k, V₁, r₁, W₁, hk, hset, -, hr₁⟩ := hM
  cases r₁ with
  | ok u => cases hr₁.1
  | error e' =>
    obtain ⟨-, r₂, hadd⟩ := hr₁
    have hlt := (List.getElem?_eq_some_iff.mp hk).1
    have hnone : none ∈ (dirSlots up T p).set k none := List.mem_iff_getElem?.mpr ⟨k, List.getElem?_set_self hlt⟩
    have hl : lookup ((dirSlots up T p).set k none) n = none := by
      rw [((h.node p).dir hp).distinct.lookup_clear hk, if_pos rfl]
    obtain rfl : r₂ = .ok () := by
      cases hr₂ : r₂ with
      | ok u => rfl
      | error e₂ =>
        rcases (hadd.error_iff hl).mp ⟨e₂, hr₂⟩ with hfull | ⟨hno, -⟩
        · rw [List.length_set] at hfull
          omega
        · exact absurd hnone hno
    have hout := hset.sizes (by rw [(h.dirAt hp).size, List.length_set])
    have hin := hadd.sizes hnone (by rw [hout p, (h.dirAt hp).size, List.length_set])
    obtain ⟨j, t, hj, -, hA, hvol, -, hib, hperm⟩ := h.reenter hok hp hlead hk hset hadd
    exact ⟨j, t, hj, hA, hvol, hib, hperm, fun i => (hin i).trans (hout i)⟩

theorem Dotless.put_back {j : Nat} {t : List Slot} (hT : Dotless T) (hj : (T p)[j]? = some (some (n, s)))
    (hA : Added ((T p).set j none) n s t) : Dotless (Function.update T p t) := by
  intro x y hm
  by_cases hp : rootInodeNum = p
  · rw [← hp] at hj hA
    rw [← hp, Function.update_self] at hm
    rcases List.mem_cons.mp (hA.perm.mem_iff.mp (mem_entries.mpr hm)) with he | he
    · cases he
      exact hT _ _ (List.mem_of_getElem? hj)
    · rcases List.mem_or_eq_of_mem_set (mem_entries.mp he) with he | he
      · exact hT x y he
      · cases he
  · rw [Function.update_of_ne hp] at hm
    exact hT x y hm

/-- The names of the root after a move, none of which is a dot name. -/
theorem dotless_of_moved {T' : Nat → List Slot} {up' : Nat → Nat} (hsr : s ≠ rootInodeNum) (hnn : isDotOrDotdotName nn = false)
    (hlook : ∀ x, lookup (dirSlots up' T' rootInodeNum) x = movedLookup T up p n q nn s rootInodeNum x) (hT : Dotless T) :
    Dotless T' := by
  rw [dotless_iff] at hT ⊢
  have hname : nn ≠ dot ∧ nn ≠ dotdot := by simpa [isDotOrDotdotName] using hnn
  have hnone {x : Name} (hx : x ≠ nn) (hl : lookup (T rootInodeNum) x = none) : lookup (T' rootInodeNum) x = none := by
    have hroot : lookup (dirSlots up' T' rootInodeNum) x = lookup (T' rootInodeNum) x := lookup_root T' x
    rw [← hroot, hlook, movedLookup, if_neg fun hc => hx hc.2]
    split
    · rfl
    rw [if_neg fun hc => hsr hc.1.symm, lookup_root]
    exact hl
  exact ⟨hnone hname.1.symm hT.1, hnone hname.2.symm hT.2⟩

/-- The move of an entry, to a directory that does not have to grow for it. -/
theorem MovePost.ungrown {m : Mount} {l : List Nat} {r : Except Errno Unit} (h : Ungrown m.sb V G T up)
    (hp : (V.inode p).isDir = true) (hq : (V.inode q).isDir = true) (hdot : isDotOrDotdotName n = false)
    (hdot' : isDotOrDotdotName nn = false) (hl : Climb up rootInodeNum q l) (hcyc : ¬ ((V.inode s).isDir = true ∧ s ∈ l))
    (hs : some (n, s) ∈ T p) (hroom : p = q ∨ none ∈ dirSlots up T q ∨ (m.sb.freeData V).length < 2)
    (hM : MovePost m.sb V W G T up p n s q nn r) :
    ∃ T' up', Ungrown m.sb W G T' up' ∧ (Dotless T → Dotless T') ∧ W.ibit = V.ibit := by
  cases r with
  | error e =>
    obtain ⟨j, t, hj, hA, hvol, hib, hperm, hsize⟩ :=
      hM.put_back h.vol m.ok hp (not_mem_lead_of_name hdot _ _) (short_of_eq m.ok (h.one p hp))
    exact ⟨_, up, h.of_sizes hvol fun i hi => ⟨(hperm i).isDir ▸ hi, hsize i⟩, fun hT => hT.put_back hj hA, hib⟩
  | ok u =>
    have hroom' : p = q ∨ none ∈ dirSlots up T q := by
      rcases hroom with hpq | hnone | hfew
      · exact .inl hpq
      · exact .inr hnone
      by_cases hpq : p = q
      · exact .inl hpq
      obtain ⟨k, V₁, r₁, W₁, -, hset, hadd, hr₁⟩ := hM
      cases r₁ with
      | error e => cases hr₁.1
      | ok u =>
        rw [slotsWithout, if_neg hpq] at hadd
        have hfree : m.sb.freeData V₁ = m.sb.freeData V := by rw [Superblock.freeData, hset.dbit, Superblock.freeData]
        exact .inr (hadd.mem_of_few (h.one q hq) (hfree ▸ hfew))
    obtain ⟨T', hvol, -, hib, hperm, hlook⟩ := hM.moved h.vol m.ok hp hq hdot hdot' hl hcyc (hroom'.imp_right .inl)
      fun _ => h.few_links m.ok hq
    have hsize := hM.sizes h.vol hp hq hroom'
    exact ⟨T', _, h.of_sizes hvol fun i hi => ⟨(hperm i).isDir ▸ hi, hsize i⟩,
      dotless_of_moved (h.vol.kid hp hs).2.1 hdot' (hlook rootInodeNum h.vol.rootDir), hib⟩

theorem MoveStage.ungrown {m : Mount} {r : Except Errno Unit} (h : Ungrown m.sb V G T up) (hp : (V.inode p).isDir = true)
    (hq : (V.inode q).isDir = true) (hdot : isDotOrDotdotName n = false) (hdot' : isDotOrDotdotName nn = false)
    (hs : some (n, s) ∈ T p) (hroom : p = q ∨ none ∈ dirSlots up T q ∨ (m.sb.freeData V).length < 2)
    (hM : MoveStage m.sb V W G T up user p n s q nn r) :
    ∃ T' up', Ungrown m.sb W G T' up' ∧ (Dotless T → Dotless T') ∧ W.ibit = V.ibit := by
  obtain ⟨l, hl, hstage⟩ := hM
  cases hm : moveChecks V user p s q l with
  | error e =>
    rw [hm] at hstage
    obtain ⟨-, rfl⟩ := hstage
    exact ⟨T, up, h, id, rfl⟩
  | ok u =>
    rw [hm] at hstage
    exact hstage.ungrown h hp hq hdot hdot' hl (not_cycle_of_moveChecks hm) hs hroom

theorem RenamePost.keeps {m : Mount} {oldPath newPath : Path} {r : Except Errno Unit} (h : Ungrown m.sb V G T up)
    (hP : RenamePost m.sb V W G T up user oldPath newPath r)
    (htake : ∀ old new, RenamePaths V T up user oldPath newPath old new → new.leafFound = false →
      old.parentInodeNum = new.parentInodeNum ∨ TakesEntry m.sb V new.parentInodeNum) (enters : Nat → Name → Prop) :
    Keeps m.sb V W T enters := by
  obtain ⟨e, -, rfl, -⟩ | ⟨old, new, hpaths, hpost⟩ := hP
  · exact h.keeps enters
  split at hpost
  · obtain ⟨-, rfl⟩ := hpost
    exact h.keeps enters
  next hne =>
  obtain ⟨hold, hnew, -, hsrc⟩ := hpaths.located h.vol
  unfold RenameStage at hpost
  split at hpost
  next hf =>
    have hst : old.leafInodeNum ≠ new.leafInodeNum := fun he => hne ⟨hf, he.symm⟩
    cases hc : destChecks V T user old.leafInodeNum new.parentInodeNum new.leafInodeNum with
    | error e =>
      rw [hc] at hpost
      obtain ⟨-, rfl⟩ := hpost
      exact h.keeps enters
    | ok u =>
      rw [hc] at hpost
      obtain ⟨V₁, H, j, hD, hj, hV₁, hstage⟩ := hpost
      obtain ⟨hperm, hpt, hqt, hl⟩ := hD.source hV₁ hj hold.dir (kids_of_destChecks h.vol hc) hsrc hst
      have h₁ : Ungrown m.sb V₁ H (without T new.parentInodeNum j new.leafInodeNum) up :=
        h.of_sizes hV₁ fun i hi => hD.sizes h.vol hnew.dir hi
      have hvac : none ∈ dirSlots up (without T new.parentInodeNum j new.leafInodeNum) new.parentInodeNum := by
        have hlt := (List.getElem?_eq_some_iff.mp hj).1
        rw [dirSlots, without, Function.update_of_ne hqt, Function.update_self]
        exact List.mem_append_right _ (List.mem_iff_getElem?.mpr ⟨j, List.getElem?_set_self hlt⟩)
      have hsrc₁ : some (old.leafName, old.leafInodeNum) ∈
          without T new.parentInodeNum j new.leafInodeNum old.parentInodeNum :=
        (List.mem_append.mp (mem_of_lookup hl)).resolve_left (not_mem_lead_of_name hpaths.oldName _ _)
      obtain ⟨T', up', hU, hdots, hib⟩ := hstage.ungrown h₁ ((hperm _ hpt).isDir.trans hold.dir)
        ((hperm _ hqt).isDir.trans hnew.dir) hpaths.oldName hpaths.newName hsrc₁ (.inr (.inl hvac))
      exact ⟨H, T', up', hU, fun hT _ _ => hdots hT.clear,
        fun i hi => .inl (bits_of_cleared (hib.trans hD.ibit) i hi)⟩
  next hf =>
    have hf : new.leafFound = false := by simpa using hf
    have hroom := htake old new hpaths hf
    rw [TakesEntry, hasVacancy_iff h.vol hnew.dir] at hroom
    obtain ⟨T', up', hU, hdots, hib⟩ := hpost.ungrown h hold.dir hnew.dir hpaths.oldName hpaths.newName hsrc hroom
    exact ⟨G, T', up', hU, fun hT _ _ => hdots hT, fun i hi => .inl (hib ▸ hi)⟩

end Moving

end Mofs
