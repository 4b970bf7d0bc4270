import Mofs.Moved

namespace Mofs

open Effect Bytes Slots Mofs.Tree

variable {sb : Superblock} {U V W : View} {F G H : Owners} {T : Nat → List Slot} {up : Nat → Nat} {i p q s k j : Nat}
  {user : User} {oldPath newPath : Path} {old new : PathInfo} {n nn : Name} {slots : List Slot}

/-- The same names, inodes in use, link counts, and sizes and contents of files as before. -/
structure Untouched (sb : Superblock) (V W : View) (G H : Owners) (T : Nat → List Slot) (up : Nat → Nat) : Prop where
  ibit : W.ibit = V.ibit
  links : ∀ i, (W.inode i).iLinks = (V.inode i).iLinks
  size : ∀ i, (V.inode i).isDir = false → (W.inode i).iSize = (V.inode i).iSize
  bytes : ∀ i, V.ibit i = true → (V.inode i).isDir = false → fileBytes sb W H i = fileBytes sb V G i
  names : ∀ i, (V.inode i).isDir = true → ∃ slots, DirAt sb W i (H.nodes i) (H.data i) slots ∧
    ∀ x, lookup slots x = lookup (dirSlots up T i) x

theorem Untouched.refl (h : Vol sb V G T up) : Untouched sb V V G G T up :=
  ⟨rfl, fun _ => rfl, fun _ _ => rfl, fun _ _ _ => rfl, fun _ hd => ⟨_, h.dirAt hd, fun _ => rfl⟩⟩

/-- Only one directory has other slots, with the same names. -/
theorem Untouched.of_dir (h : Vol sb V G T up) (hok : sb.Ok) (hp : (V.inode p).isDir = true) (hF : Frame sb [p] V W G G)
    (hib : W.ibit = V.ibit) (hlinks : (W.inode p).iLinks = (V.inode p).iLinks)
    (hdir : DirAt sb W p (G.nodes p) (G.data p) slots) (hlook : ∀ x, lookup slots x = lookup (dirSlots up T p) x) :
    Untouched sb V W G G T up := by
  have hother {x : Nat} (hx : x ≠ p) := hF.same x (by simpa using hx)
  have hne {x : Nat} (hx : (V.inode x).isDir = false) : x ≠ p := by
    rintro rfl
    rw [hp] at hx
    cases hx
  refine ⟨hib, fun x => ?_, fun x hx => ?_, fun x hx hd => ?_, fun x hd => ?_⟩
  · by_cases hxp : x = p
    · exact hxp ▸ hlinks
    · rw [(hother hxp).inode]
  · rw [(hother (hne hx)).inode]
  · exact (hother (hne hd)).fileBytes hok.blk_pos (h.filesOk.length hx hd)
  · by_cases hxp : x = p
    · subst hxp
      exact ⟨slots, hdir, hlook⟩
    · exact ⟨_, (h.dirAt hd).of_frame hok hF (h.used_of_isDir hd) (by simpa using hxp), fun _ => rfl⟩

/-- When a rename that fails has lost something: the destination was removed and the move is then refused, or the entry was
taken out, finds no place in its new directory, and cannot be put back because its old one has the maximal size. -/
def RenameLoses (sb : Superblock) (V : View) (G : Owners) (T : Nat → List Slot) (up : Nat → Nat) (user : User)
    (old new : PathInfo) : Prop :=
  ∃ l, Climb up rootInodeNum new.parentInodeNum l ∧
    if new.leafFound = true then
      new.leafInodeNum ≠ old.leafInodeNum ∧
        destChecks V T user old.leafInodeNum new.parentInodeNum new.leafInodeNum = .ok () ∧
        (moveChecks V user old.parentInodeNum old.leafInodeNum new.parentInodeNum l ≠ .ok () ∨
          sb.maxSlots ≤ (dirSlots up T new.parentInodeNum).length)
    else
      moveChecks V user old.parentInodeNum old.leafInodeNum new.parentInodeNum l = .ok () ∧
        sb.maxSlots ≤ (dirSlots up T old.parentInodeNum).length ∧
        NoPlace sb V G T up old.parentInodeNum new.parentInodeNum

/-- The entry of `s` is taken out of `p` and finds no place: it is put back, unless `p` has the maximal size. -/
theorem MovePost.failed (h : Vol sb V G T up) (hok : sb.Ok) (hp : (V.inode p).isDir = true) {e : Errno}
    (hM : MovePost sb V W G T up p n s q nn (.error e)) :
    W.ibit = V.ibit ∧
      if sb.maxSlots ≤ (dirSlots up T p).length then
        ∃ slots, DirAt sb W p (G.nodes p) (G.data p) slots ∧ lookup slots n = none
      else Untouched sb V W G G T up := by
  obtain ⟨k, V₁, r₁, W₁, hk, hset, hadd, hr₁⟩ := hM
  cases r₁ with
  | ok u => cases hr₁.1
  | error e' =>
    obtain ⟨-, r₂, hback⟩ := hr₁
    have hdist := ((h.node p).dir hp).distinct
    have hgone : lookup ((dirSlots up T p).set k none) n = none := by
      rw [hdist.lookup_clear hk, if_pos rfl]
    by_cases hmax : sb.maxSlots ≤ (dirSlots up T p).length
    · rw [if_pos hmax]
      unfold AddPost at hback
      rw [List.length_set, if_pos hmax] at hback
      rw [hback.2]
      exact ⟨hset.ibit, _, hset.dir, hgone⟩
    · rw [if_neg hmax]
      have hlt := (List.getElem?_eq_some_iff.mp hk).1
      have hvac : none ∈ (dirSlots up T p).set k none := List.mem_iff_getElem.mpr ⟨k, by simpa using hlt, by simp⟩
      have hok₂ : r₂ = .ok () := by
        cases r₂ with
        | ok u => rfl
        | error e₂ =>
          rcases (hback.error_iff hgone).mp ⟨e₂, rfl⟩ with hc | ⟨hc, -⟩
          · rw [List.length_set] at hc
            exact absurd hc hmax
          · exact absurd hvac hc
      subst hok₂
      obtain ⟨-, slots', hA, hset'⟩ := hback.added (.inl hvac)
      have hib := hset'.ibit.trans hset.ibit
      refine ⟨hib, Untouched.of_dir h hok hp (hset.frame.trans hset'.frame) hib
        (by rw [hset'.attrs.links, hset.attrs.links]) hset'.dir fun x => ?_⟩
      rw [hA.lookup hgone, hdist.lookup_clear hk]
      by_cases hx : x = n
      · rw [if_pos hx, hx, hdist.lookup_of_mem (List.mem_of_getElem? hk)]
      · rw [if_neg hx, if_neg hx]

theorem moveChecks_congr (hs : SamePerm (V.inode s) (W.inode s)) (hp : SamePerm (V.inode p) (W.inode p))
    (hq : SamePerm (V.inode q) (W.inode q)) (l : List Nat) : moveChecks W user p s q l = moveChecks V user p s q l := by
  rw [moveChecks, moveChecks, hs.isDir, hp.checkDirWrite, hq.checkDirWrite]

/-- Once the destination is gone, the rename fails exactly when the checks refuse the move or its directory has the
maximal size, and then it does not bring the destination back. -/
theorem MoveStage.after_removal {t j : Nat} {l : List Nat} {V₁ : View} (h : Vol sb V G T up) (hok : sb.Ok)
    (hD : Unlinked sb V V₁ G H T up q t nn) (hj : (T q)[j]? = some (some (nn, t))) (hV₁ : Vol sb V₁ H (without T q j t) up)
    (hp : (V.inode p).isDir = true) (hq : (V.inode q).isDir = true) (hleaf : kids T t = []) (hs : some (n, s) ∈ T p)
    (hst : s ≠ t) (hl : Climb up rootInodeNum q l) {r : Except Errno Unit}
    (hM : MoveStage sb V₁ W H (without T q j t) up user p n s q nn r) :
    ((∃ e, r = .error e) ↔ moveChecks V user p s q l ≠ .ok () ∨ sb.maxSlots ≤ (dirSlots up T q).length) ∧
      ((∃ e, r = .error e) → W.ibit t = false) := by
  obtain ⟨hperm, hpt, hqt, -⟩ := hD.source hV₁ hj hp hleaf hs hst
  obtain ⟨l', hl', hM⟩ := hM
  obtain rfl := hl'.unique hl
  have ht : V₁.ibit t = false := by rw [hD.ibit, Function.update_self]
  rw [moveChecks_congr (hperm s hst) (hperm p hpt) (hperm q hqt)] at hM
  have hslots : dirSlots up (without T q j t) q = lead up q ++ (T q).set j none := by
    rw [dirSlots, without, Function.update_of_ne hqt, Function.update_self]
  cases hc : moveChecks V user p s q l' with
  | error e =>
    rw [hc] at hM
    refine ⟨iff_of_true ⟨e, hM.1⟩ (.inl (by simp)), fun _ => ?_⟩
    rw [hM.2]
    exact ht
  | ok u =>
    rw [hc] at hM
    have hpd := (hperm p hpt).isDir.trans hp
    have hfree : lookup (dirSlots up (without T q j t) q) nn = none := by
      rw [hslots, lookup_without_slot h hq hj, if_pos rfl]
    have hvac : none ∈ dirSlots up (without T q j t) q := by
      have hlt := (List.getElem?_eq_some_iff.mp hj).1
      rw [hslots]
      exact List.mem_append_right _ (List.mem_iff_getElem.mpr ⟨j, by simpa using hlt, by simp⟩)
    have hlen : (dirSlots up (without T q j t) q).length = (dirSlots up T q).length := by
      rw [hslots, dirSlots, List.length_append, List.length_append, List.length_set]
    constructor
    · rw [hM.error_iff hV₁ hpd hfree, NoPlace, hlen]
      simp [hvac]
    · rintro ⟨e, rfl⟩
      rw [(hM.failed hV₁ hok hpd).1, ht]

/-- Under the condition of `RenameLoses` the rename fails and has changed something. -/
theorem RenameStage.touched {r : Except Errno Unit} (h : Vol sb V G T up) (hok : sb.Ok)
    (hP : RenamePaths V T up user oldPath newPath old new) (hR : RenameStage sb V W G T up user old new r)
    (hlose : RenameLoses sb V G T up user old new) :
    (∃ e, r = .error e) ∧ ∀ H, ¬ Untouched sb V W G H T up := by
  obtain ⟨hold, hnew, -, hsrc⟩ := hP.located h
  obtain ⟨l, hl, hlose⟩ := hlose
  unfold RenameStage at hR
  by_cases hf : new.leafFound = true
  · rw [if_pos hf] at hR hlose
    obtain ⟨hst, hc, hwhy⟩ := hlose
    rw [hc] at hR
    obtain ⟨V₁, H, j, hD, hj, hV₁, hstage⟩ := hR
    obtain ⟨hfail, hgone⟩ :=
      hstage.after_removal h hok hD hj hV₁ hold.dir hnew.dir (kids_of_destChecks h hc) hsrc hst.symm hl
    have herr := hfail.mpr hwhy
    refine ⟨herr, fun H' hU => ?_⟩
    have hused := (h.kid hnew.dir (List.mem_of_getElem? hj)).1
    rw [← hU.ibit, hgone herr] at hused
    cases hused
  · rw [if_neg hf] at hR hlose
    obtain ⟨hm, hmax, hno⟩ := hlose
    obtain ⟨l', hl', hstage⟩ := hR
    obtain rfl := hl'.unique hl
    rw [hm] at hstage
    have hfree := hnew.found
    rw [if_neg hf] at hfree
    obtain ⟨e, rfl⟩ := (hstage.error_iff h hold.dir hfree).mpr hno
    have hback := (hstage.failed h hok hold.dir).2
    rw [if_pos hmax] at hback
    obtain ⟨slots, hdir, hgone⟩ := hback
    refine ⟨⟨e, rfl⟩, fun H' hU => ?_⟩
    obtain ⟨slots', hdir', hlook⟩ := hU.names _ hold.dir
    have hl := hlook old.leafName
    rw [← hdir.unique hdir', hgone, ((h.node _).dir hold.dir).distinct.lookup_of_mem (List.mem_append_right _ hsrc)] at hl
    cases hl

end Mofs
