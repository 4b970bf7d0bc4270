import Mofs.FsStep

namespace Mofs

open Effect Bytes Slots Mofs.Tree

variable {sb : Superblock} {m : Mount} {V W : View} {G H : Owners} {T T' : Nat → List Slot} {up up' : Nat → Nat} {user : User}
  {oldPath newPath : Path} {p q s D : Nat} {n nn : Name} {l : List Nat}

/-- The way up from a directory, followed through the `..` names. -/
theorem Vol.fs_above (h : Vol sb V G T up) (hq : (V.inode q).isDir = true) (hl : Climb up rootInodeNum q l) :
    (fsOf sb V G T up).Above s q ↔ s ∈ l := by
  induction hl with
  | root =>
    rw [List.mem_singleton]
    constructor
    · intro habove
      rcases Relation.ReflTransGen.cases_head habove with he | ⟨c, ⟨hne, -⟩, -⟩
      · exact he.symm
      · exact absurd rfl hne
    · rintro rfl
      exact .refl
  | @step c l hc hl ih =>
    have hused := h.used_of_isDir hq
    have hup : (fsOf sb V G T up).names c dotdot = some (up c) := by rw [h.fs_names hq, lookup_dotdot hc]
    have ih := ih (h.up_isDir hused hc)
    rw [List.mem_cons, ← ih]
    constructor
    · intro habove
      rcases Relation.ReflTransGen.cases_head habove with he | ⟨c', ⟨-, hnext⟩, hrest⟩
      · exact .inl he.symm
      · rw [hup] at hnext
        cases hnext
        exact .inr hrest
    · rintro (rfl | habove)
      · exact .refl
      · exact .head ⟨hc, hup⟩ habove

section Move

variable (h : Ungrown m.sb V G T up) (hp : (V.inode p).isDir = true) (hq : (V.inode q).isDir = true)

/-- What a rename of a directory does to names has no effect on files. -/
theorem fsOf_rename_file (hd : (V.inode D).isDir = false) (f : (Name → Option Nat) → Name → Option Nat) :
    (fsOf sb V G T up D).map (Obj.rename f) = fsOf sb V G T up D := by
  cases hi : V.ibit D with
  | false =>
    rw [fsOf_of_free hi]
    rfl
  | true =>
    rw [fsOf_of_file hi hd]
    rfl

theorem DirSet.same_file {slots : List Slot} {i : Nat} (hset : DirSet sb V W G p slots) (hp : (V.inode p).isDir = true)
    (hd : (V.inode i).isDir = false) : Same V W G G i := by
  refine hset.frame.same i ?_
  simp only [List.mem_singleton]
  rintro rfl
  rw [hp] at hd
  cases hd

include h hp hq in
/-- A file that moves keeps its contents. -/
theorem MovePost.fileBytes_moved (hroom : p = q ∨ none ∈ dirSlots up T q) (hs : V.ibit s = true)
    (hd : (V.inode s).isDir = false) (hM : MovePost m.sb V W G T up p n s q nn (.ok ())) :
    fileBytes m.sb W G s = fileBytes m.sb V G s := by
  obtain ⟨k, V₁, r₁, W₁, hk, hset, hadd, hr₁⟩ := hM
  cases r₁ with
  | error e => cases hr₁.1
  | ok u =>
    have hroom' : none ∈ slotsWithout up T p q k := by
      rw [slotsWithout]
      split
      · exact List.mem_iff_getElem?.mpr ⟨k, List.getElem?_set_self (List.getElem?_eq_some_iff.mp hk).1⟩
      next hpq => exact hroom.resolve_left hpq
    obtain ⟨-, slots', -, hset'⟩ := hadd.added (.inl hroom')
    have hsame := (hset.same_file hp hd).trans
      (hset'.same_file ((hset.samePerm q).isDir.trans hq) ((hset.samePerm s).isDir.trans hd))
    obtain ⟨V', hV', t, rfl⟩ := hr₁.2
    rw [hd, if_neg (by rintro ⟨⟨⟩, -⟩)] at hV'
    subst hV'
    have hstamp : fileBytes m.sb (V'.setInode s ((V'.inode s).stamp timeCtime t)) G s = fileBytes m.sb V' G s := by
      have hin : (V'.setInode s ((V'.inode s).stamp timeCtime t)).inode s = (V'.inode s).stamp timeCtime t :=
        Function.update_self _ _ _
      rw [fileBytes, hin]
      rfl
    rw [hstamp]
    exact hsame.fileBytes m.ok.blk_pos (h.vol.filesOk.length hs hd)

include h hp hq in
/-- A successful move moves one object of the file system. -/
theorem MovePost.fs_moved (hdot : isDotOrDotdotName n = false) (hdot' : isDotOrDotdotName nn = false)
    (hl : Climb up rootInodeNum q l) (hcyc : ¬ ((V.inode s).isDir = true ∧ s ∈ l)) (hs : some (n, s) ∈ T p)
    (hroom : p = q ∨ none ∈ dirSlots up T q) (hM : MovePost m.sb V W G T up p n s q nn (.ok ())) :
    HoldsFs m.sb W fun fs' => fs' = (fsOf m.sb V G T up).move p n q nn s := by
  obtain ⟨T', hvol, hF, hib, hperm, hlook⟩ := hM.moved h.vol m.ok hp hq hdot hdot' hl hcyc (hroom.imp_right .inl)
    fun _ => h.few_links m.ok hq
  have hsize := hM.sizes h.vol hp hq hroom
  obtain ⟨hsu, hsr, hup⟩ := h.vol.kid hp hs
  have hsp : s ≠ p := by
    rw [← hup]
    exact (h.vol.tree.up_ne hsu hsr).symm
  have hsq : s ≠ q := by
    rintro rfl
    exact hcyc ⟨hq, hl.mem_self⟩
  refine ⟨G, T', _, h.of_sizes hvol fun i hi => ⟨(hperm i).isDir ▸ hi, hsize i⟩, ?_⟩
  funext D
  rw [Fs.move_apply hsp hsq]
  cases hd : (V.inode D).isDir with
  | true =>
    have hused := h.vol.used_of_isDir hd
    exact fsOf_rename hused (by rw [hib]; exact hused) hd (hperm D) (funext (hlook D hd))
  | false =>
    rw [fsOf_rename_file hd]
    by_cases hDs : D = s
    · subst hDs
      rw [fsOf_of_file hsu hd, fsOf_of_file (by rw [hib]; exact hsu) (by rw [(hperm D).isDir, hd]), (hperm D).access,
        hM.fileBytes_moved h hp hq hroom hsu hd]
    · have hDp : D ≠ p := by
        rintro rfl
        rw [hp] at hd
        cases hd
      have hDq : D ≠ q := by
        rintro rfl
        rw [hq] at hd
        cases hd
      exact fsOf_congr m.ok.blk_pos h.vol (hF.same D (by simp [hDp, hDq, hDs])) fun hdir => by
        rw [hd] at hdir
        cases hdir

theorem AddPost.frame_of_vacant {slots : List Slot} {r : Except Errno Unit} (hadd : AddPost sb V W G p slots n s r)
    (hV : Wf sb V G) (hnone : none ∈ slots) : Frame sb [p] V W G G := by
  cases r with
  | error e =>
    obtain rfl := hadd.of_error
    exact Frame.refl hV _
  | ok u =>
    obtain ⟨-, slots', -, hset⟩ := hadd.added (.inl hnone)
    exact hset.frame

include h hp in
/-- A move that finds no place for the new name leaves the file system as it was. -/
theorem MovePost.fs_restored {e : Errno} (hdot : isDotOrDotdotName n = false)
    (hM : MovePost m.sb V W G T up p n s q nn (.error e)) : HoldsFs m.sb W fun fs' => fs' = fsOf m.sb V G T up := by
  obtain ⟨j, t, hj, hA, hvol, hib, hperm, hsize⟩ :=
    hM.put_back h.vol m.ok hp (not_mem_lead_of_name hdot _ _) (short_of_eq m.ok (h.one p hp))
  have hF : Frame m.sb [p] V W G G := by
    obtain ⟨k, V₁, r₁, W₁, hk, hset, -, hr₁⟩ := hM
    cases r₁ with
    | ok u => cases hr₁.1
    | error e' =>
      obtain ⟨-, r₂, hadd⟩ := hr₁
      have hnone : none ∈ (dirSlots up T p).set k none :=
        List.mem_iff_getElem?.mpr ⟨k, List.getElem?_set_self (List.getElem?_eq_some_iff.mp hk).1⟩
      exact hset.frame.trans (hadd.frame_of_vacant hset.frame.wf hnone)
  -- the entry is back, though not necessarily in its old slot
  have hnames (x : Name) : lookup (lead up p ++ t) x = lookup (dirSlots up T p) x := by
    have hnone : lookup (lead up p ++ (T p).set j none) n = none := by rw [lookup_without_slot h.vol hp hj, if_pos rfl]
    rw [(hA.prepend _).lookup hnone, lookup_without_slot h.vol hp hj]
    split
    next hx =>
      rw [hx]
      exact (((h.vol.node p).dir hp).distinct.lookup_of_mem (List.mem_append_right _ (List.mem_of_getElem? hj))).symm
    next => rfl
  refine ⟨G, _, up, h.of_sizes hvol fun i hi => ⟨(hperm i).isDir ▸ hi, hsize i⟩, ?_⟩
  funext D
  by_cases hD : D = p
  · subst hD
    have hused := h.vol.used_of_isDir hp
    rw [fsOf_of_dir hused hp, fsOf_of_dir (by rw [hib]; exact hused) (by rw [(hperm D).isDir, hp]), (hperm D).access,
      dirSlots_update_self, funext hnames]
  · refine fsOf_congr m.ok.blk_pos h.vol (hF.same D (by simpa using hD)) fun _ => ?_
    rw [dirSlots, Function.update_of_ne hD, dirSlots]

include h hp hq in
theorem MovePost.enospc {e : Errno} (hfree : lookup (dirSlots up T q) nn = none)
    (hM : MovePost m.sb V W G T up p n s q nn (.error e)) : e = .enospc := by
  obtain ⟨k, V₁, r₁, W₁, hk, -, hadd, hr₁⟩ := hM
  cases r₁ with
  | ok u => cases hr₁.1
  | error e' =>
    obtain ⟨he, -⟩ := hr₁
    cases he
    refine hadd.enospc ?_ ?_
    · rw [slotsWithout]
      split
      · rw [List.length_set]
        exact short_of_eq m.ok (h.one p hp)
      · exact short_of_eq m.ok (h.one q hq)
    · rw [slotsWithout]
      split
      next hpq =>
        subst hpq
        rw [((h.vol.node p).dir hp).distinct.lookup_clear hk, hfree]
        split
        · rfl
        · rfl
      next => exact hfree

/-- The checks in front of a move. -/
theorem Vol.fs_mayMove (h : Vol sb V G T up) (hq : (V.inode q).isDir = true) (hl : Climb up rootInodeNum q l) :
    (fsOf sb V G T up).MayMove user p s q ↔ moveChecks V user p s q l = .ok () := by
  rw [Fs.MayMove, h.fs_isDir, h.fs_above hq hl, (h.record p).checkDirWrite, (h.record q).checkDirWrite, moveChecks]
  by_cases hcyc : (V.inode s).isDir = true ∧ s ∈ l
  · rw [if_pos hcyc]
    simp [hcyc]
  rw [if_neg hcyc]
  cases hw : mofsCheckDirWrite user (V.inode p) with
  | error e => simp
  | ok u =>
    by_cases hpq : p = q
    · subst hpq
      simp [hcyc, hw]
    · simp [hcyc, hpq]

include h hq in
/-- The new name found a vacant slot, when there are no blocks for its directory to grow by. -/
theorem MovePost.vacant (hroom : p = q ∨ none ∈ dirSlots up T q ∨ (m.sb.freeData V).length < 2)
    (hM : MovePost m.sb V W G T up p n s q nn (.ok ())) : p = q ∨ none ∈ dirSlots up T q := by
  rcases hroom with hpq | hnone | hfew
  · exact .inl hpq
  · exact .inr hnone
  by_cases hpq : p = q
  · exact .inl hpq
  obtain ⟨k, V₁, r₁, W₁, -, hset, hadd, hr₁⟩ := hM
  cases r₁ with
  | error e => cases hr₁.1
  | ok u =>
    rw [slotsWithout, if_neg hpq] at hadd
    have hdata : m.sb.freeData V₁ = m.sb.freeData V := by rw [Superblock.freeData, hset.dbit, Superblock.freeData]
    exact .inr (hadd.mem_of_few (h.one q hq) (hdata ▸ hfew))

include h hp hq in
theorem MoveStage.moves {r : Except Errno Unit} (hdot : isDotOrDotdotName n = false) (hdot' : isDotOrDotdotName nn = false)
    (hs : some (n, s) ∈ T p) (hfree : lookup (dirSlots up T q) nn = none)
    (hroom : p = q ∨ none ∈ dirSlots up T q ∨ (m.sb.freeData V).length < 2)
    (hM : MoveStage m.sb V W G T up user p n s q nn r) :
    HoldsFs m.sb W ((fsOf m.sb V G T up).Moves user p n s q nn r) := by
  obtain ⟨l, hl, hstage⟩ := hM
  have hmay : (fsOf m.sb V G T up).MayMove user p s q ↔ moveChecks V user p s q l = .ok () := h.vol.fs_mayMove hq hl
  cases hm : moveChecks V user p s q l with
  | error e =>
    rw [hm] at hstage hmay
    obtain ⟨rfl, rfl⟩ := hstage
    exact h.holdsFs (.inl ⟨e, rfl, rfl, fun hok => by cases hmay.mp hok⟩)
  | ok u =>
    rw [hm] at hstage
    cases r with
    | error e =>
      obtain rfl := hstage.enospc h hp hq hfree
      exact (hstage.fs_restored h hp hdot).mono fun fs' hfs => .inl ⟨_, rfl, hfs, fun _ => rfl⟩
    | ok u =>
      have hroom' := hstage.vacant h hq hroom
      exact (hstage.fs_moved h hp hq hdot hdot' hl (not_cycle_of_moveChecks hm) hs hroom').mono fun fs' hfs =>
        .inr ⟨rfl, hmay.mpr hm, hfs⟩

end Move

section Rename

/-- The checks in front of the removal of a destination. -/
theorem Vol.fs_mayReplace {t : Nat} (h : Vol sb V G T up) (ht : t ≠ rootInodeNum) :
    (fsOf sb V G T up).MayReplace user s q t ↔ destChecks V T user s q t = .ok () := by
  rw [Fs.MayReplace, h.fs_isDir, h.fs_isDir, (h.record q).checkDirWrite, destChecks]
  cases hs : (V.inode s).isDir with
  | false =>
    cases hd : (V.inode t).isDir with
    | false => simp
    | true => simp
  | true =>
    cases hd : (V.inode t).isDir with
    | false => simp
    | true =>
      rw [h.fs_empty hd ht]
      cases hw : mofsCheckDirWrite user (V.inode q) with
      | error e => simp
      | ok u =>
        by_cases hk : kids T t = []
        · simp [hk]
        · simp [hk]

theorem Vol.renamePaths {old new : PathInfo} (h : Vol sb V G T up) (hP : RenamePaths V T up user oldPath newPath old new) :
    ∃ spot s spot', (fsOf sb V G T up).existing user oldPath = .ok (spot, s) ∧
      (fsOf sb V G T up).place user newPath = .ok spot' ∧ old = ⟨spot.dir, s, true, spot.name⟩ ∧
      new = ⟨spot'.dir, spot'.found.getD noInode, spot'.found.isSome, spot'.name⟩ := by
  have hold := hP.atOld
  have hnew := hP.atNew
  rw [h.fs_existing] at hold
  rw [h.fs_target] at hnew
  cases hex : (fsOf sb V G T up).existing user oldPath with
  | error e =>
    rw [hex] at hold
    cases hold
  | ok x =>
    cases hpl : (fsOf sb V G T up).place user newPath with
    | error e =>
      rw [hpl] at hnew
      cases hnew
    | ok spot' =>
      rw [hex] at hold
      rw [hpl] at hnew
      cases hold
      cases hnew
      exact ⟨x.1, x.2, spot', rfl, rfl, rfl, rfl⟩

theorem RenamePost.renames {r : Except Errno Unit} (h : Ungrown m.sb V G T up)
    (hP : RenamePost m.sb V W G T up user oldPath newPath r)
    (htake : ∀ old new, RenamePaths V T up user oldPath newPath old new → new.leafFound = false →
      old.parentInodeNum = new.parentInodeNum ∨ TakesEntry m.sb V new.parentInodeNum) :
    HoldsFs m.sb W ((fsOf m.sb V G T up).Renames user oldPath newPath r) := by
  obtain ⟨e, rfl, rfl, hno⟩ | ⟨old, new, hpaths, hpost⟩ := hP
  · refine h.holdsFs (.inl ⟨e, rfl, rfl, fun spot s spot' hex hpl => ?_⟩)
    by_contra hdots
    rw [not_or, Bool.not_eq_true, Bool.not_eq_true] at hdots
    refine hno ⟨spot.dir, s, true, spot.name⟩
      ⟨spot'.dir, spot'.found.getD noInode, spot'.found.isSome, spot'.name⟩ ⟨?_, ?_, hdots.1, hdots.2⟩
    · rw [h.vol.fs_existing, hex, Except.map]
    · rw [h.vol.fs_target, hpl, Except.map]
  obtain ⟨hold, hnew, -, hsrc⟩ := hpaths.located h.vol
  obtain ⟨spot, s, spot', hex, hpl, rfl, rfl⟩ := h.vol.renamePaths hpaths
  suffices hat : HoldsFs m.sb W ((fsOf m.sb V G T up).RenamesAt user spot s spot' r) from
    hat.mono fun fs' hfs => .inr ⟨spot, s, spot', hex, hpl, hpaths.oldName, hpaths.newName, hfs⟩
  unfold Fs.RenamesAt
  cases hfound : spot'.found with
  | none =>
    rw [hfound] at hpost hnew
    rw [if_neg (by rintro ⟨⟨⟩, -⟩)] at hpost
    rw [RenameStage, if_neg (by rintro ⟨⟩)] at hpost
    have hroom := htake _ _ hpaths (by rw [hfound]; rfl)
    rw [TakesEntry, hasVacancy_iff h.vol hnew.dir] at hroom
    exact hpost.moves h hold.dir hnew.dir hpaths.oldName hpaths.newName hsrc hnew.found hroom
  | some t =>
    rw [hfound] at hpost hnew
    by_cases hts : t = s
    · subst hts
      rw [if_pos ⟨rfl, rfl⟩] at hpost
      obtain ⟨rfl, rfl⟩ := hpost
      exact h.holdsFs (.inl ⟨rfl, rfl, rfl⟩)
    rw [if_neg fun hc => hts hc.2, RenameStage] at hpost
    dsimp only [Option.isSome_some, Option.getD_some] at hpost
    rw [if_pos rfl] at hpost
    have hslot : some (spot'.name, t) ∈ T spot'.dir :=
      (List.mem_append.mp (mem_of_lookup hnew.found)).resolve_left (not_mem_lead_of_name hpaths.newName _ _)
    have hmay : (fsOf m.sb V G T up).MayReplace user s spot'.dir t ↔ destChecks V T user s spot'.dir t = .ok () :=
      h.vol.fs_mayReplace (h.vol.kid hnew.dir hslot).2.1
    cases hc : destChecks V T user s spot'.dir t with
    | error e =>
      rw [hc] at hmay hpost
      obtain ⟨rfl, rfl⟩ := hpost
      have hno : ¬ (fsOf m.sb W G T up).MayReplace user s spot'.dir t := fun hok => by cases hmay.mp hok
      exact h.holdsFs (.inr (.inl ⟨hts, hno, ⟨e, rfl⟩, rfl⟩))
    | ok u =>
      rw [hc] at hpost
      obtain ⟨V₁, H, j, hD, hj, hV₁, hstage⟩ := hpost
      obtain ⟨hperm, hpt, hqt, hl⟩ := hD.source hV₁ hj hold.dir (kids_of_destChecks h.vol hc) hsrc (Ne.symm hts)
      have h₁ : Ungrown m.sb V₁ H (without T spot'.dir j t) up :=
        h.of_sizes hV₁ fun i hi => hD.sizes h.vol hnew.dir hi
      have hvac : none ∈ dirSlots up (without T spot'.dir j t) spot'.dir := by
        rw [dirSlots, without, Function.update_of_ne hqt, Function.update_self]
        exact List.mem_append_right _
          (List.mem_iff_getElem?.mpr ⟨j, List.getElem?_set_self (List.getElem?_eq_some_iff.mp hj).1⟩)
      have hsrc₁ : some (spot.name, s) ∈ without T spot'.dir j t spot.dir :=
        (List.mem_append.mp (mem_of_lookup hl)).resolve_left (not_mem_lead_of_name hpaths.oldName _ _)
      have hfree : lookup (dirSlots up (without T spot'.dir j t) spot'.dir) spot'.name = none := by
        rw [without, lookup_dropped h.vol hnew.dir hj hqt, if_pos ⟨rfl, rfl⟩]
      have hmoves := hstage.moves h₁ ((hperm _ hpt).isDir.trans hold.dir) ((hperm _ hqt).isDir.trans hnew.dir)
        hpaths.oldName hpaths.newName hsrc₁ hfree (.inr (.inl hvac))
      rw [hD.fs_drop h.vol m.ok.blk_pos hnew.dir hj] at hmoves
      exact hmoves.mono fun fs' hfs => .inr (.inr ⟨hts, hmay.mpr hc, hfs⟩)

end Rename

end Mofs
