import Mofs.Calls
import Mofs.Moved

namespace Mofs

open Effect Bytes Slots Mofs.Tree

variable {sb : Superblock} {V W : View} {G H : Owners} {T : Nat → List Slot} {up : Nat → Nat} {D i p q s c : Nat}
  {user : User} {mode flags : Nat} {path oldPath newPath : Path} {info old new : PathInfo} {n nn name : Name} {slots : List Slot}

/-- Directory `D` has the entries it had, apart from those whose name `but` excepts. -/
def KeepsNames (sb : Superblock) (W : View) (T : Nat → List Slot) (up : Nat → Nat) (D : Nat) (but : Name → Prop) : Prop :=
  ∃ ns ds slots, DirAt sb W D ns ds slots ∧ ∀ x, ¬ but x → lookup slots x = lookup (dirSlots up T D) x

theorem DirAt.keeps {ns ds : List Nat} (h : DirAt sb W D ns ds (dirSlots up T D)) (but : Name → Prop) :
    KeepsNames sb W T up D but := ⟨ns, ds, _, h, fun _ _ => rfl⟩

/-- The caller may change directory `D`, to which `path` leads. -/
structure Permitted (V : View) (T : Nat → List Slot) (up : Nat → Nat) (user : User) (path : Path) (D : Nat) : Prop where
  named : ∃ flags info, flags.parent = true ∧ resolve V up T flags user path = .ok info ∧ info.parentInodeNum = D
  write : mofsCheckDirWrite user (V.inode D) = .ok ()

theorem Entering.permitted (hE : Entering sb V T up user path info c) : Permitted V T up user path info.parentInodeNum :=
  ⟨⟨_, info, rfl, hE.resolved, rfl⟩, hE.writable⟩

/-- The directory of a new entry, and the others. -/
theorem CreatePost.permitted {r : Except Errno Nat} (h : Vol sb V G T up) (hok : sb.Ok)
    (hP : CreatePost sb V W G T up user path mode r) (hD : (V.inode D).isDir = true) (but : Name → Prop) :
    KeepsNames sb W T up D but ∨ Permitted V T up user path D := by
  obtain ⟨rfl, -⟩ | ⟨info, c, t, -, hE, hadd⟩ := hP.cases
  · exact .inl ((h.dirAt hD).keeps but)
  · by_cases hDp : D = info.parentInodeNum
    · exact .inr (hDp ▸ hE.permitted)
    · left
      obtain ⟨hlt, -, hc⟩ := hE.free
      have hu := h.used_of_isDir hD
      have hDc := hE.ne h hD
      have hF := Frame.enter h.wf hlt hc (x := newInode 1 ftypeReg user mode t) rfl rfl
      have hdir := (h.dirAt hD).of_frame hok hF hu (by simpa using hDc)
      exact (hadd.dirAt_other hok (by simp [hDc, hu]) hDp hdir).1.keeps but

theorem MkdirPost.permitted {r : Except Errno Unit} (h : Vol sb V G T up) (hok : sb.Ok)
    (hP : MkdirPost sb V W G T up user path mode r) (hD : (V.inode D).isDir = true) (but : Name → Prop) :
    KeepsNames sb W T up D but ∨ Permitted V T up user path D := by
  have hu := h.used_of_isDir hD
  obtain ⟨hF, -⟩ | ⟨info, c, H, V₁, W₁, t, -, hE, -, hnew, hadd, rfl⟩ := hP.cases h.wf
  · exact .inl (((h.dirAt hD).of_frame hok hF hu (by simp)).keeps but)
  · by_cases hDp : D = info.parentInodeNum
    · exact .inr (hDp ▸ hE.permitted)
    · left
      have hDc := hE.ne h hD
      have hdir := (h.dirAt hD).of_frame hok hnew.frame hu (by simpa using hDc)
      have hdir' := (hadd.dirAt_other hok (by rw [hnew.ibit, Function.update_of_ne hDc]; exact hu) hDp hdir).1
      exact (hdir'.congr (W := W₁.setInode info.parentInodeNum _) (Function.update_of_ne hDp _ _) (fun _ _ => rfl) hok).keeps but

/-- An entry that goes. -/
theorem Unlinked.keeps (h : Vol sb V G T up) (hok : sb.Ok) (hU : Unlinked sb V W G H T up p c name)
    (hD : (V.inode D).isDir = true) (hD' : (W.inode D).isDir = true) (hDp : D ≠ p) :
    DirAt sb W D (H.nodes D) (H.data D) (dirSlots up T D) := by
  have hDc : D ≠ c := by
    rintro rfl
    rw [hU.inode] at hD'
    cases hD'
  exact (h.dirAt hD).of_frame hok hU.frame (h.used_of_isDir hD) (mem_pair.mpr ⟨hDp, hDc⟩)

/-- A removal takes its one entry out of a directory the caller may write. -/
theorem Removal.permitted (h : Vol sb V G T up) (hok : sb.Ok) (hR : Removal sb V W G H T up user path info)
    (hD : (V.inode D).isDir = true) (hD' : (W.inode D).isDir = true) (but : Name → Prop) :
    KeepsNames sb W T up D but ∨ Permitted V T up user path D := by
  by_cases hDp : D = info.parentInodeNum
  · exact .inr ⟨⟨_, info, rfl, hR.resolved, hDp.symm⟩, hDp ▸ hR.writable⟩
  · exact .inl ((hR.unlinked.keeps h hok hD hD' hDp).keeps but)

theorem UnlinkPost.permitted {r : Except Errno Unit} (h : Vol sb V G T up) (hok : sb.Ok)
    (hP : UnlinkPost sb V W G T up user path r) (hD : (V.inode D).isDir = true) (hD' : (W.inode D).isDir = true)
    (but : Name → Prop) : KeepsNames sb W T up D but ∨ Permitted V T up user path D := by
  obtain ⟨rfl, -⟩ | ⟨-, info, H, hR⟩ := hP.cases h
  · exact .inl ((h.dirAt hD).keeps but)
  · exact hR.permitted h hok hD hD' but

theorem RmdirPost.permitted {r : Except Errno Unit} (h : Vol sb V G T up) (hok : sb.Ok)
    (hP : RmdirPost sb V W G T up user path r) (hD : (V.inode D).isDir = true) (hD' : (W.inode D).isDir = true)
    (but : Name → Prop) : KeepsNames sb W T up D but ∨ Permitted V T up user path D := by
  obtain ⟨rfl, -⟩ | ⟨-, info, H, hR⟩ := hP.cases
  · exact .inl ((h.dirAt hD).keeps but)
  · exact hR.permitted h hok hD hD' but

/-- The end of a move leaves all directories but the two parents alone, except for the `..` entry of the moved one. -/
theorem Finished.keeps {srcIsDir : Bool} (h : Vol sb V G T up) (hok : sb.Ok) {W₁ : View}
    (hF : Finished W₁ W G srcIsDir p q s) (hDp : D ≠ p) (hDq : D ≠ q) (hsr : s ≠ rootInodeNum)
    (hsd : srcIsDir = (V.inode s).isDir) (hq0 : q ≠ 0) (hq32 : q < 4294967296)
    (hdir : DirAt sb W₁ D (G.nodes D) (G.data D) (dirSlots up T D))
    (hsrc : srcIsDir = true → DirAt sb W₁ s (G.nodes s) (G.data s) (dirSlots up T s)) :
    KeepsNames sb W T up D fun x => D = s ∧ x = dotdot := by
  obtain ⟨V', hV', t, rfl⟩ := hF
  -- what stands in `D` before the last time stamp
  have hD' : ∃ slots, DirAt sb V' D (G.nodes D) (G.data D) slots ∧
      ∀ x, ¬ (D = s ∧ x = dotdot) → lookup slots x = lookup (dirSlots up T D) x := by
    by_cases hmove : srcIsDir = true ∧ p ≠ q
    · rw [if_pos hmove] at hV'
      obtain ⟨U, t₁, t₂, hU, rfl⟩ := hV'
      have hsD := hsd.symm.trans hmove.1
      have hlarge := (h.dotted hsD hsr).large
      have hdot : Dotted sb W₁ s (G.nodes s) (G.data s) s (up s) (T s) := by
        refine ⟨?_, hlarge⟩
        have := hsrc hmove.1
        rwa [dirSlots, lead_of_ne hsr] at this
      have hin : ((U.setInode p (nlinkInode (W₁.inode p) (-1) t₁)).setInode q (nlinkInode (W₁.inode q) 1 t₂)).inode D =
          U.inode D := by
        simp only [View.setInode, Function.update_of_ne hDq, Function.update_of_ne hDp]
      by_cases hDs : D = s
      · subst hDs
        refine ⟨_, (hdot.rewritten_dirAt hok hq0 hq32 hU).congr hin (fun _ _ => rfl) hok, fun x hx => ?_⟩
        have hxd : x ≠ dotdot := fun he => hx ⟨rfl, he⟩
        rw [dirSlots, lead_of_ne hsr]
        simp only [List.cons_append, List.nil_append, lookup, if_neg hxd.symm]
      · refine ⟨_, hdir.congr (hin.trans (congrFun hU.inode D)) (fun b hb => ?_) hok, fun _ _ => rfl⟩
        refine hU.blk_of_not_mem (by have := hdot.data_pos hok; omega) fun hbs => hDs ?_
        exact h.wf.disjoint D s b hb (h.wf.mem_data hbs)
    · rw [if_neg hmove] at hV'
      subst hV'
      exact ⟨_, hdir, fun _ _ => rfl⟩
  obtain ⟨slots, hslots, hlook⟩ := hD'
  by_cases hDs : D = s
  · subst hDs
    exact ⟨_, _, slots, hslots.setInode rfl rfl rfl rfl, hlook⟩
  · exact ⟨_, _, slots, hslots.congr (Function.update_of_ne hDs _ _) (fun _ _ => rfl) hok, hlook⟩

/-- A move changes entries in the two parents only. -/
theorem MovePost.keeps {r : Except Errno Unit} (h : Vol sb V G T up) (hok : sb.Ok)
    (hM : MovePost sb V W G T up p n s q nn r) (hp : (V.inode p).isDir = true) (hq : (V.inode q).isDir = true)
    (hlead : some (n, s) ∉ lead up p) (hsq : (V.inode s).isDir = true → s ≠ q) (hD : (V.inode D).isDir = true) (hDp : D ≠ p)
    (hDq : D ≠ q) : KeepsNames sb W T up D fun x => D = s ∧ x = dotdot := by
  obtain ⟨k, V₁, r₁, W₁, hk, hset, hadd, hr₁⟩ := hM
  have hmem := (List.mem_append.mp (List.mem_of_getElem? hk)).resolve_left hlead
  obtain ⟨hsu, hsr, hup⟩ := h.kid hp hmem
  have hps : s ≠ p := by
    rw [← hup]
    exact (h.tree.up_ne hsu hsr).symm
  have hdir₁ {x : Nat} (hx : (V.inode x).isDir = true) (hxp : x ≠ p) := (h.dirAt hx).of_frame hok hset.frame
    (h.used_of_isDir hx) (by simpa using hxp)
  have hused₁ {x : Nat} (hx : (V.inode x).isDir = true) : V₁.ibit x = true := by
    rw [hset.ibit]
    exact h.used_of_isDir hx
  cases r₁ with
  | error e =>
    obtain ⟨-, r₂, hback⟩ := hr₁
    exact (hback.dirAt_other hok (hused₁ hD) hDp (hdir₁ hD hDp)).1.keeps _
  | ok u =>
    have hqu := h.used_of_isDir hq
    have hqlt := h.wf.range q hqu
    have hqlow := (h.node q).low hqu
    have hlt := hok.inodes_lt
    simp only [rootInodeNum] at hqlow
    refine hr₁.2.keeps h hok hDp hDq hsr rfl (by omega) (by omega)
      (hadd.dirAt_other hok (hused₁ hD) hDq (hdir₁ hD hDp)).1 fun hs => ?_
    exact (hadd.dirAt_other hok (hused₁ hs) (hsq hs) (hdir₁ hs hps)).1

theorem AddPost.inode_other {j : Nat} {r : Except Errno Unit} (h : AddPost sb V W G q slots name c r) (hj : j ≠ q) :
    W.inode j = V.inode j := by
  have hset {sl' : List Slot} (hs : DirSet sb V W G q sl') : W.inode j = V.inode j :=
    (hs.frame.same j (by simpa using hj)).inode
  unfold AddPost at h
  split at h
  · rw [h.2]
  · split at h
    · rw [h.2]
    · split at h
      · exact hset h.2
      · split at h
        · exact hset h.2
        · split at h
          · exact h.2.others j hj
          · rw [h.2]

theorem MovePost.inode_other {r : Except Errno Unit} (hM : MovePost sb V W G T up p n s q nn r) (hip : i ≠ p) (hiq : i ≠ q)
    (his : i ≠ s) : W.inode i = V.inode i := by
  obtain ⟨k, V₁, r₁, W₁, -, hset, hadd, hr₁⟩ := hM
  have h₁ : V₁.inode i = V.inode i := (hset.frame.same i (by simpa using hip)).inode
  cases r₁ with
  | error e =>
    obtain ⟨-, r₂, hback⟩ := hr₁
    exact (hback.inode_other hip).trans h₁
  | ok u =>
    obtain ⟨-, V', hV', t, rfl⟩ := hr₁
    have h₂ : V'.inode i = W₁.inode i := by
      split at hV'
      · obtain ⟨U, t₁, t₂, hU, rfl⟩ := hV'
        simp only [View.setInode, Function.update_of_ne hiq, Function.update_of_ne hip, hU.inode]
      · rw [hV']
    rw [show (V'.setInode s ((V'.inode s).stamp timeCtime t)).inode i = V'.inode i from Function.update_of_ne his _ _, h₂,
      hadd.inode_other hiq, h₁]

theorem write_of_destChecks {t : Nat} (h : destChecks V T user s q t = .ok ()) : mofsCheckDirWrite user (V.inode q) = .ok () := by
  unfold destChecks at h
  split at h
  · split at h
    · split at h
      · cases h
      · assumption
    · cases h
  · split at h
    · cases h
    · exact h

theorem write_of_moveChecks {l : List Nat} (h : moveChecks V user p s q l = .ok ()) :
    mofsCheckDirWrite user (V.inode p) = .ok () ∧ mofsCheckDirWrite user (V.inode q) = .ok () := by
  unfold moveChecks at h
  split at h
  · cases h
  · split at h
    · cases h
    · next hp =>
      split at h
      · exact ⟨hp, h⟩
      · next hpq =>
        rw [not_not] at hpq
        exact ⟨hp, hpq ▸ hp⟩

/-- The checks and the move: a directory whose names are others than before is one of the two parents, and both may be
changed. -/
theorem MoveStage.keeps {r : Except Errno Unit} (h : Vol sb V G T up) (hok : sb.Ok)
    (hM : MoveStage sb V W G T up user p n s q nn r) (hp : (V.inode p).isDir = true) (hq : (V.inode q).isDir = true)
    (hlead : some (n, s) ∉ lead up p) (hD : (V.inode D).isDir = true) :
    KeepsNames sb W T up D (fun x => D = s ∧ x = dotdot) ∨
      ((D = p ∨ D = q) ∧ mofsCheckDirWrite user (V.inode D) = .ok ()) := by
  obtain ⟨l, hl, hM⟩ := hM
  cases hc : moveChecks V user p s q l with
  | error e =>
    rw [hc] at hM
    rw [hM.2]
    exact .inl ((h.dirAt hD).keeps _)
  | ok u =>
    rw [hc] at hM
    obtain ⟨hwp, hwq⟩ := write_of_moveChecks hc
    by_cases hDp : D = p
    · exact .inr ⟨.inl hDp, hDp ▸ hwp⟩
    · by_cases hDq : D = q
      · exact .inr ⟨.inr hDq, hDq ▸ hwq⟩
      · refine .inl (hM.keeps h hok hp hq hlead (fun hs he => ?_) hD hDp hDq)
        exact not_cycle_of_moveChecks hc ⟨hs, he ▸ hl.mem_self⟩

theorem KeepsNames.of_eq {T' : Nat → List Slot} {but but' : Name → Prop} (h : KeepsNames sb W T' up D but) (hT : T' D = T D)
    (hbut : ∀ x, but x → but' x) : KeepsNames sb W T up D but' := by
  obtain ⟨ns, ds, slots, hdir, hlook⟩ := h
  refine ⟨ns, ds, slots, hdir, fun x hx => ?_⟩
  rw [hlook x fun hb => hx (hbut x hb), dirSlots, hT, dirSlots]

/-- The `..` entry of the directory that a rename of `path` moves. -/
def MovedDotdot (V : View) (T : Nat → List Slot) (up : Nat → Nat) (user : User) (path : Path) (D : Nat) (x : Name) : Prop :=
  x = dotdot ∧ ∃ info, resolve V up T resolveExisting user path = .ok info ∧ info.leafInodeNum = D

theorem RenamePost.permitted {r : Except Errno Unit} (h : Vol sb V G T up) (hok : sb.Ok)
    (hP : RenamePost sb V W G T up user oldPath newPath r) (hD : (V.inode D).isDir = true) (hD' : (W.inode D).isDir = true) :
    KeepsNames sb W T up D (MovedDotdot V T up user oldPath D) ∨
      Permitted V T up user oldPath D ∨ Permitted V T up user newPath D := by
  rcases hP with ⟨-, -, rfl, -⟩ | ⟨old, new, hP, hr⟩
  · exact .inl ((h.dirAt hD).keeps _)
  have hbut (x : Name) (hx : D = old.leafInodeNum ∧ x = dotdot) : MovedDotdot V T up user oldPath D x :=
    ⟨hx.2, old, hP.atOld, hx.1.symm⟩
  have hnamed (hw : mofsCheckDirWrite user (V.inode D) = .ok ()) (he : D = old.parentInodeNum ∨ D = new.parentInodeNum) :
      Permitted V T up user oldPath D ∨ Permitted V T up user newPath D := by
    rcases he with rfl | rfl
    · exact .inl ⟨⟨_, old, rfl, hP.atOld, rfl⟩, hw⟩
    · exact .inr ⟨⟨_, new, rfl, hP.atNew, rfl⟩, hw⟩
  obtain ⟨hold, hnew, -, hsrc⟩ := hP.located h
  have hlead : some (old.leafName, old.leafInodeNum) ∉ lead up old.parentInodeNum := not_mem_lead_of_name hP.oldName _ _
  split at hr
  · rw [hr.2]
    exact .inl ((h.dirAt hD).keeps _)
  next hne =>
  unfold RenameStage at hr
  split at hr
  · next hf =>
    split at hr
    · rw [hr.2]
      exact .inl ((h.dirAt hD).keeps _)
    · next hc =>
      obtain ⟨V₁, H, j, hU, hj, hV₁, hstage⟩ := hr
      have hst : old.leafInodeNum ≠ new.leafInodeNum := fun he => hne ⟨hf, he.symm⟩
      obtain ⟨hperm, hpt, hqt, -⟩ := hU.source hV₁ hj hold.dir (kids_of_destChecks h hc) hsrc hst
      by_cases hDq : D = new.parentInodeNum
      · exact .inr (hnamed (hDq ▸ write_of_destChecks hc) (.inr hDq))
      -- the destination is no directory any more
      have hDt : D ≠ new.leafInodeNum := by
        rintro rfl
        have hzero : (V₁.inode new.leafInodeNum).isDir = false := by rw [hU.inode]; rfl
        obtain ⟨l, -, hstage⟩ := hstage
        split at hstage
        · rw [hstage.2, hzero] at hD'
          cases hD'
        · rw [hstage.inode_other hpt.symm hDq hst.symm, hzero] at hD'
          cases hD'
      have hTD : without T new.parentInodeNum j new.leafInodeNum D = T D := by
        rw [without, Function.update_of_ne hDt, Function.update_of_ne hDq]
      rcases hstage.keeps hV₁ hok ((hperm _ hpt).isDir.trans hold.dir) ((hperm _ hqt).isDir.trans hnew.dir)
        hlead ((hperm D hDt).isDir.trans hD) with hkeep | ⟨he, hw⟩
      · exact .inl (hkeep.of_eq hTD hbut)
      · rw [(hperm D hDt).checkDirWrite] at hw
        exact .inr (hnamed hw he)
  · rcases hr.keeps h hok hold.dir hnew.dir hlead hD with hkeep | ⟨he, hw⟩
    · exact .inl (hkeep.of_eq rfl hbut)
    · exact .inr (hnamed hw he)

/-- The calls that change names, and the paths they are given. -/
def PosixOp.paths : PosixOp → List Path
  | .open path _ _ => [path]
  | .unlink path => [path]
  | .mkdir path _ => [path]
  | .rmdir path => [path]
  | .rename oldPath newPath => [oldPath, newPath]
  | _ => []

/-- The `..` entry of the directory that a call moves. -/
def PosixOp.Moves (V : View) (T : Nat → List Slot) (up : Nat → Nat) (user : User) (D : Nat) (x : Name) : PosixOp → Prop
  | .rename oldPath _ => MovedDotdot V T up user oldPath D x
  | _ => False

theorem OpenPost.permitted {r : Except Errno Nat} (h : Vol sb V G T up) (hok : sb.Ok)
    (hP : OpenPost sb V W G T up user path flags mode r) (hD : (V.inode D).isDir = true) (but : Name → Prop) :
    KeepsNames sb W T up D but ∨ Permitted V T up user path D := by
  have hsame (he : W = V) : KeepsNames sb W T up D but ∨ Permitted V T up user path D := by
    rw [he]
    exact .inl ((h.dirAt hD).keeps but)
  unfold OpenPost at hP
  split at hP
  · exact hsame hP.2
  · split at hP
    · exact hsame hP.1
    · split at hP
      · obtain ⟨r', hC, -⟩ := hP
        exact hC.permitted h hok hD but
      · exact hsame hP.2

/-- One call: a directory that it changed is one that the caller may change, reached by a path of the call. -/
theorem posixCall_permitted (m : Mount) {d d' : Disk} (h : Vol m.sb (m.sb.view d) G T up) {P : Pools} {op : PosixOp}
    (hop : op.paths ≠ []) {x : Except Errno (Except Errno Ret × Pools)}
    (hexec : exec m.env (posixCall m.sb user P op) d = some (x, d')) (hD : ((m.sb.view d).inode D).isDir = true)
    (hD' : ((m.sb.view d').inode D).isDir = true) :
    KeepsNames m.sb (m.sb.view d') T up D (fun x => op.Moves (m.sb.view d) T up user D x) ∨
      ∃ path ∈ op.paths, Permitted (m.sb.view d) T up user path D := by
  have hone {path : Path} (hk : KeepsNames m.sb (m.sb.view d') T up D (fun _ => False) ∨
      Permitted (m.sb.view d) T up user path D) (hp : op.paths = [path]) :
      KeepsNames m.sb (m.sb.view d') T up D (fun x => op.Moves (m.sb.view d) T up user D x) ∨
        ∃ path ∈ op.paths, Permitted (m.sb.view d) T up user path D := by
    rcases hk with hk | hk
    · exact .inl (hk.of_eq rfl fun _ hf => hf.elim)
    · exact .inr ⟨path, by rw [hp]; exact List.mem_singleton_self _, hk⟩
  cases op with
  | «open» path flags mode =>
    obtain ⟨-, ⟨r, hr, -⟩, -⟩ :=
      (m.ensures_posixCall (.open path flags mode) (m.ensures_posixBody_open h user P path flags mode)).of_exec rfl hexec
    exact hone (hr.permitted h m.ok hD _) rfl
  | unlink path =>
    obtain ⟨-, ⟨r, hr, -⟩, -⟩ := (m.ensures_posixCall (.unlink path)
      (m.ensures_done (m.ensures_mofsUnlinkCore h user path) P)).of_exec rfl hexec
    exact hone (hr.permitted h m.ok hD hD' _) rfl
  | mkdir path mode =>
    obtain ⟨-, ⟨r, hr, -⟩, -⟩ := (m.ensures_posixCall (.mkdir path mode)
      (m.ensures_done (m.ensures_mofsMkdirCore h user path mode) P)).of_exec rfl hexec
    exact hone (hr.permitted h m.ok hD _) rfl
  | rmdir path =>
    obtain ⟨-, ⟨r, hr, -⟩, -⟩ := (m.ensures_posixCall (.rmdir path)
      (m.ensures_done (m.ensures_mofsRmdirCore h user path) P)).of_exec rfl hexec
    exact hone (hr.permitted h m.ok hD hD' _) rfl
  | rename oldPath newPath =>
    obtain ⟨-, ⟨r, hr, -⟩, -⟩ := (m.ensures_posixCall (.rename oldPath newPath)
      (m.ensures_done (m.ensures_mofsRenameCore h user oldPath newPath) P)).of_exec rfl hexec
    rcases hr.permitted h m.ok hD hD' with hk | hk | hk
    · exact .inl hk
    · exact .inr ⟨oldPath, by simp [PosixOp.paths], hk⟩
    · exact .inr ⟨newPath, by simp [PosixOp.paths], hk⟩
  | _ => exact absurd rfl hop

theorem write_search_of_checkDirWrite {x : Inode} (h : mofsCheckDirWrite user x = .ok ()) :
    mofsCheckOpenPermission oflagWronly user x = .ok () ∧ mofsCheckOpenPermission oflagSearch user x = .ok () := by
  refine ⟨?_, checkDirSearch_of_write h⟩
  rw [mofsCheckDirWrite] at h
  cases hw : mofsCheckOpenPermission oflagWronly user x with
  | error e =>
    rw [hw] at h
    cases h
  | ok u => rfl

/-- No directory is changed without permission: the caller may write and search it, and may search every directory on the
path that names the changed entry. -/
theorem changed_directory_permitted (m : Mount) {d d' : Disk} (h : Vol m.sb (m.sb.view d) G T up) {P P' : Pools} {op : PosixOp}
    (hop : op.paths ≠ []) {res : Except Errno Ret}
    (hexec : exec m.env (posixCall m.sb user P op) d = some (.ok (res, P'), d')) (hD : ((m.sb.view d).inode D).isDir = true)
    (hD' : ((m.sb.view d').inode D).isDir = true)
    (hchg : ¬ KeepsNames m.sb (m.sb.view d') T up D (fun x => op.Moves (m.sb.view d) T up user D x)) :
    mofsCheckOpenPermission oflagWronly user ((m.sb.view d).inode D) = .ok () ∧
      mofsCheckOpenPermission oflagSearch user ((m.sb.view d).inode D) = .ok () ∧
      ∃ path ∈ op.paths, D ∈ traversed up T path ∧
        (∃ flags info, flags.parent = true ∧ resolve (m.sb.view d) up T flags user path = .ok info ∧ info.parentInodeNum = D) ∧
        ∀ e ∈ traversed up T path, e ≠ rootInodeNum → mofsCheckOpenPermission oflagSearch user ((m.sb.view d).inode e) = .ok () := by
  obtain ⟨path, hpath, hperm⟩ := (posixCall_permitted m h hop hexec hD hD').resolve_left hchg
  obtain ⟨hw, hs⟩ := write_search_of_checkDirWrite hperm.write
  obtain ⟨flags, info, hparent, hres, hinfo⟩ := hperm.named
  obtain ⟨hmem, hall⟩ := resolve_traversed hparent hres
  refine ⟨hw, hs, path, hpath, hinfo ▸ hmem, ⟨flags, info, hparent, hres, hinfo⟩, fun e he hr => ?_⟩
  have ht := hall e he
  rw [mayTraverse, if_neg hr] at ht
  split at ht
  · cases ht
  · exact ht

/-- The owner of the root directory of a fresh volume makes a directory there. -/
theorem changed_directory_permitted_root : ∃ (m : Mount) (d d' : Disk) (G : Owners) (T : Nat → List Slot) (up : Nat → Nat)
    (user : User) (P P' : Pools) (res : Except Errno Ret), Vol m.sb (m.sb.view d) G T up ∧
    exec m.env (posixCall m.sb user P (.mkdir pathA 0)) d = some (.ok (res, P'), d') ∧
    ((m.sb.view d).inode rootInodeNum).isDir = true ∧ ((m.sb.view d').inode rootInodeNum).isDir = true ∧
    ¬ KeepsNames m.sb (m.sb.view d') T up rootInodeNum
      (fun x => PosixOp.Moves (m.sb.view d) T up user rootInodeNum x (.mkdir pathA 0)) ∧
    mofsCheckOpenPermission oflagWronly user ((m.sb.view d).inode rootInodeNum) = .ok () := by
  obtain ⟨m, d, -, hfresh, hnum, -, hroom, -⟩ := exists_fresh
  have hvol := hfresh.vol m.ok fun _ => rootInodeNum
  have hM := hfresh.mayEnter m.ok (by omega) rfl (show components pathA = [letter 0] by decide) (by decide) fun _ => rootInodeNum
  have hcall := m.ensures_posixCall (P := ⟨fun _ => .closed, fun _ => .closed⟩) (.mkdir pathA 0)
    (m.ensures_done (m.ensures_mofsMkdirCore hvol (rootUser (m.sb.view d)) pathA 0) _)
  obtain ⟨x, d', hexec, r', ⟨r, hr, rfl⟩, rfl⟩ := hcall.exists rfl
  obtain ⟨-, H, j, hD⟩ := hr.succeeds hvol m.ok hM hroom (by rw [hfresh.links]; decide)
  have hroot : ((m.sb.view d').inode rootInodeNum).isDir = true := hD.vol.rootDir
  have hchg : ¬ KeepsNames m.sb (m.sb.view d') (freshSlots m.sb) (fun _ => rootInodeNum) rootInodeNum
      (fun x => PosixOp.Moves (m.sb.view d) (freshSlots m.sb) (fun _ => rootInodeNum) (rootUser (m.sb.view d)) rootInodeNum x
        (.mkdir pathA 0)) := by
    rintro ⟨ns, ds, slots, hdir, hlook⟩
    have hl := hlook (letter 0) id
    rw [hdir.unique (hD.vol.dirAt hroot), lookup_entered hD.vacancy (Fresh.lookup_eq_none _) (by decide) (by decide),
      if_pos ⟨rfl, rfl⟩, Fresh.lookup_eq_none] at hl
    cases hl
  exact ⟨m, d, d', _, _, _, _, _, _, _, hvol, hexec, hfresh.isDir, hroot, hchg,
    (changed_directory_permitted m hvol (by simp [PosixOp.paths]) hexec hfresh.isDir hroot hchg).1⟩

end Mofs
