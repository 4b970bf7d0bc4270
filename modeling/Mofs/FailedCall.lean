import Mofs.FreshVolume
import Mofs.Permission

namespace Mofs

open Effect Bytes Slots Mofs.Tree

variable {sb : Superblock} {V W : View} {G H : Owners} {T : Nat → List Slot} {up : Nat → Nat} {D i p c : Nat}
  {user : User} {mode flags : Nat} {path : Path} {info : PathInfo} {name : Name} {slots : List Slot}

/-- Every directory has the entries it had. -/
def SameNames (sb : Superblock) (V W : View) (T : Nat → List Slot) (up : Nat → Nat) : Prop :=
  ∀ D, (V.inode D).isDir = true → ∃ ns ds, DirAt sb W D ns ds (dirSlots up T D)

theorem Vol.sameNames (h : Vol sb V G T up) : SameNames sb V V T up := fun _ hD => ⟨_, _, h.dirAt hD⟩

theorem Frame.sameNames (hF : Frame sb [] V W G H) (hok : sb.Ok) (h : Vol sb V G T up) : SameNames sb V W T up :=
  fun _ hD => ⟨_, _, (h.dirAt hD).of_frame hok hF (h.used_of_isDir hD) List.not_mem_nil⟩

/-- When no inode has changed, the data bitmap has not either. -/
theorem Frame.dbit_eq (hF : Frame sb [] V W G G) (hV : Wf sb V G) {k : Nat} (hk : k < sb.dataBlkNum) : W.dbit k = V.dbit k := by
  rw [Bool.eq_iff_iff, hF.wf.bits k hk, hV.bits k hk]

theorem Frame.view_dbit {d d' : Disk} (hF : Frame sb [] (sb.view d) (sb.view d') G G) (hV : Wf sb (sb.view d) G) :
    (sb.view d').dbit = (sb.view d).dbit := by
  funext k
  by_cases hk : k < sb.dataBlkNum
  · exact hF.dbit_eq hV hk
  · simp [Superblock.view, hk]

/-- The bitmaps, the inode table and the entries of all directories are the same. -/
structure Unchanged (sb : Superblock) (V W : View) (T : Nat → List Slot) (up : Nat → Nat) : Prop where
  ibit : W.ibit = V.ibit
  dbit : W.dbit = V.dbit
  inode : W.inode = V.inode
  names : SameNames sb V W T up

theorem Frame.unchanged {d d' : Disk} (hF : Frame sb [] (sb.view d) (sb.view d') G G) (hok : sb.Ok)
    (h : Vol sb (sb.view d) G T up) : Unchanged sb (sb.view d) (sb.view d') T up where
  ibit := funext fun j => (hF.same j List.not_mem_nil).ibit
  dbit := hF.view_dbit h.wf
  inode := funext fun j => (hF.same j List.not_mem_nil).inode
  names := hF.sameNames hok h

/-- A failed `mkdir` or `create` leaves the bitmaps, the inode table and all entries as they were. -/
theorem failed_creation_unchanged (m : Mount) {d : Disk} (h : Vol m.sb (m.sb.view d) G T up) (user : User) (path : Path)
    (mode : Nat) :
    (∃ r d', exec m.env (mofsMkdirCore m.sb user path mode) d = some (r, d') ∧
      ∀ e, r = .error e → Unchanged m.sb (m.sb.view d) (m.sb.view d') T up) ∧
    ∃ r d', exec m.env (mofsCreateCore m.sb user path mode) d = some (r, d') ∧
      ∀ e, r = .error e → Unchanged m.sb (m.sb.view d) (m.sb.view d') T up := by
  constructor
  · obtain ⟨r, d', hexec, hpost⟩ := (m.ensures_mofsMkdirCore h user path mode).exists rfl
    refine ⟨r, d', hexec, fun e he => ?_⟩
    obtain ⟨hF, -⟩ | ⟨_, _, _, _, _, _, hr, -⟩ := hpost.cases h.wf
    · exact hF.unchanged m.ok h
    · rw [hr] at he
      cases he
  · obtain ⟨r, d', hexec, hpost⟩ := (m.ensures_mofsCreateCore h user path mode).exists rfl
    refine ⟨r, d', hexec, fun e he => ?_⟩
    obtain ⟨hW, -⟩ | ⟨_, _, _, hr, -⟩ := hpost.cases
    · exact ⟨by rw [hW], by rw [hW], by rw [hW], by rw [hW]; exact h.sameNames⟩
    · rw [hr] at he
      cases he

/-- Making a directory under a name that a file has. -/
theorem failed_creation_unchanged_taken : ∃ (m : Mount) (d : Disk) (G : Owners) (T : Nat → List Slot) (up : Nat → Nat) (user : User),
    Vol m.sb (m.sb.view d) G T up ∧ ∃ d', exec m.env (mofsMkdirCore m.sb user pathA 0) d = some (.error .eexist, d') ∧
      Unchanged m.sb (m.sb.view d) (m.sb.view d') T up := by
  obtain ⟨m, d, T, up, user, hS, hvalid, -, -, hnames, -⟩ := exists_fileA
  obtain ⟨⟨r, d', hexec, hun⟩, -⟩ := failed_creation_unchanged m hS.vol user pathA 0
  have hpost := (m.ensures_mofsMkdirCore hS.vol user pathA 0).of_exec rfl hexec
  have hres : resolve (m.sb.view d) up T resolveTarget user pathA = .ok ⟨rootInodeNum, 3, true, letter 0⟩ := by
    rw [resolve_one hvalid rfl (show components pathA = [letter 0] by decide), leafIn_eq (by decide) (if_pos rfl), hnames]
    rfl
  unfold MkdirPost at hpost
  simp only [hres, if_true] at hpost
  obtain ⟨rfl, -⟩ := hpost
  exact ⟨m, d, _, T, up, user, hS.vol, d', hexec, hun _ rfl⟩

section Open

theorem AddPost.ibit_eq {r : Except Errno Unit} (h : AddPost sb V W G p slots name c r) : W.ibit = V.ibit := by
  unfold AddPost at h
  split at h
  · rw [h.2]
  · split at h
    · rw [h.2]
    · split at h
      · exact h.2.ibit
      · split at h
        · exact h.2.ibit
        · split at h
          · exact h.2.ibit
          · rw [h.2]

/-- A file can be created at `path`: its parent may be written and has room for one more entry, and an inode is free. -/
def Creatable (sb : Superblock) (V : View) (G : Owners) (T : Nat → List Slot) (up : Nat → Nat) (user : User) (path : Path) :
    Prop :=
  ∃ info c, Entering sb V T up user path info c ∧
    ¬ NoRoom sb V G info.parentInodeNum (dirSlots up T info.parentInodeNum)

theorem CreatePost.ok_iff {r : Except Errno Nat} (h : Vol sb V G T up) (hP : CreatePost sb V W G T up user path mode r) :
    (∃ c, r = .ok c) ↔ Creatable sb V G T up user path := by
  constructor
  · rintro ⟨c, rfl⟩
    obtain ⟨-, e, he⟩ | ⟨info, c, t, -, hE, hadd⟩ := hP.cases
    · cases he
    · refine ⟨info, c, hE, fun hno => ?_⟩
      obtain ⟨e, he⟩ := (hadd.error_iff (hE.located h).2.1).mpr hno
      cases he
  · rintro ⟨info, c, hE, hroom⟩
    obtain ⟨cs, hfree⟩ := List.head?_eq_some_iff.mp hE.next
    unfold CreatePost at hP
    simp only [hE.resolved, hE.missing, hE.writable, hfree, Bool.false_eq_true, if_false] at hP
    obtain ⟨t, r', W', hadd, ⟨-, rfl, -⟩ | ⟨e, he, -⟩⟩ := hP
    · exact ⟨c, rfl⟩
    · exact absurd ((hadd.error_iff (hE.located h).2.1).mp ⟨e, he⟩) hroom

/-- The inode of a file that was just created, as the checks of `open` see it. -/
theorem CreatePost.openChecks_eq (h : Vol sb V G T up) (hP : CreatePost sb V W G T up user path mode (.ok c)) (flags : Nat) :
    openChecks flags user (W.inode c) = openChecks flags user (newInode 1 ftypeReg user mode 0) := by
  obtain ⟨-, e, he⟩ | ⟨info, c', t, hr, hE, hadd⟩ := hP.cases
  · cases he
  · cases hr
    have hne := (hE.ne h (hE.located h).1).symm
    rw [hadd.inode_other hne, View.enter_inode, Function.update_self]
    rfl

theorem CreatePost.ibit_ne (hP : CreatePost sb V W G T up user path mode (.ok c)) : W.ibit ≠ V.ibit := by
  obtain ⟨-, e, he⟩ | ⟨info, c', t, hr, hE, hadd⟩ := hP.cases
  · cases he
  · cases hr
    intro heq
    have := congrFun heq c
    rw [hadd.ibit_eq, View.enter_ibit, Function.update_self, hE.free.2.2] at this
    cases this

/-- The `open` call creates a file that it then cannot open: it asks for a directory, the mode bits it was given do not let
the caller in, the access mode is none, or no handle is free. -/
structure Strands (sb : Superblock) (V : View) (G : Owners) (T : Nat → List Slot) (up : Nat → Nat) (user : User)
    (pool : Nat → FileHandle) (path : Path) (flags mode : Nat) : Prop where
  missing : resolve V up T resolveInode user path = .error .enoent
  creat : flags &&& oflagCreat ≠ 0
  creatable : Creatable sb V G T up user path
  refused : openChecks flags user (newInode 1 ftypeReg user mode 0) ≠ .ok () ∨ getFreeFilehandleIndex pool = none

theorem Strands.valid {pool : Nat → FileHandle} (h : Strands sb V G T up user pool path flags mode) : user.valid = true := by
  cases hv : user.valid with
  | true => rfl
  | false =>
    have hmiss := h.missing
    rw [resolve, if_pos hv] at hmiss
    split at hmiss <;> cases hmiss

theorem OpenPost.of_strands {r : Except Errno Nat} {P : Pools} (h : Vol sb V G T up)
    (hS : Strands sb V G T up user P.files path flags mode) (hP : OpenPost sb V W G T up user path flags mode r) :
    W.ibit ≠ V.ibit ∧ ∃ e, Mount.openRet P flags r = .error e := by
  unfold OpenPost at hP
  simp only [hS.valid, hS.missing, hS.creat, Bool.true_eq_false, if_false, ne_eq, not_false_eq_true, and_self, if_true] at hP
  obtain ⟨r', hC, rfl⟩ := hP
  obtain ⟨c, rfl⟩ := (hC.ok_iff h).mpr hS.creatable
  refine ⟨hC.ibit_ne, ?_⟩
  dsimp only
  rw [hC.openChecks_eq h]
  cases hchk : openChecks flags user (newInode 1 ftypeReg user mode 0) with
  | error e => exact ⟨e, rfl⟩
  | ok u =>
    have hnone := hS.refused.resolve_left fun hne => hne hchk
    exact ⟨.enfile, by simp only [Except.map, Mount.openRet, hnone]⟩

theorem OpenPost.of_not_strands {r : Except Errno Nat} {P : Pools} {e : Errno} (h : Vol sb V G T up)
    (hS : ¬ Strands sb V G T up user P.files path flags mode) (hP : OpenPost sb V W G T up user path flags mode r)
    (hr : Mount.openRet P flags r = .error e) : W = V := by
  unfold OpenPost at hP
  split at hP
  · exact hP.2
  split at hP
  · exact hP.1
  next e' hres =>
  split at hP
  next hc =>
    obtain ⟨r', hC, hr'⟩ := hP
    obtain ⟨rfl, hcreat⟩ := hc
    obtain ⟨hW, -⟩ | ⟨info, c, t, hok, -⟩ := hC.cases
    · exact hW
    · subst hok
      refine absurd ⟨hres, hcreat, (hC.ok_iff h).mp ⟨c, rfl⟩, ?_⟩ hS
      by_contra hno
      rw [not_or, not_not] at hno
      simp only [hC.openChecks_eq h, hno.1, Except.map] at hr'
      subst hr'
      cases hk : getFreeFilehandleIndex P.files with
      | none => exact hno.2 hk
      | some k =>
        simp only [Mount.openRet, hk] at hr
        cases hr
  next => exact hP.2

/-- A failed `open` leaves the entries of all directories, the inode bitmap and the handle pools as they were, if and only if
it is not one that creates the file first. -/
theorem failed_open_iff (m : Mount) {d : Disk} (h : Vol m.sb (m.sb.view d) G T up) (user : User) (P : Pools) (path : Path)
    (flags mode : Nat) :
    ∃ res P' d', exec m.env (posixCall m.sb user P (.open path flags mode)) d = some (.ok (res, P'), d') ∧
      ((∀ e, res = .error e → SameNames m.sb (m.sb.view d) (m.sb.view d') T up ∧
        (m.sb.view d').ibit = (m.sb.view d).ibit ∧ P' = P) ↔
        ¬ Strands m.sb (m.sb.view d) G T up user P.files path flags mode) := by
  have hcall := m.ensures_posixCall (.open path flags mode) (m.ensures_posixBody_open h user P path flags mode)
  obtain ⟨_, d', hexec, _, ⟨r, hpost, rfl⟩, rfl⟩ := hcall.exists rfl
  refine ⟨_, _, d', hexec, fun hsame hS => ?_, fun hS e he => ?_⟩
  · obtain ⟨hne, e, he⟩ := hpost.of_strands h hS
    exact hne (hsame e (by rw [he])).2.1
  · cases hr : Mount.openRet P flags r with
    | ok x =>
      rw [hr] at he
      cases r with
      | error e' => cases hr
      | ok i =>
        rw [Mount.openRet] at hr
        split at hr
        · cases hr
        · cases hr
          cases he
    | error e' =>
      rw [hpost.of_not_strands h hS hr]
      exact ⟨h.sameNames, rfl, rfl⟩

/-- A new file without permission bits cannot be opened for writing. -/
theorem openChecks_noBits (user : User) :
    openChecks (oflagCreat ||| oflagWronly) user (newInode 1 ftypeReg user 0 0) = .error .eacces := by
  have hmode : (newInode 1 ftypeReg user 0 0).iMode.toNat = ftypeReg := by
    rw [show (newInode 1 ftypeReg user 0 0).iMode = modeBits ftypeReg 0 from rfl, toNat_modeBits (by decide)]
    rfl
  have hcheck (x : Inode) : openChecks (oflagCreat ||| oflagWronly) user x = if x.iMode.toNat &&&
      (2 * if user.uid = x.iUid.toNat then 64 else if isCallerInGroup user x.iGid.toNat then 8 else 1) ≠ 0
    then .ok () else .error .eacces := rfl
  rw [hcheck, hmode]
  refine if_neg (not_not.mpr ?_)
  split
  · decide
  · split <;> decide

theorem MayEnter.creatable (hM : MayEnter sb V T up user path info c) : Creatable sb V G T up user path := by
  refine ⟨info, c, hM.toEntering, ?_⟩
  rintro (hmax | ⟨hfull, -⟩)
  · exact absurd hM.short (Nat.not_lt.mpr hmax)
  · exact hfull (List.mem_append_right _ hM.vacant)

/-- On a fresh volume, the owner of the root opens a new file for writing and gives it no permission bits. -/
theorem Fresh.strands (hF : Fresh sb V) (hok : sb.Ok) (h4 : 3 < sb.inodeNum) (up : Nat → Nat) (pool : Nat → FileHandle) :
    Strands sb V (freshOwners sb) (freshSlots sb) up (rootUser V) pool pathA (oflagCreat ||| oflagWronly) 0 where
  missing := by
    rw [resolve_one rfl rfl (show components pathA = [letter 0] by decide), leafIn_eq (by decide) (if_pos rfl),
      Fresh.lookup_eq_none]
    rfl
  creat := by decide
  creatable := (hF.mayEnter hok h4 rfl (show components pathA = [letter 0] by decide) (by decide) up).creatable
  refused := .inl (by rw [openChecks_noBits]; simp)

theorem failed_open_creates : ∃ (m : Mount) (d d' : Disk) (G : Owners) (T : Nat → List Slot) (up : Nat → Nat) (P P' : Pools)
    (e : Errno), Vol m.sb (m.sb.view d) G T up ∧
    exec m.env (posixCall m.sb (rootUser (m.sb.view d)) P (.open pathA (oflagCreat ||| oflagWronly) 0)) d =
      some (.ok (.error e, P'), d') ∧ (m.sb.view d').ibit ≠ (m.sb.view d).ibit := by
  obtain ⟨m, d, -, hfresh, hnum, -⟩ := exists_fresh
  have hvol := hfresh.vol m.ok fun _ => rootInodeNum
  let P : Pools := ⟨fun _ => .closed, fun _ => .closed⟩
  have hcall := m.ensures_posixCall (.open pathA (oflagCreat ||| oflagWronly) 0)
    (m.ensures_posixBody_open hvol (rootUser (m.sb.view d)) P pathA (oflagCreat ||| oflagWronly) 0)
  obtain ⟨_, d', hexec, _, ⟨r, hpost, rfl⟩, rfl⟩ := hcall.exists rfl
  obtain ⟨hne, e, he⟩ := hpost.of_strands hvol (hfresh.strands m.ok (by omega) (fun _ => rootInodeNum) P.files)
  rw [he] at hexec
  exact ⟨m, d, d', _, _, _, P, P, e, hvol, hexec, hne⟩

/-- With the pool of a volume just mounted. -/
theorem failed_open_iff_fresh : ∃ (m : Mount) (d : Disk) (G : Owners) (T : Nat → List Slot) (up : Nat → Nat) (P : Pools),
    Vol m.sb (m.sb.view d) G T up ∧ ∃ res P' d',
    exec m.env (posixCall m.sb (rootUser (m.sb.view d)) P (.open pathA (oflagCreat ||| oflagWronly) 0)) d =
      some (.ok (res, P'), d') ∧
    ((∀ e, res = .error e → SameNames m.sb (m.sb.view d) (m.sb.view d') T up ∧
      (m.sb.view d').ibit = (m.sb.view d).ibit ∧ P' = P) ↔
      ¬ Strands m.sb (m.sb.view d) G T up (rootUser (m.sb.view d)) P.files pathA (oflagCreat ||| oflagWronly) 0) := by
  obtain ⟨m, d, -, hfresh, -⟩ := exists_fresh
  have hvol := hfresh.vol m.ok fun _ => rootInodeNum
  let P : Pools := ⟨fun _ => .closed, fun _ => .closed⟩
  exact ⟨m, d, _, _, _, P, hvol, failed_open_iff m hvol _ P pathA _ 0⟩

end Open

end Mofs
