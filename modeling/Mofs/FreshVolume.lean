import Mofs.DirMap
import Mofs.NewEntry

namespace Mofs

open Effect Bytes Slots Mofs.Tree

variable {sb : Superblock} {V W : View} {G H : Owners} {T : Nat → List Slot} {up : Nat → Nat} {p c j : Nat} {user : User}
  {mode : Nat} {path : Path} {name : Name} {x : Inode}

/-- The ordinary slots of a fresh volume: those of its root, all vacant. -/
def freshSlots (sb : Superblock) (i : Nat) : List Slot :=
  if i = rootInodeNum then List.replicate (entriesPerBlk sb) none else []

theorem kids_freshSlots (i : Nat) : kids (freshSlots sb) i = [] := by
  rw [kids, freshSlots]
  split
  · rw [entries_replicate_none]
    rfl
  · rfl

theorem Fresh.used (h : Fresh sb V) {i : Nat} (hi : V.ibit i = true) : i = rootInodeNum := by
  rw [h.ibit] at hi
  exact of_decide_eq_true hi

theorem Fresh.rootUsed (h : Fresh sb V) : V.ibit rootInodeNum = true := by
  rw [h.ibit]
  rfl

theorem Fresh.rootDirAt (h : Fresh sb V) (hok : sb.Ok) : DirAt sb V rootInodeNum ((freshOwners sb).nodes rootInodeNum)
    ((freshOwners sb).data rootInodeNum) (List.replicate (entriesPerBlk sb) none) := by
  have hdir := (h.dirAt hok (x := V.blk sb.dataRegionStart)
    (show (List.replicate (entriesPerBlk sb) (none : Slot)).length = entriesPerBlk sb by simp) fun k hk => ?_).2
  · have hself : V.setBlk sb.dataRegionStart (V.blk sb.dataRegionStart) = V :=
      View.ext rfl rfl rfl (Function.update_eq_self _ _)
    rwa [hself] at hdir
  · rw [h.dir, List.getD_eq_getElem _ _ hk, List.getElem_replicate]
    exact (rfl : (fun _ => (0 : UInt8)) (direntBytes * k) = 0)

/-- A fresh volume is well formed. -/
theorem Fresh.vol (h : Fresh sb V) (hok : sb.Ok) (up : Nat → Nat) : Vol sb V (freshOwners sb) (freshSlots sb) up := by
  have hslots : dirSlots up (freshSlots sb) rootInodeNum = List.replicate (entriesPerBlk sb) none := by
    rw [dirSlots, lead_root, freshSlots, if_pos rfl, List.nil_append]
  refine ⟨h.wf hok, h.isDir, ⟨h.rootUsed, fun i _ c hc => ?_, fun c hc hr => absurd (h.used hc) hr, fun i _ => ?_,
    fun c hc => ⟨[rootInodeNum], by rw [h.used hc]; exact .root⟩⟩, fun i => ?_⟩
  · rw [kids_freshSlots] at hc
    cases hc
  · rw [kids_freshSlots]
    exact List.nodup_nil
  · by_cases hi : i = rootInodeNum
    · subst hi
      refine NodeOk.of_dir hok h.rootUsed (Nat.le_refl _) h.isDir ⟨hslots ▸ h.rootDirAt hok, by rw [hslots]; simp, ?_, ?_⟩
      · rw [hslots, Distinct, entries_replicate_none]
        exact List.nodup_nil
      · rw [h.links, kids_freshSlots]
        rfl
    · exact NodeOk.of_free (h.wf hok) (by rw [h.ibit]; exact decide_eq_false hi) (h.zero i hi) (if_neg hi)

section Permissions

theorem and_ne_zero {a b w : Nat} (h : w &&& a = a) (hb : a &&& b = b) (h0 : b ≠ 0) : w &&& b ≠ 0 := by
  rw [← hb, ← Nat.and_assoc, h, hb]
  exact h0

theorem checkWronly_eq (user : User) (x : Inode) : mofsCheckOpenPermission oflagWronly user x =
    if x.iMode.toNat &&& (2 * if user.uid = x.iUid.toNat then 64 else if isCallerInGroup user x.iGid.toNat then 8 else 1) ≠ 0
    then .ok () else .error .eacces := rfl

theorem checkSearch_eq (user : User) (x : Inode) : mofsCheckOpenPermission oflagSearch user x =
    if x.iMode.toNat &&& (if user.uid = x.iUid.toNat then 64 else if isCallerInGroup user x.iGid.toNat then 8 else 1) ≠ 0
    then .ok () else .error .eacces := rfl

/-- The owner may change a directory with the owner's write and search bits. -/
theorem checkDirWrite_owner (huid : user.uid = x.iUid.toNat) (hmode : x.iMode.toNat &&& 0o300 = 0o300) :
    mofsCheckDirWrite user x = .ok () := by
  rw [mofsCheckDirWrite, mofsCheckDirTraverse, checkWronly_eq, checkSearch_eq, if_pos huid,
    if_pos (and_ne_zero hmode (by decide) (by decide)), if_pos (and_ne_zero hmode (by decide) (by decide))]
  rfl

/-- Everybody may change a directory with all write and search bits. -/
theorem checkDirWrite_all (hmode : x.iMode.toNat &&& 0o333 = 0o333) (user : User) : mofsCheckDirWrite user x = .ok () := by
  rw [mofsCheckDirWrite, mofsCheckDirTraverse, checkWronly_eq, checkSearch_eq]
  split
  · rw [if_pos (and_ne_zero hmode (by decide) (by decide)), if_pos (and_ne_zero hmode (by decide) (by decide))]
    rfl
  · split
    · rw [if_pos (and_ne_zero hmode (by decide) (by decide)), if_pos (and_ne_zero hmode (by decide) (by decide))]
      rfl
    · rw [if_pos (and_ne_zero hmode (by decide) (by decide)), if_pos (and_ne_zero hmode (by decide) (by decide))]
      rfl

theorem checkDirSearch_of_write (h : mofsCheckDirWrite user x = .ok ()) : mofsCheckDirTraverse user x = .ok () := by
  rw [mofsCheckDirWrite] at h
  cases hw : mofsCheckOpenPermission oflagWronly user x with
  | error e =>
    rw [hw] at h
    cases h
  | ok u =>
    rw [hw] at h
    exact h

theorem checkDirSearch_all (hmode : x.iMode.toNat &&& 0o333 = 0o333) (user : User) : mofsCheckDirTraverse user x = .ok () :=
  checkDirSearch_of_write (checkDirWrite_all hmode user)

end Permissions

/-- The owner of the root directory as a caller. -/
def rootUser (V : View) : User := ⟨(V.inode rootInodeNum).iUid.toNat, (V.inode rootInodeNum).iGid.toNat, [], true⟩

theorem Fresh.rootWritable (h : Fresh sb V) (hW : SamePerm (V.inode rootInodeNum) (W.inode rootInodeNum)) :
    mofsCheckDirWrite (rootUser V) (W.inode rootInodeNum) = .ok () := by
  rw [hW.checkDirWrite]
  refine checkDirWrite_owner rfl ?_
  rw [h.mode]
  decide

/-- Any call on a path of one component finds an empty root. -/
theorem Fresh.lookup_eq_none (name : Name) : lookup (dirSlots up (freshSlots sb) rootInodeNum) name = none := by
  rw [lookup_root, freshSlots, if_pos rfl, Slots.lookup_eq_none]
  exact fun c hm => absurd (List.eq_of_mem_replicate hm) (by simp)

theorem Fresh.mayEnter (h : Fresh sb V) (hok : sb.Ok) (h4 : 3 < sb.inodeNum) (hhead : path.1.head? = some slash)
    (hc : components path = [name]) (hlen : name.length < filenameLen) (up : Nat → Nat) :
    MayEnter sb V (freshSlots sb) up (rootUser V) path ⟨rootInodeNum, noInode, false, name⟩ 3 where
  resolved := by
    rw [resolve_one rfl hhead hc, leafIn_eq hlen (if_pos rfl), Fresh.lookup_eq_none]
    rfl
  missing := rfl
  writable := h.rootWritable (SamePerm.refl _)
  next := head_freeInodes (Nat.le_refl 3) h4 (by rw [h.ibit]; rfl) fun i hi hi3 => absurd hi (by omega)
  vacant := by
    have := hok.entries_ge
    rw [freshSlots, if_pos rfl, List.mem_replicate]
    exact ⟨by omega, rfl⟩
  short := by
    rw [dirSlots, lead_root, freshSlots, if_pos rfl, List.nil_append, List.length_replicate]
    exact maxSlots_gt hok

/-- A fresh volume of 80 blocks. -/
theorem exists_fresh : ∃ (m : Mount) (d : Disk), Booted m.sb m.env d ∧ Fresh m.sb (m.sb.view d) ∧ m.sb.inodeNum = 20 ∧
    entriesPerBlk m.sb = 16 ∧ m.sb.canGrow (m.sb.view d) 0 1 ∧ m.sb.canGrow (m.sb.view d) 1 1 := by
  obtain ⟨env, t, hboot⟩ := booted_blankDev (show 8 < 80 by decide) (by decide)
  obtain ⟨hok, hserves, hfresh⟩ := hboot.fresh (by decide) (by decide)
  generalize hsb : (geometry (80 * 512) 512).superblock 512 = sb at *
  have hnum : sb.inodeNum = 20 := by rw [← hsb]; decide
  have hdata : sb.dataBlkNum = 74 := by rw [← hsb]; decide
  have hent : entriesPerBlk sb = 16 := by rw [← hsb]; decide
  have hfree : sb.freeData (sb.view t) = (List.range 74).filter (fun k => !decide (k < 2)) := by
    rw [Superblock.freeData, hdata]
    refine List.filter_congr fun k hk => ?_
    rw [hfresh.dbit k (by rw [hdata]; exact List.mem_range.mp hk)]
  refine ⟨⟨sb, env, hok, hserves⟩, t, hboot, hfresh, hnum, hent, ?_, ?_⟩ <;>
    · change sb.canGrow _ _ _
      rw [Superblock.canGrow, hfree, ← hsb]
      decide

def pathA : Path := ⟨[47, 65], by decide⟩

def pathRoot : Path := ⟨[slash], by decide⟩

def pathB : Path := ⟨[47, 66], by decide⟩

/-- A volume whose inodes in use are those from the root up to `n`, with directories that have not grown. -/
structure Scene (sb : Superblock) (V : View) (G : Owners) (T : Nat → List Slot) (up : Nat → Nat) (n : Nat) : Prop where
  vol : Vol sb V G T up
  ibit : ∀ i, V.ibit i = decide (rootInodeNum ≤ i ∧ i < n)
  one : ∀ i, (V.inode i).isDir = true → (dirSlots up T i).length = entriesPerBlk sb

theorem Fresh.scene (h : Fresh sb V) (hok : sb.Ok) (up : Nat → Nat) :
    Scene sb V (freshOwners sb) (freshSlots sb) up 3 := by
  refine ⟨h.vol hok up, fun i => ?_, fun i hi => ?_⟩
  · rw [h.ibit, decide_eq_decide]
    simp only [rootInodeNum]
    omega
  · obtain rfl := h.used ((h.vol hok up).used_of_isDir hi)
    rw [dirSlots, lead_root, freshSlots, if_pos rfl, List.nil_append, List.length_replicate]

namespace Scene

variable {n : Nat} {info : PathInfo}

theorem kids_subset (h : Scene sb V G T up n) (hp : (V.inode p).isDir = true) : kids T p ⊆ (List.range n).drop 3 := by
  intro c hc
  obtain ⟨hu, hr, -⟩ := h.vol.tree.kid p (h.vol.used_of_isDir hp) c hc
  have h3 := h.vol.three_le hu hr
  rw [h.ibit, decide_eq_true_eq] at hu
  rw [List.mem_drop_iff_getElem]
  exact ⟨c - 3, by rw [List.length_range]; omega, by rw [List.getElem_range]; omega⟩

/-- A directory has at most one entry for each inode. -/
theorem length_kids (h : Scene sb V G T up n) (hp : (V.inode p).isDir = true) : (kids T p).length ≤ n - 3 := by
  have := ((h.vol.tree.nodup p (h.vol.used_of_isDir hp)).subperm (h.kids_subset hp)).length_le
  rwa [List.length_drop, List.length_range] at this

theorem vacant (h : Scene sb V G T up n) (hp : (V.inode p).isDir = true)
    (hn : n - 3 + (lead up p).length < entriesPerBlk sb) : none ∈ T p := by
  refine List.reduceOption_length_lt_iff.mp ?_
  rw [← entries]
  have hlen := h.one p hp
  have hk := h.length_kids hp
  rw [kids, List.length_map] at hk
  rw [dirSlots, List.length_append] at hlen
  omega

theorem entering (h : Scene sb V G T up n) (hres : resolve V up T resolveTarget user path = .ok info)
    (hmiss : info.leafFound = false) (hw : mofsCheckDirWrite user (V.inode info.parentInodeNum) = .ok ()) (h3 : 3 ≤ n)
    (hlt : n < sb.inodeNum) : Entering sb V T up user path info n := by
  refine ⟨hres, hmiss, hw, head_freeInodes h3 hlt ?_ fun i hi hin => ?_⟩
  · rw [h.ibit]
    exact decide_eq_false (by omega)
  · rw [h.ibit]
    exact decide_eq_true ⟨by simp only [rootInodeNum]; omega, hin⟩

theorem mayEnter (h : Scene sb V G T up n) (hok : sb.Ok) (hres : resolve V up T resolveTarget user path = .ok info)
    (hmiss : info.leafFound = false) (hw : mofsCheckDirWrite user (V.inode info.parentInodeNum) = .ok ()) (h3 : 3 ≤ n)
    (hlt : n < sb.inodeNum) (hn : n - 3 + (lead up info.parentInodeNum).length < entriesPerBlk sb) :
    MayEnter sb V T up user path info n := by
  have hE := h.entering hres hmiss hw h3 hlt
  obtain ⟨hp, -, -⟩ := hE.located h.vol
  exact ⟨hE, h.vacant hp hn, short_of_eq hok (h.one _ hp)⟩

/-- The inodes in use and the sizes of the directories, once inode `n` was entered. -/
theorem entered {tn : List Slot} (h : Scene sb V G T up n)
    (hvol : Vol sb W H (Function.update (Function.update T p ((T p).set j (some (name, n)))) n tn) (Function.update up n p))
    (h3 : 3 ≤ n) (hib : W.ibit = Function.update V.ibit n true) (hperm : ∀ x, x ≠ n → SamePerm (V.inode x) (W.inode x))
    (hn : (W.inode n).isDir = true → tn.length + 2 = entriesPerBlk sb) :
    Scene sb W H (Function.update (Function.update T p ((T p).set j (some (name, n)))) n tn) (Function.update up n p)
      (n + 1) := by
  refine ⟨hvol, fun i => ?_, fun i hi => ?_⟩
  · rw [hib]
    by_cases hin : i = n
    · subst hin
      rw [Function.update_self]
      exact (decide_eq_true ⟨by simp only [rootInodeNum]; omega, Nat.lt_succ_self i⟩).symm
    · rw [Function.update_of_ne hin, h.ibit, decide_eq_decide]
      omega
  · have hr : n ≠ rootInodeNum := by simp only [rootInodeNum]; omega
    exact (Ungrown.entered ⟨h.vol, h.one⟩ hvol hr hperm hn).one i hi

end Scene

/-- One name more: `name` in directory `p` denotes the new inode `n`, and no permission has changed. -/
structure Entered (V W : View) (T T' : Nat → List Slot) (up up' : Nat → Nat) (p n : Nat) (name : Name) : Prop where
  names : ∀ D, D ≠ n → ∀ x, lookup (dirSlots up' T' D) x =
    if D = p ∧ x = name then some n else lookup (dirSlots up T D) x
  perm : ∀ x, x ≠ n → SamePerm (V.inode x) (W.inode x)

namespace Scene

variable {n : Nat} {info : PathInfo} {m : Mount} {d : Disk}

/-- What a created file adds to the scene. -/
theorem created (h : Scene sb V G T up n) (h3 : 3 ≤ n) (hM : MayEnter sb V T up user path info n)
    (hC : Created sb V W G T up info.parentInodeNum n j info.leafName user mode) :
    ∃ T' up', Scene sb W G T' up' (n + 1) ∧ Entered V W T T' up up' info.parentInodeNum n info.leafName ∧
      ∃ t, W.inode n = newInode 1 ftypeReg user mode t := by
  obtain ⟨hp, hl, -⟩ := hM.located h.vol
  obtain ⟨t, ht⟩ := hC.inode
  have hpn := hM.ne h.vol hp
  refine ⟨_, _, h.entered hC.vol h3 hC.ibit hC.perm fun hd => ?_,
    ⟨fun D hD x => lookup_entered hC.vacancy hl hpn hD x, hC.perm⟩, t, ht⟩
  rw [ht, newInode_isDir 1 (by decide)] at hd
  exact absurd hd (by decide)

theorem creates (h : Scene m.sb (m.sb.view d) G T up n) (h3 : 3 ≤ n)
    (hM : MayEnter m.sb (m.sb.view d) T up user path info n) (mode : Nat) :
    ∃ d' T' up', exec m.env (mofsCreateCore m.sb user path mode) d = some (.ok n, d') ∧
      Scene m.sb (m.sb.view d') G T' up' (n + 1) ∧
      Entered (m.sb.view d) (m.sb.view d') T T' up up' info.parentInodeNum n info.leafName ∧
      ∃ t, (m.sb.view d').inode n = newInode 1 ftypeReg user mode t := by
  obtain ⟨r, d', hexec, hpost⟩ := (m.ensures_mofsCreateCore h.vol user path mode).exists rfl
  obtain ⟨rfl, j, hC⟩ := hpost.succeeds h.vol m.ok hM
  obtain ⟨T', up', hcreated⟩ := h.created h3 hM hC
  exact ⟨d', T', up', hexec, hcreated⟩

theorem makes (h : Scene m.sb (m.sb.view d) G T up n) (h3 : 3 ≤ n)
    (hM : MayEnter m.sb (m.sb.view d) T up user path info n) (hroom : m.sb.canGrow (m.sb.view d) 0 1)
    (hfew : ((m.sb.view d).inode info.parentInodeNum).iLinks.toNat < 65535) (mode : Nat) :
    ∃ d' H T' up', exec m.env (mofsMkdirCore m.sb user path mode) d = some (.ok (), d') ∧
      Scene m.sb (m.sb.view d') H T' up' (n + 1) ∧
      Entered (m.sb.view d) (m.sb.view d') T T' up up' info.parentInodeNum n info.leafName ∧
      SamePerm (newInode 2 ftypeDir user mode 0) ((m.sb.view d').inode n) ∧
      ∀ x, lookup (dirSlots up' T' n) x =
        if x = dot then some n else if x = dotdot then some info.parentInodeNum else none := by
  obtain ⟨r, d', hexec, hpost⟩ := (m.ensures_mofsMkdirCore h.vol user path mode).exists rfl
  obtain ⟨rfl, H, j, hD⟩ := hpost.succeeds h.vol m.ok hM hroom hfew
  obtain ⟨hp, hl, -⟩ := hM.located h.vol
  have hpn := hM.ne h.vol hp
  have hE := m.ok.entries_ge
  refine ⟨d', H, _, _, hexec, h.entered hD.vol h3 hD.ibit hD.perm fun _ => ?_,
    ⟨fun D hD' x => lookup_entered hD.vacancy hl hpn hD' x, hD.perm⟩, hD.child, fun x => ?_⟩
  · rw [List.length_replicate]
    omega
  · have hnone : lookup (List.replicate (entriesPerBlk m.sb - 2) (none : Slot)) x = none :=
      Slots.lookup_eq_none.mpr fun c hm => absurd (List.eq_of_mem_replicate hm) (by simp)
    rw [lookup_dirSlots (by simp only [rootInodeNum]; omega), Function.update_self, Function.update_self, hnone]

end Scene

/-- A volume of 80 blocks with one file in its root. -/
theorem exists_fileA : ∃ (m : Mount) (d : Disk) (T : Nat → List Slot) (up : Nat → Nat) (user : User),
    Scene m.sb (m.sb.view d) (freshOwners m.sb) T up 4 ∧ user.valid = true ∧ entriesPerBlk m.sb = 16 ∧
    mofsCheckDirWrite user ((m.sb.view d).inode rootInodeNum) = .ok () ∧
    (∀ x, lookup (dirSlots up T rootInodeNum) x = if x = letter 0 then some 3 else none) ∧
    ((m.sb.view d).inode 3).isDir = false := by
  obtain ⟨m, d₀, -, hfresh, hnum, hent, -⟩ := exists_fresh
  have hscene := hfresh.scene m.ok fun _ => rootInodeNum
  have hM := hfresh.mayEnter m.ok (by omega) rfl (show components pathA = [letter 0] by decide) (by decide) fun _ => rootInodeNum
  obtain ⟨d, T, up, -, hS, hE, t, ht⟩ := hscene.creates (Nat.le_refl 3) hM 0
  refine ⟨m, d, T, up, _, hS, rfl, hent, hfresh.rootWritable (hE.perm _ (by decide)), fun x => ?_, ?_⟩
  · rw [hE.names _ (by decide), Fresh.lookup_eq_none]
    simp
  · rw [ht]
    exact newInode_isDir 1 (by decide) _ 0 t

end Mofs
