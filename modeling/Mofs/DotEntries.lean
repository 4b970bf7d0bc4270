import Mofs.PathFold

namespace Mofs

open Effect Bytes Slots

variable {sb : Superblock} {env : Env} {t d d' : Disk} {V W : View} {G H : Owners} {T : Nat → List Slot} {up : Nat → Nat}
  {user : User} {path : Path} {mode p q x c j : Nat} {name : Name}

/-- Runs of `mkdir` calls with components other than `.` and `..`, whose new entries fit in existing slots: no directory
becomes larger. The calls may succeed or fail. -/
inductive Mkdirs (sb : Superblock) (env : Env) (t : Disk) : Disk → Prop
  | start : Mkdirs sb env t t
  | mkdir {d d' : Disk} {user : User} {path : Path} {mode : Nat} {r : Except Errno Unit} (h : Mkdirs sb env t d)
      (hcomp : ∀ comp ∈ components path, comp ≠ dot ∧ comp ≠ dotdot)
      (hrun : exec env (mofsMkdirCore sb user path mode) d = some (r, d'))
      (hfits : ∀ i, ((sb.view d).inode i).isDir = true → ((sb.view d').inode i).iSize = ((sb.view d).inode i).iSize) :
      Mkdirs sb env t d'

/-- The path resolves to inode `x`. -/
def ResolvesTo (sb : Superblock) (env : Env) (d : Disk) (user : User) (path : Path) (x : Nat) : Prop :=
  ∃ info d', exec env (mofsResolvePath sb user path resolveInode) d = some (.ok info, d') ∧ info.leafFound = true ∧
    info.leafInodeNum = x

/-- Directory `q` has an entry for `x` under a name of its own. The root is its own parent. -/
def ParentOf (sb : Superblock) (env : Env) (d : Disk) (q x : Nat) : Prop :=
  (q = rootInodeNum ∧ x = rootInodeNum) ∨ ((sb.view d).inode q).isDir = true ∧
    ∃ name d', ValidName name ∧ name ≠ dot ∧ name ≠ dotdot ∧ exec env (findDirEntry sb name q) d = some (.ok x, d')

/-- A valid caller who may search every directory. -/
structure Searches (V : View) (user : User) : Prop where
  valid : user.valid = true
  search : ∀ i, (V.inode i).isDir = true → mofsCheckDirTraverse user (V.inode i) = .ok ()

/-- The path followed by more bytes. -/
def Path.andThen (path : Path) (s : Path) : Path := ⟨path.1 ++ s.1, by
  rw [List.mem_append, not_or]
  exact ⟨path.2, s.2⟩⟩

def slashDot : Path := ⟨[47, 46], by decide⟩

def slashDotdot : Path := ⟨[47, 46, 46], by decide⟩

/-- Dots behind a path to `x` lead to `x` and to its only parent. -/
structure DotsTransparent (sb : Superblock) (env : Env) (d : Disk) (user : User) (path : Path) (x : Nat) : Prop where
  self : ResolvesTo sb env d user (path.andThen slashDot) x
  parent : ∃ q, ParentOf sb env d q x ∧ (∀ q', ParentOf sb env d q' x → q' = q) ∧
    ResolvesTo sb env d user (path.andThen slashDotdot) q

/-- The root directory has no entries named `.` or `..`. -/
def Dotless (T : Nat → List Slot) : Prop := ∀ name c, some (name, c) ∈ T rootInodeNum → name ≠ dot ∧ name ≠ dotdot

theorem leafName_of_leafIn {flags : ResolveFlags} {info : PathInfo} (h : leafIn V up T flags user p name = .ok info) :
    info.leafName = name := by
  rw [leafIn] at h
  split at h
  · cases h
  cases hm : mayTraverse V user p with
  | error e =>
    rw [hm] at h
    cases h
  | ok u =>
    simp only [hm] at h
    split at h
    · exact congrArg PathInfo.leafName (Except.ok.inj h).symm
    split at h
    · exact congrArg PathInfo.leafName (Except.ok.inj h).symm
    · cases h

theorem leafName_mem_of_walkIn {flags : ResolveFlags} {info : PathInfo} {comp : Name} {rest : List Name}
    (h : walkIn V up T flags user p comp rest = .ok info) : info.leafName ∈ comp :: rest := by
  induction rest generalizing p comp with
  | nil =>
    rw [leafName_of_leafIn h]
    exact List.mem_cons_self
  | cons next rest ih =>
    rw [walkIn] at h
    split at h
    · cases h
    split at h
    · exact List.mem_cons_of_mem _ (ih h)
    · cases h

theorem leafName_mem {flags : ResolveFlags} {info : PathInfo} (hparent : flags.parent = true)
    (h : resolve V up T flags user path = .ok info) : info.leafName ∈ components path := by
  rw [resolve, if_pos hparent] at h
  split at h
  · cases h
  split at h
  · cases h
  split at h
  · cases h
  split at h
  · cases h
  next hc => exact hc ▸ leafName_mem_of_walkIn h

/-- What every `mkdir` call of such a run keeps. -/
theorem MkdirPost.dotless {r : Except Errno Unit} (h : Ungrown sb V G T up) (hT : Dotless T) (hok : sb.Ok)
    (hcomp : ∀ comp ∈ components path, comp ≠ dot ∧ comp ≠ dotdot) (hP : MkdirPost sb V W G T up user path mode r)
    (hfits : ∀ i, (V.inode i).isDir = true → (W.inode i).iSize = (V.inode i).iSize) :
    ∃ G' T' up', Ungrown sb W G' T' up' ∧ Dotless T' := by
  obtain ⟨hF, -⟩ | ⟨info, c, H, j, -, hE, hD⟩ := hP.made h hok hfits
  · exact ⟨G, T, up, h.of_frame hok hF, hT⟩
  · have hr : c ≠ rootInodeNum := by
      have := hE.free.2.1
      simp only [rootInodeNum]
      omega
    have hEnt := hok.entries_ge
    refine ⟨H, _, _, h.entered hD.vol hr hD.perm fun _ => ?_, fun name x hm => ?_⟩
    · rw [List.length_replicate]
      omega
    · rw [Function.update_of_ne hr.symm] at hm
      by_cases hp : rootInodeNum = info.parentInodeNum
      · rw [← hp, Function.update_self] at hm
        rcases List.mem_or_eq_of_mem_set hm with hm | hm
        · exact hT name x hm
        · obtain ⟨rfl, -⟩ := Prod.mk.inj (Option.some.inj hm)
          exact hcomp _ (leafName_mem rfl hE.resolved)
      · rw [Function.update_of_ne hp] at hm
        exact hT name x hm

theorem dotless_freshSlots : Dotless (freshSlots sb) := by
  intro name c hm
  rw [freshSlots, if_pos rfl] at hm
  cases List.eq_of_mem_replicate hm

/-- What holds after every such run on a formatted volume. -/
theorem Mkdirs.dotless (hok : sb.Ok) (hserves : env.Serves sb) (hfresh : Fresh sb (sb.view t)) (h : Mkdirs sb env t d) :
    ∃ G T up, Ungrown sb (sb.view d) G T up ∧ Dotless T := by
  induction h with
  | start =>
    have hscene := hfresh.scene hok fun _ => rootInodeNum
    exact ⟨_, _, _, ⟨hscene.vol, hscene.one⟩, dotless_freshSlots⟩
  | mkdir _ hcomp hrun hfits ih =>
    obtain ⟨G, T, up, hU, hT⟩ := ih
    have hpost := ((⟨sb, env, hok, hserves⟩ : Mount).ensures_mofsMkdirCore hU.vol _ _ _).of_exec rfl hrun
    exact hpost.dotless hU hT hok hcomp hfits

theorem DirAt.validName {ns ds : List Nat} {slots : List Slot} (h : DirAt sb V p ns ds slots) (hm : some (name, c) ∈ slots) :
    ValidName name := by
  obtain ⟨k, hk, hget⟩ := List.mem_iff_getElem.mp hm
  have hslot := h.slot k hk
  rw [List.getD_eq_getElem _ _ hk, hget] at hslot
  exact hslot.name

theorem Searches.mayTraverse (h : Searches V user) (hx : (V.inode x).isDir = true) : mayTraverse V user x = .ok () := by
  rw [Mofs.mayTraverse]
  split
  · rfl
  · rw [if_neg (by simp [hx])]
    exact h.search x hx

section Tree

variable {m : Mount}

/-- An entry with a name of its own is an ordinary one, so it makes its directory the parent. -/
theorem up_of_lookup (h : Vol sb V G T up) (hq : (V.inode q).isDir = true) (hdot : name ≠ dot) (hdotdot : name ≠ dotdot)
    (hl : lookup (dirSlots up T q) name = some x) : x ≠ rootInodeNum ∧ up x = q := by
  have hm : some (name, x) ∈ T q := by
    by_cases hr : q = rootInodeNum
    · subst hr
      rw [lookup_root] at hl
      exact mem_of_lookup hl
    · rw [lookup_dirSlots hr, if_neg hdot, if_neg hdotdot] at hl
      exact mem_of_lookup hl
  exact (h.tree.kid q (h.used_of_isDir hq) x (mem_kids.mpr ⟨name, hm⟩)).2

/-- Below the root the names of the two first slots are taken. -/
theorem ne_dot_of_mem (h : Vol sb V G T up) (hp : (V.inode p).isDir = true) (hr : p ≠ rootInodeNum)
    (hm : some (name, x) ∈ T p) : name ≠ dot ∧ name ≠ dotdot := by
  have hd := ((h.node p).dir hp).distinct
  rw [Distinct, dirSlots, entries_append, List.map_append, lead_of_ne hr] at hd
  have hname : name ∈ (entries (T p)).map Prod.fst := List.mem_map.mpr ⟨(name, x), mem_entries.mpr hm, rfl⟩
  have hdisj := List.disjoint_of_nodup_append hd
  constructor
  · rintro rfl
    exact hdisj List.mem_cons_self hname
  · rintro rfl
    exact hdisj (List.mem_cons_of_mem _ List.mem_cons_self) hname

/-- Every directory but the root has a name of its own in its parent. -/
theorem exists_name (h : Vol sb V G T up) (hT : Dotless T) (hx : V.ibit x = true) (hr : x ≠ rootInodeNum) :
    ∃ name, ValidName name ∧ name ≠ dot ∧ name ≠ dotdot ∧ lookup (dirSlots up T (up x)) name = some x := by
  obtain ⟨name, hm⟩ := mem_kids.mp (h.tree.parent x hx hr).2
  have hdir := h.up_isDir hx hr
  have hm' : some (name, x) ∈ dirSlots up T (up x) := List.mem_append_right _ hm
  have hname : name ≠ dot ∧ name ≠ dotdot := by
    by_cases hroot : up x = rootInodeNum
    · exact hT name x (hroot ▸ hm)
    · exact ne_dot_of_mem h hdir hroot hm
  exact ⟨name, (h.dirAt hdir).validName hm', hname.1, hname.2, ((h.node _).dir hdir).distinct.lookup_of_mem hm'⟩

theorem exec_find (h : Vol m.sb (m.sb.view d) G T up) (hq : ((m.sb.view d).inode q).isDir = true) (hname : ValidName name) :
    (∃ d', exec m.env (findDirEntry m.sb name q) d = some (.ok x, d')) ↔ lookup (dirSlots up T q) name = some x := by
  rw [(m.reads_findIn h hq ⟨hname.ne, hname.nul⟩).exec_eq rfl]
  cases lookup (dirSlots up T q) name <;> simp

/-- The parents of the volume are those of its tree. -/
theorem parentOf_iff (h : Vol m.sb (m.sb.view d) G T up) (hT : Dotless T) (hx : (m.sb.view d).ibit x = true) :
    ParentOf m.sb m.env d q x ↔ q = if x = rootInodeNum then rootInodeNum else up x := by
  constructor
  · rintro (⟨rfl, rfl⟩ | ⟨hq, name, d', hname, hdot, hdotdot, hfind⟩)
    · rw [if_pos rfl]
    · obtain ⟨hr, hup⟩ := up_of_lookup h hq hdot hdotdot ((exec_find h hq hname).mp ⟨d', hfind⟩)
      rw [if_neg hr, hup]
  · rintro rfl
    split
    next hr => exact .inl ⟨rfl, hr⟩
    next hr =>
      obtain ⟨name, hname, hdot, hdotdot, hl⟩ := exists_name h hT hx hr
      have hdir := h.up_isDir hx hr
      obtain ⟨d', hfind⟩ := (exec_find h hdir hname).mpr hl
      exact .inr ⟨hdir, name, d', hname, hdot, hdotdot, hfind⟩

theorem follow_of_resolvesTo (h : Vol m.sb (m.sb.view d) G T up) (hvalid : user.valid = true)
    (hres : ResolvesTo m.sb m.env d user path x) :
    path.1.head? = some slash ∧ follow m d user (components path) = some x := by
  have hs : path.1.head? = some slash := by
    by_contra hs
    obtain ⟨info, d', hrun, -⟩ := hres
    rw [mofsResolvePath, if_pos hs] at hrun
    cases hrun
  refine ⟨hs, ?_⟩
  by_cases hne : components path = []
  · obtain ⟨info, d', hrun, -, rfl⟩ := hres
    have hv : ¬ (resolveInode.checkAccess = true ∧ user.valid = false) := by simp [hvalid]
    rw [mofsResolvePath, if_neg (not_not.mpr hs), if_neg (by decide), if_neg (by decide), if_neg hv, hne] at hrun
    split at hrun
    · cases hrun
      rw [hne]
      rfl
    · cases hrun
  · exact ((resolve_found_iff h rfl rfl hs hne hvalid).mp hres).2

/-- One component more behind a path that resolves. -/
theorem resolvesTo_andThen (h : Vol m.sb (m.sb.view d) G T up) (hU : Searches (m.sb.view d) user)
    (hres : ResolvesTo m.sb m.env d user path x) (hx : ((m.sb.view d).inode x).isDir = true) (hname : ValidName name)
    {s : Path} (hc : components (path.andThen s) = components path ++ [name]) (q : Nat) :
    ResolvesTo m.sb m.env d user (path.andThen s) q ↔ lookup (dirSlots up T x) name = some q := by
  obtain ⟨hs, hfollow⟩ := follow_of_resolvesTo h hU.valid hres
  have hs' : (path.andThen s).1.head? = some slash := by
    rw [Path.andThen, List.head?_append, hs]
    rfl
  have hne : components (path.andThen s) ≠ [] := by
    rw [hc]
    exact List.append_ne_nil_of_right_ne_nil _ (List.cons_ne_nil _ _)
  have hlast : (components (path.andThen s)).getLast hne = name := by
    simp only [hc, List.getLast_append_singleton]
  rw [ResolvesTo, resolve_found_iff h rfl rfl hs' hne hU.valid, hlast, hc, follow_snoc, hfollow,
    and_iff_right (Nat.le_of_lt_succ hname.short), Option.bind_some, enterDir_eq h ⟨hname.ne, hname.nul⟩, hU.mayTraverse hx]

end Tree

theorem components_slashDot (path : Path) : components (path.andThen slashDot) = components path ++ [dot] :=
  filter_splitOn_append path.1 [46]

theorem components_slashDotdot (path : Path) : components (path.andThen slashDotdot) = components path ++ [dotdot] :=
  filter_splitOn_append path.1 [46, 46]

/-- Dots are transparent behind every path to a directory other than the root, whose block has no entries for them. -/
theorem dots_transparent_iff (hboot : Booted sb env t) (h3 : rootInodeNum < sb.inodeNum) (h25 : sb.inodeNum < 33554432)
    (hrun : Mkdirs sb env t d) (hU : Searches (sb.view d) user) (hres : ResolvesTo sb env d user path x)
    (hx : ((sb.view d).inode x).isDir = true) : DotsTransparent sb env d user path x ↔ x ≠ rootInodeNum := by
  obtain ⟨hok, hserves, hfresh⟩ := hboot.fresh h3 h25
  obtain ⟨G, T, up, hV, hT⟩ := hrun.dotless hok hserves hfresh
  have hvol : Vol (Mount.mk sb env hok hserves).sb (sb.view d) G T up := hV.vol
  have hself := resolvesTo_andThen hvol hU hres hx validName_dot (components_slashDot path)
  have hparent := resolvesTo_andThen hvol hU hres hx validName_dotdot (components_slashDotdot path)
  constructor
  · rintro htrans rfl
    have hl := (hself _).mp htrans.self
    rw [lookup_root] at hl
    exact (hT _ _ (mem_of_lookup hl)).1 rfl
  · intro hr
    have hup (q : Nat) : ParentOf sb env d q x ↔ q = up x := by
      have := parentOf_iff (q := q) hvol hT (hvol.used_of_isDir hx)
      rwa [if_neg hr] at this
    refine ⟨(hself x).mpr ?_, up x, (hup _).mpr rfl, fun q' => (hup q').mp, (hparent _).mpr ?_⟩
    · rw [lookup_dirSlots hr, if_pos rfl]
    · rw [lookup_dirSlots hr, if_neg (by decide), if_pos rfl]

/-- A formatted volume of 80 blocks, after its owner has made one directory in the root. -/
theorem exists_dirA : ∃ (m : Mount) (t d : Disk) (user : User), Booted m.sb m.env t ∧ m.sb.inodeNum = 20 ∧
    Mkdirs m.sb m.env t d ∧ Searches (m.sb.view d) user ∧ ResolvesTo m.sb m.env d user pathA 3 ∧
    ((m.sb.view d).inode 3).isDir = true := by
  obtain ⟨m, t, hboot, hfresh, hnum, -, hroom, -⟩ := exists_fresh
  have hscene := hfresh.scene m.ok fun _ => rootInodeNum
  have hM := hfresh.mayEnter m.ok (by omega) rfl (show components pathA = [letter 0] by decide) (by decide) fun _ => rootInodeNum
  have hfew : ((m.sb.view t).inode rootInodeNum).iLinks.toNat < 65535 := by
    rw [hfresh.links]
    decide
  obtain ⟨d, H, T, up, hrun, hS, hE, hperm, -⟩ := hscene.makes (Nat.le_refl 3) hM hroom hfew 0o777
  have hroot := hE.perm rootInodeNum (by decide)
  have hd : ((m.sb.view d).inode 3).isDir = true := by
    rw [hperm.isDir, newInode_isDir 2 (by decide)]
    rfl
  have hlook : lookup (dirSlots up T rootInodeNum) (letter 0) = some 3 := by
    rw [hE.names _ (by decide), if_pos ⟨rfl, rfl⟩]
  refine ⟨m, t, d, rootUser (m.sb.view t), hboot, hnum, .mkdir .start (by decide) hrun fun i hi => ?_, ⟨rfl, fun i hi => ?_⟩, ?_, hd⟩
  · -- the root had its block before and has it now
    obtain rfl := hfresh.used (hscene.vol.used_of_isDir hi)
    apply UInt32.toNat_inj.mp
    rw [(hS.vol.dirAt hS.vol.rootDir).size, (hscene.vol.dirAt hi).size, hS.one _ hS.vol.rootDir, hscene.one _ hi]
  · have hused := hS.vol.used_of_isDir hi
    rw [hS.ibit, decide_eq_true_iff, rootInodeNum] at hused
    obtain rfl | rfl : i = rootInodeNum ∨ i = 3 := by
      rw [rootInodeNum]
      omega
    · exact checkDirSearch_of_write (hfresh.rootWritable hroot)
    · refine checkDirSearch_all ?_ _
      rw [hperm.mode]
      exact (by decide : (modeBits ftypeDir 0o777).toNat &&& 0o333 = 0o333)
  · have hres : resolve (m.sb.view d) up T resolveInode (rootUser (m.sb.view t)) pathA = .ok ⟨noInode, 3, true, letter 0⟩ := by
      rw [resolve_one rfl rfl (show components pathA = [letter 0] by decide), leafIn_eq (by decide) (if_pos rfl), hlook]
      rfl
    have hexec := (m.reads_mofsResolvePath hS.vol resolveInode rfl rfl (rootUser (m.sb.view t)) pathA).exec_eq rfl
    exact ⟨_, d, hexec.trans (by rw [hres]), rfl, rfl⟩

/-- A directory made in the root: dots behind its path are transparent. -/
theorem dots_transparent_dirA : ∃ (sb : Superblock) (env : Env) (t d : Disk) (user : User), Booted sb env t ∧
    rootInodeNum < sb.inodeNum ∧ sb.inodeNum < 33554432 ∧ Mkdirs sb env t d ∧ Searches (sb.view d) user ∧
    ResolvesTo sb env d user pathA 3 ∧ ((sb.view d).inode 3).isDir = true ∧ DotsTransparent sb env d user pathA 3 := by
  obtain ⟨m, t, d, user, hboot, hnum, hrun, hU, hres, hd⟩ := exists_dirA
  have h3 : rootInodeNum < m.sb.inodeNum := by rw [hnum]; decide
  have h25 : m.sb.inodeNum < 33554432 := by rw [hnum]; decide
  exact ⟨m.sb, m.env, t, d, user, hboot, h3, h25, hrun, hU, hres, hd,
    (dots_transparent_iff hboot h3 h25 hrun hU hres hd).mpr (by decide)⟩

/-- On a volume that was just formatted, `/` resolves to the root directory, and neither `//.` nor `//..` is found. -/
theorem root_dots_missing : ∃ (sb : Superblock) (env : Env) (t : Disk) (user : User), Booted sb env t ∧
    rootInodeNum < sb.inodeNum ∧ sb.inodeNum < 33554432 ∧ Mkdirs sb env t t ∧ Searches (sb.view t) user ∧
    ResolvesTo sb env t user pathRoot rootInodeNum ∧ ((sb.view t).inode rootInodeNum).isDir = true ∧
    exec env (mofsResolvePath sb user (pathRoot.andThen slashDot) resolveInode) t = some (.error .enoent, t) ∧
    exec env (mofsResolvePath sb user (pathRoot.andThen slashDotdot) resolveInode) t = some (.error .enoent, t) := by
  obtain ⟨m, t, hboot, hfresh, hnum, -⟩ := exists_fresh
  have hvol := hfresh.vol m.ok fun _ => rootInodeNum
  have hmissing (name : Name) (path : Path) (hhead : path.1.head? = some slash) (hc : components path = [name])
      (hlen : name.length < filenameLen) :
      exec m.env (mofsResolvePath m.sb (rootUser (m.sb.view t)) path resolveInode) t = some (.error .enoent, t) := by
    rw [(m.reads_mofsResolvePath hvol resolveInode rfl rfl (rootUser (m.sb.view t)) path).exec_eq rfl, resolve_one rfl hhead hc,
      leafIn_eq hlen (if_pos rfl), Fresh.lookup_eq_none]
    rfl
  refine ⟨m.sb, m.env, t, rootUser (m.sb.view t), hboot, by rw [hnum]; decide, by rw [hnum]; decide, .start,
    ⟨rfl, fun i hi => ?_⟩, ⟨⟨noInode, rootInodeNum, true, []⟩, t, rfl, rfl, rfl⟩, hfresh.isDir,
    hmissing dot _ rfl (by decide) (by decide), hmissing dotdot _ rfl (by decide) (by decide)⟩
  obtain rfl := hfresh.used (hvol.used_of_isDir hi)
  exact checkDirSearch_of_write (hfresh.rootWritable ⟨rfl, rfl, rfl⟩)

end Mofs
