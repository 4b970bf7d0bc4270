import Mofs.CallRun

namespace Mofs

open Effect Bytes Slots Mofs.Tree

variable {sb : Superblock} {env : Env} {t d : Disk} {V : View} {G : Owners} {T slots : Nat → List Slot} {up : Nat → Nat} {P : Pools}
  {p : Nat}

/-- The inodes that the entries of a directory denote, apart from the two dot names. -/
def namedInodes (slots : List Slot) : List Nat :=
  ((entries slots).filter fun e => !isDotOrDotdotName e.1).map Prod.snd

/-- The directories of a volume, with the slots they have on disk, form a tree: its edges are the entries other than the dot
names, and `up` leads from every inode in use to the directory that has its entry. -/
structure DirTree (sb : Superblock) (V : View) (slots : Nat → List Slot) (up : Nat → Nat) : Prop where
  stored : ∀ p, (V.inode p).isDir = true → ∃ ns ds, DirAt sb V p ns ds (slots p)
  files : ∀ p, (V.inode p).isDir = false → slots p = []
  tree : IsTree (fun i => V.ibit i = true) (fun p => namedInodes (slots p)) up rootInodeNum
  distinct : ∀ p, Distinct (slots p)
  self : ∀ p c, some (dot, c) ∈ slots p → c = p
  parent : ∀ p c, some (dotdot, c) ∈ slots p → c = if p = rootInodeNum then rootInodeNum else up p
  links : ∀ p, (V.inode p).isDir = true →
    (V.inode p).iLinks.toNat = 2 + (namedInodes (slots p)).countP fun c => (V.inode c).isDir

theorem namedInodes_dirSlots (h : ∀ name c, some (name, c) ∈ T p → name ≠ dot ∧ name ≠ dotdot) :
    namedInodes (dirSlots up T p) = kids T p := by
  have hlead : (entries (lead up p)).filter (fun e => !isDotOrDotdotName e.1) = [] := by
    rw [List.filter_eq_nil_iff]
    rintro ⟨name, c⟩ hm
    obtain ⟨-, he | he⟩ := mem_lead.mp (mem_entries.mp hm)
    · cases he
      exact Bool.false_ne_true
    · cases he
      exact Bool.false_ne_true
  have hrest : (entries (T p)).filter (fun e => !isDotOrDotdotName e.1) = entries (T p) := by
    rw [List.filter_eq_self]
    rintro ⟨name, c⟩ hm
    have := h name c (mem_entries.mp hm)
    simpa [isDotOrDotdotName] using this
  rw [namedInodes, dirSlots, entries_append, List.filter_append, hlead, hrest, List.nil_append, kids]

/-- The slots of all directories, and none for the other inodes. -/
def treeSlots (V : View) (up : Nat → Nat) (T : Nat → List Slot) (p : Nat) : List Slot :=
  if (V.inode p).isDir then dirSlots up T p else []

/-- A well-formed volume without dot names in its root is such a tree. -/
theorem Vol.dirTree (h : Vol sb V G T up) (hT : Dotless T) : DirTree sb V (treeSlots V up T) up := by
  have hdir {p : Nat} (hp : (V.inode p).isDir = true) : treeSlots V up T p = dirSlots up T p := if_pos hp
  have hfile {p : Nat} (hp : (V.inode p).isDir = false) : treeSlots V up T p = [] := if_neg (by simp [hp])
  have hname {p : Nat} (hp : (V.inode p).isDir = true) (name : Name) (c : Nat) (hm : some (name, c) ∈ T p) :
      name ≠ dot ∧ name ≠ dotdot := by
    by_cases hr : p = rootInodeNum
    · subst hr
      exact hT name c hm
    · exact ne_dot_of_mem h hp hr hm
  have hkids : (fun p => namedInodes (treeSlots V up T p)) = kids T := by
    funext p
    cases hp : (V.inode p).isDir with
    | true => rw [hdir hp, namedInodes_dirSlots (hname hp)]
    | false =>
      rw [hfile hp, kids_nil ((h.node p).flat hp)]
      rfl
  have hdots {p c : Nat} {name : Name} (hdot : name = dot ∨ name = dotdot) (hm : some (name, c) ∈ treeSlots V up T p) :
      p ≠ rootInodeNum ∧ (some (name, c) = some (dot, p) ∨ some (name, c) = some (dotdot, up p)) := by
    cases hp : (V.inode p).isDir with
    | true =>
      rw [hdir hp] at hm
      rcases List.mem_append.mp hm with hm | hm
      · exact mem_lead.mp hm
      · have := hname hp name c hm
        tauto
    | false =>
      rw [hfile hp] at hm
      cases hm
  refine ⟨fun p hp => ?_, fun p hp => hfile hp, hkids ▸ h.tree, fun p => ?_, fun p c hm => ?_, fun p c hm => ?_, fun p hp => ?_⟩
  · rw [hdir hp]
    exact ⟨_, _, h.dirAt hp⟩
  · cases hp : (V.inode p).isDir with
    | true =>
      rw [hdir hp]
      exact ((h.node p).dir hp).distinct
    | false =>
      rw [hfile hp]
      exact List.nodup_nil
  · obtain ⟨-, he | he⟩ := hdots (.inl rfl) hm
    · cases he
      rfl
    · cases he
  · obtain ⟨hr, he | he⟩ := hdots (.inr rfl) hm
    · cases he
    · cases he
      rw [if_neg hr]
  · rw [congrFun hkids p]
    exact ((h.node p).dir hp).links

/-- The call makes no directory grow and no entry `.` or `..` in the root. -/
def KeepsTree (sb : Superblock) (env : Env) (d : Disk) (user : User) (op : PosixOp) : Prop :=
  Fits sb env d user op ∧ ¬ Enters sb env d user op rootInodeNum dot ∧ ¬ Enters sb env d user op rootInodeNum dotdot

/-- The directory tree over whole runs. -/
theorem dirTree_of_keepsTree (hboot : Booted sb env t) (h3 : rootInodeNum < sb.inodeNum) (h25 : sb.inodeNum < 33554432)
    (hrun : Calls sb env (fun d _ user op => KeepsTree sb env d user op) t d P) : ∃ slots up, DirTree sb (sb.view d) slots up := by
  obtain ⟨hok, hserves, hfresh⟩ := hboot.fresh h3 h25
  obtain ⟨G, T, up, hU, hT⟩ := hrun.ungrown hok hserves hfresh fun _ _ _ _ h => h.1
  exact ⟨_, up, hU.vol.dirTree (hT fun _ _ _ _ h => h.2)⟩

/-- A file created in the root. -/
theorem dirTree_of_keepsTree_fileA : ∃ (sb : Superblock) (env : Env) (t d : Disk) (P : Pools), Booted sb env t ∧
    rootInodeNum < sb.inodeNum ∧ sb.inodeNum < 33554432 ∧
    Calls sb env (fun d _ user op => KeepsTree sb env d user op) t d P ∧ (sb.view d).ibit 3 = true ∧
    ∃ slots up, DirTree sb (sb.view d) slots up := by
  obtain ⟨m, t, hboot, hfresh, hnum, hent, -⟩ := exists_fresh
  have h3 : rootInodeNum < m.sb.inodeNum := by rw [hnum]; decide
  have h25 : m.sb.inodeNum < 33554432 := by rw [hnum]; decide
  have hcrowd : Crowd m t t _ _ _ 0 (0 : Fin 64) := hfresh.crowd fun _ => rootInodeNum
  obtain ⟨d, T, up, hexec, hcrowd', -⟩ := hcrowd.add hfresh (show 3 + 0 < _ by omega) (show 0 < _ by omega)
    (show oflagCreat &&& oflagCreat ≠ 0 by decide) 0 Pools.closed
  have hkeeps : KeepsTree m.sb m.env t (rootUser (m.sb.view t)) (.open (letterPath 0) oflagCreat 0) := by
    refine ⟨hcrowd.fits (show 0 < _ by omega) _ _, fun hdot => ?_, fun hdot => ?_⟩
    · exact absurd (hcrowd.enters_eq hdot) (by decide)
    · exact absurd (hcrowd.enters_eq hdot) (by decide)
  have hrun : Calls m.sb m.env (fun d _ user op => KeepsTree m.sb m.env d user op) t d _ := Calls.start.call hkeeps hexec
  refine ⟨m.sb, m.env, t, d, _, hboot, h3, h25, hrun, ?_, dirTree_of_keepsTree hboot h3 h25 hrun⟩
  rw [hcrowd'.scene.ibit]
  decide

/-- The first call `mkdir("/.")` makes an entry `.` of the root that denotes another directory. -/
theorem dirTree_broken : ∃ (sb : Superblock) (env : Env) (t d : Disk) (P : Pools), Booted sb env t ∧
    rootInodeNum < sb.inodeNum ∧ sb.inodeNum < 33554432 ∧ Calls sb env (fun d _ user op => Fits sb env d user op) t d P ∧
    ¬ ∃ slots up, DirTree sb (sb.view d) slots up := by
  obtain ⟨m, t, hboot, hfresh, hnum, hent, hroom, -⟩ := exists_fresh
  have hscene := hfresh.scene m.ok fun _ => rootInodeNum
  have hM := hfresh.mayEnter m.ok (by omega) rfl (show components slashDot = [dot] by decide) (by decide) fun _ => rootInodeNum
  have hfew : ((m.sb.view t).inode rootInodeNum).iLinks.toNat < 65535 := by
    rw [hfresh.links]
    decide
  obtain ⟨d, H, T, up, hmkdir, hS, hE, -⟩ := hscene.makes (Nat.le_refl 3) hM hroom hfew 0o777
  have hfits : Fits m.sb m.env t (rootUser (m.sb.view t)) (.mkdir slashDot 0o777) := by
    rintro path hpath q name ⟨info, d', hres, -, rfl, -⟩
    obtain rfl : slashDot = path := Option.some.inj hpath
    have hread := m.reads_mofsResolvePath hscene.vol resolveTarget rfl rfl (rootUser (m.sb.view t)) slashDot
    rw [hM.resolved] at hread
    cases (hread.exec_eq rfl).symm.trans hres
    exact .inl (.inl ((hasVacancy_iff hscene.vol hfresh.isDir).mpr (List.mem_append_right _ hM.vacant)))
  have hcall : exec m.env (posixCall m.sb (rootUser (m.sb.view t)) Pools.closed (.mkdir slashDot 0o777)) t =
      some (.ok (.ok .done, Pools.closed), d) := exec_posixCall_done rfl hmkdir
  refine ⟨m.sb, m.env, t, d, _, hboot, by rw [hnum]; decide, by rw [hnum]; decide, Calls.start.call hfits hcall, ?_⟩
  rintro ⟨slots, up', htree⟩
  obtain ⟨ns, ds, hdir⟩ := htree.stored rootInodeNum hS.vol.rootDir
  have hlook : lookup (dirSlots up T rootInodeNum) dot = some 3 := by rw [hE.names _ (by decide), if_pos ⟨rfl, rfl⟩]
  have hmem := mem_of_lookup hlook
  rw [← hdir.unique (hS.vol.dirAt hS.vol.rootDir)] at hmem
  exact absurd (htree.self _ _ hmem) (by decide)

end Mofs
