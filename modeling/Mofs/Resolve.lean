import Mofs.Volume
import Mofs.Posix

namespace Mofs

open Effect Bytes Slots Mofs.Tree

section

variable (V : View) (up : Nat → Nat) (T : Nat → List Slot) (flags : ResolveFlags) (user : User)

/-- May the caller search directory `p`? The root is searched without a check. -/
def mayTraverse (p : Nat) : Except Errno Unit :=
  if p = rootInodeNum then .ok ()
  else if (V.inode p).isDir = false then .error .enotdir
  else mofsCheckDirTraverse user (V.inode p)

def leafIn (p : Nat) (leaf : Name) : Except Errno PathInfo :=
  if filenameLen ≤ leaf.length then .error .enametoolong
  else
    match mayTraverse V user p with
    | .error e => .error e
    | .ok () =>
      let parentNum := if flags.parent then p else noInode
      match lookup (dirSlots up T p) leaf with
      | some c => .ok ⟨parentNum, c, true, leaf⟩
      | none => if flags.allowMissing then .ok ⟨parentNum, noInode, false, leaf⟩ else .error .enoent

def walkIn : (p : Nat) → (current : Name) → List Name → Except Errno PathInfo
  | p, current, [] => leafIn V up T flags user p current
  | p, current, next :: rest =>
    match mayTraverse V user p with
    | .error e => .error e
    | .ok () =>
      match lookup (dirSlots up T p) current with
      | some c => walkIn c next rest
      | none => .error .enoent

/-- Path resolution as a walk through the tree of a volume. -/
def resolve (path : Path) : Except Errno PathInfo :=
  if path.1.head? ≠ some slash then .error .einval
  else if user.valid = false then .error .eperm
  else if path.1 = [slash] then
    if flags.parent then .error .einval else .ok ⟨noInode, rootInodeNum, true, []⟩
  else
    match components path with
    | [] => .error .einval
    | current :: rest => walkIn V up T flags user rootInodeNum current rest

end

variable {V : View} {G : Owners} {T : Nat → List Slot} {up : Nat → Nat} {p c : Nat} {comp : Name} {info : PathInfo}
  {flags : ResolveFlags} {user : User} {path : Path}

theorem mem_of_mem_splitOn {l : List UInt8} {a x : UInt8} (h : comp ∈ l.splitOn a) (hx : x ∈ comp) : x ∈ l := by
  induction l generalizing comp with
  | nil =>
    obtain rfl : comp = [] := by simpa using h
    cases hx
  | cons y l ih =>
    rw [List.splitOn, List.splitOnP_cons_eq_if_modifyHead] at h
    split at h
    · rcases List.mem_cons.mp h with rfl | h
      · cases hx
      · exact List.mem_cons_of_mem _ (ih h hx)
    · cases hl : l.splitOnP (· == a) with
      | nil => exact absurd hl (List.splitOnP_ne_nil _ _)
      | cons w ws =>
        rw [hl, List.modifyHead_cons] at h
        have hw : w ∈ l.splitOn a := by rw [List.splitOn, hl]; exact List.mem_cons_self
        rcases List.mem_cons.mp h with rfl | h
        · rcases List.mem_cons.mp hx with rfl | hx
          · exact List.mem_cons_self
          · exact List.mem_cons_of_mem _ (ih hw hx)
        · exact List.mem_cons_of_mem _ (ih (by rw [List.splitOn, hl]; exact List.mem_cons_of_mem _ h) hx)

theorem mem_components (h : comp ∈ components path) : comp ≠ [] ∧ 0 ∉ comp := by
  obtain ⟨hmem, hne⟩ := List.mem_filter.mp h
  exact ⟨by simpa using hne, fun h0 => path.2 (mem_of_mem_splitOn hmem h0)⟩

/-- Where a path led: the name of its last component in directory `p`, and what stands there. -/
structure Located (V : View) (up : Nat → Nat) (T : Nat → List Slot) (info : PathInfo) (p : Nat) : Prop where
  dir : (V.inode p).isDir = true
  name : ValidName info.leafName
  found : lookup (dirSlots up T p) info.leafName = if info.leafFound then some info.leafInodeNum else none

theorem isDir_of_mayTraverse (hroot : (V.inode rootInodeNum).isDir = true) (h : mayTraverse V user p = .ok ()) :
    (V.inode p).isDir = true := by
  rw [mayTraverse] at h
  by_cases hp : p = rootInodeNum
  · exact hp ▸ hroot
  · rw [if_neg hp] at h
    cases hd : (V.inode p).isDir with
    | true => rfl
    | false => simp [hd] at h

theorem Located.of_leafIn (hroot : (V.inode rootInodeNum).isDir = true) (hcomp : comp ≠ [] ∧ 0 ∉ comp)
    (h : leafIn V up T flags user p comp = .ok info) :
    Located V up T info p ∧ (flags.parent = true → info.parentInodeNum = p) ∧
      (flags.allowMissing = false → info.leafFound = true) := by
  rw [leafIn] at h
  split at h
  · cases h
  · next hlen =>
    have hname : ValidName comp := ⟨hcomp.1, Nat.not_le.mp hlen, hcomp.2⟩
    cases ht : mayTraverse V user p with
    | error e =>
      rw [ht] at h
      cases h
    | ok u =>
      have hdir := isDir_of_mayTraverse hroot ht
      simp only [ht] at h
      cases hl : lookup (dirSlots up T p) comp with
      | some c =>
        simp only [hl, Except.ok.injEq] at h
        subst h
        exact ⟨⟨hdir, hname, hl⟩, fun hf => if_pos hf, fun _ => rfl⟩
      | none =>
        cases hm : flags.allowMissing with
        | false => simp [hl, hm] at h
        | true =>
          simp only [hl, hm, if_true, Except.ok.injEq] at h
          subst h
          exact ⟨⟨hdir, hname, hl⟩, fun hf => if_pos hf, fun hf => by cases hf⟩

theorem Located.of_walkIn (hroot : (V.inode rootInodeNum).isDir = true) {rest : List Name}
    (hcomp : ∀ x ∈ comp :: rest, x ≠ [] ∧ 0 ∉ x) (h : walkIn V up T flags user p comp rest = .ok info) :
    ∃ q, Located V up T info q ∧ (flags.parent = true → info.parentInodeNum = q) ∧
      (flags.allowMissing = false → info.leafFound = true) := by
  induction rest generalizing p comp with
  | nil => exact ⟨p, Located.of_leafIn hroot (hcomp comp List.mem_cons_self) h⟩
  | cons next rest ih =>
    rw [walkIn] at h
    split at h
    · cases h
    · split at h
      · exact ih (fun x hx => hcomp x (List.mem_cons_of_mem _ hx)) h
      · cases h

/-- A path that resolves to a name in a directory. -/
theorem Located.of_resolve (hroot : (V.inode rootInodeNum).isDir = true) (hparent : flags.parent = true)
    (h : resolve V up T flags user path = .ok info) :
    Located V up T info info.parentInodeNum ∧ user.valid = true ∧ (flags.allowMissing = false → info.leafFound = true) := by
  rw [resolve] at h
  split at h
  · cases h
  · split at h
    · cases h
    · next hvalid =>
      split at h
      · cases h
      · split at h
        · cases h
        · next hc =>
          obtain ⟨q, hl, hq, hm⟩ := Located.of_walkIn hroot (fun x hx => mem_components (hc ▸ hx)) h
          exact ⟨hq hparent ▸ hl, by simpa using hvalid, hm⟩

/-- A path to something that exists resolves in the same way when a missing name is an error. -/
theorem resolve_existing (h : resolve V up T resolveTarget user path = .ok info) (hf : info.leafFound = true) :
    resolve V up T resolveExisting user path = .ok info := by
  have hleaf {p : Nat} {comp : Name} (h : leafIn V up T resolveTarget user p comp = .ok info) :
      leafIn V up T resolveExisting user p comp = .ok info := by
    rw [leafIn] at h ⊢
    split
    · rwa [if_pos (by assumption)] at h
    · rw [if_neg (by assumption)] at h
      split
      · simp_all
      · cases hl : lookup (dirSlots up T p) comp with
        | some c => simp_all [resolveTarget, resolveExisting]
        | none =>
          simp_all [resolveTarget]
          subst h
          cases hf
  have hwalk {rest : List Name} : ∀ {p : Nat} {comp : Name}, walkIn V up T resolveTarget user p comp rest = .ok info →
      walkIn V up T resolveExisting user p comp rest = .ok info := by
    induction rest with
    | nil => exact hleaf
    | cons next rest ih =>
      intro p comp h
      rw [walkIn] at h ⊢
      split
      · simp_all
      · cases hl : lookup (dirSlots up T p) comp with
        | some c =>
          simp_all
        | none => simp_all
  rw [resolve] at h ⊢
  split
  · rwa [if_pos (by assumption)] at h
  · rw [if_neg (by assumption)] at h
    split
    · rwa [if_pos (by assumption)] at h
    · rw [if_neg (by assumption)] at h
      split
      · rwa [if_pos (by assumption)] at h
      · rw [if_neg (by assumption)] at h
        split
        · simp_all
        · next hc =>
          rw [hc] at h
          exact hwalk h

/-- What a path denotes is in use. -/
theorem Vol.used_of_resolve {sb : Superblock} (h : Vol sb V G T up) (hr : resolve V up T resolveInode user path = .ok info) :
    V.ibit info.leafInodeNum = true := by
  have hleaf {p : Nat} {comp : Name} (hl : leafIn V up T resolveInode user p comp = .ok info) :
      V.ibit info.leafInodeNum = true := by
    rw [leafIn] at hl
    split at hl
    · cases hl
    · split at hl
      · cases hl
      · next ht =>
        cases hc : lookup (dirSlots up T p) comp with
        | none => simp [hc, resolveInode] at hl
        | some c =>
          simp only [hc, Except.ok.injEq] at hl
          subst hl
          exact h.used_of_mem (isDir_of_mayTraverse h.rootDir ht) (mem_of_lookup hc)
  have hwalk {rest : List Name} : ∀ {p : Nat} {comp : Name}, walkIn V up T resolveInode user p comp rest = .ok info →
      V.ibit info.leafInodeNum = true := by
    induction rest with
    | nil => exact hleaf
    | cons next rest ih =>
      intro p comp hw
      rw [walkIn] at hw
      split at hw
      · cases hw
      · split at hw
        · exact ih hw
        · cases hw
  rw [resolve] at hr
  split at hr
  · cases hr
  · split at hr
    · cases hr
    · split at hr
      · cases hr
        exact h.rootUsed
      · split at hr
        · cases hr
        · exact hwalk hr

/-- The directories in which a walk looks its names up. -/
def walkDirs (up : Nat → Nat) (T : Nat → List Slot) : (p : Nat) → (current : Name) → List Name → List Nat
  | p, _, [] => [p]
  | p, current, next :: rest =>
    p :: match lookup (dirSlots up T p) current with
      | some c => walkDirs up T c next rest
      | none => []

/-- The directories traversed by a path. -/
def traversed (up : Nat → Nat) (T : Nat → List Slot) (path : Path) : List Nat :=
  match components path with
  | [] => []
  | current :: rest => walkDirs up T rootInodeNum current rest

theorem walkIn_dirs {rest : List Name} (hparent : flags.parent = true) (h : walkIn V up T flags user p comp rest = .ok info) :
    info.parentInodeNum ∈ walkDirs up T p comp rest ∧ ∀ e ∈ walkDirs up T p comp rest, mayTraverse V user e = .ok () := by
  induction rest generalizing p comp with
  | nil =>
    rw [walkIn, leafIn] at h
    rw [walkDirs]
    split at h
    · cases h
    · split at h
      · cases h
      · next ht =>
        have hpar : info.parentInodeNum = p := by
          split at h
          · cases h
            rfl
          · split at h
            · cases h
              rfl
            · cases h
        simpa [hpar] using ht
  | cons next rest ih =>
    rw [walkIn] at h
    rw [walkDirs]
    split at h
    · cases h
    · next ht =>
      split at h
      · next c hl =>
        obtain ⟨hmem, hall⟩ := ih h
        exact ⟨List.mem_cons_of_mem _ hmem, List.forall_mem_cons.mpr ⟨ht, hall⟩⟩
      · cases h

/-- A path that resolves has led through directories that the caller may search. -/
theorem resolve_traversed (hparent : flags.parent = true) (h : resolve V up T flags user path = .ok info) :
    info.parentInodeNum ∈ traversed up T path ∧ ∀ e ∈ traversed up T path, mayTraverse V user e = .ok () := by
  rw [resolve] at h
  split at h
  · cases h
  · split at h
    · cases h
    · split at h
      · cases h
      · split at h
        · cases h
        · next hc =>
          rw [traversed, hc]
          exact walkIn_dirs hparent h

theorem components_slash (h : path.1 = [slash]) : components path = [] := by
  rw [components, h]
  decide

theorem resolve_one (hvalid : user.valid = true) (hhead : path.1.head? = some slash) (hc : components path = [comp]) :
    resolve V up T flags user path = leafIn V up T flags user rootInodeNum comp := by
  have hne : path.1 ≠ [slash] := fun he => by
    rw [components_slash he] at hc
    cases hc
  rw [resolve, hhead, if_neg (by simp), hvalid, if_neg (by simp), if_neg hne, hc]
  rfl

theorem leafIn_eq (hlen : comp.length < filenameLen) (ht : mayTraverse V user p = .ok ()) :
    leafIn V up T flags user p comp = match lookup (dirSlots up T p) comp with
      | some c => .ok ⟨if flags.parent then p else noInode, c, true, comp⟩
      | none => if flags.allowMissing then .ok ⟨if flags.parent then p else noInode, noInode, false, comp⟩
        else .error .enoent := by
  rw [leafIn, if_neg (Nat.not_le.mpr hlen), ht]

namespace Mount

variable {m : Mount}

theorem reads_checkParentTraverse (m : Mount) (user : User) (hp : V.ibit p = true) (h : Vol m.sb V G T up) :
    m.Reads (checkParentTraverse m.sb true user p) V (mayTraverse V user p) := by
  rw [checkParentTraverse, mayTraverse]
  by_cases hr : p = rootInodeNum
  · rw [if_pos (.inr hr), if_pos hr]
    exact Reads.pure _
  · rw [if_neg (by simp [hr]), if_neg hr]
    refine Reads.bind (m.reads_mofsReadInode V (h.wf.range p hp)) ?_
    cases (V.inode p).isDir with
    | false => exact Reads.throw _
    | true => exact Reads.ofExcept _

theorem reads_findIn (m : Mount) (h : Vol m.sb V G T up) (hd : (V.inode p).isDir = true) (hcomp : comp ≠ [] ∧ 0 ∉ comp) :
    m.Reads (findDirEntry m.sb comp p) V
      (match lookup (dirSlots up T p) comp with
        | some c => .ok c
        | none => .error .enoent) :=
  m.reads_findDirEntry (h.dirAt hd) hcomp.1 hcomp.2

theorem reads_resolveLeaf (m : Mount) (h : Vol m.sb V G T up) (hp : V.ibit p = true) (hcomp : comp ≠ [] ∧ 0 ∉ comp)
    (hinode : flags.inode = true) (haccess : flags.checkAccess = true) (user : User) :
    m.Reads (resolveLeaf m.sb flags user p comp) V (leafIn V up T flags user p comp) := by
  rw [resolveLeaf, leafIn]
  split
  · exact Reads.throw _
  · have ht := m.reads_checkParentTraverse user hp h
    rw [hinode, haccess]
    simp only [Bool.true_eq_false, if_false]
    cases hm : mayTraverse V user p with
    | error e =>
      rw [hm] at ht
      exact Reads.bind_error ht
    | ok u =>
      rw [hm] at ht
      have hd := isDir_of_mayTraverse h.rootDir hm
      refine Reads.bind ht ?_
      have hfind := m.reads_findIn h hd hcomp
      cases hl : lookup (dirSlots up T p) comp with
      | some c =>
        rw [hl] at hfind
        refine Reads.bind hfind.attempt ?_
        have hc := h.used_of_mem hd (mem_of_lookup hl)
        dsimp only
        rw [if_neg (m.not_isNeg' (h.wf.range c hc))]
        exact Reads.pure _
      | none =>
        rw [hl] at hfind
        refine Reads.bind hfind.attempt ?_
        dsimp only
        split
        · exact Reads.pure _
        · exact Reads.throw _

theorem reads_walkComponents (m : Mount) (h : Vol m.sb V G T up) (hinode : flags.inode = true)
    (haccess : flags.checkAccess = true) (user : User) {rest : List Name} (hp : V.ibit p = true)
    (hcomp : ∀ x ∈ comp :: rest, x ≠ [] ∧ 0 ∉ x) :
    m.Reads (walkComponents m.sb flags user p comp rest) V (walkIn V up T flags user p comp rest) := by
  induction rest generalizing p comp with
  | nil => exact m.reads_resolveLeaf h hp (hcomp comp List.mem_cons_self) hinode haccess user
  | cons next rest ih =>
    have ht := m.reads_checkParentTraverse user hp h
    rw [walkComponents, walkIn, haccess]
    cases hm : mayTraverse V user p with
    | error e =>
      rw [hm] at ht
      exact Reads.bind_error ht
    | ok u =>
      rw [hm] at ht
      have hd := isDir_of_mayTraverse h.rootDir hm
      refine Reads.bind ht ?_
      have hfind := m.reads_findIn h hd (hcomp comp List.mem_cons_self)
      cases hl : lookup (dirSlots up T p) comp with
      | some c =>
        rw [hl] at hfind
        refine Reads.bind hfind.attempt ?_
        have hc := h.used_of_mem hd (mem_of_lookup hl)
        dsimp only
        rw [if_neg (m.not_isNeg' (h.wf.range c hc))]
        exact ih hc fun x hx => hcomp x (List.mem_cons_of_mem _ hx)
      | none =>
        rw [hl] at hfind
        refine Reads.bind hfind.attempt ?_
        exact Reads.throw _

/-- Path resolution reads the volume and changes nothing. -/
theorem reads_mofsResolvePath (m : Mount) (h : Vol m.sb V G T up) (flags : ResolveFlags) (hinode : flags.inode = true)
    (haccess : flags.checkAccess = true) (user : User) (path : Path) :
    m.Reads (mofsResolvePath m.sb user path flags) V (resolve V up T flags user path) := by
  rw [mofsResolvePath, resolve, hinode, haccess]
  simp only [Bool.true_eq_false, false_and, and_false, if_false, true_and]
  split
  · exact Reads.throw _
  · split
    · exact Reads.throw _
    · split
      · split
        · exact Reads.throw _
        · exact Reads.pure _
      · cases hc : components path with
        | nil => exact Reads.throw _
        | cons current rest =>
          exact m.reads_walkComponents h hinode haccess user h.rootUsed fun x hx => mem_components (hc ▸ hx)

end Mount

end Mofs
