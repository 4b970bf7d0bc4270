import Mofs.FreshVolume

namespace Mofs

open Effect Bytes Slots

variable {m : Mount} {d : Disk} {G : Owners} {T : Nat → List Slot} {up : Nat → Nat} {user : User} {flags : ResolveFlags}
  {p q x : Nat} {comp : Name} {path : Path}

theorem filter_splitOn_append (a b : List UInt8) : ((a ++ slash :: b).splitOn slash).filter (· ≠ []) =
    (a.splitOn slash).filter (· ≠ []) ++ (b.splitOn slash).filter (· ≠ []) := by
  have hsplit : (a ++ slash :: b).splitOn slash = a.splitOn slash ++ b.splitOn slash :=
    List.splitOnP_append_cons a b (beq_self_eq_true slash)
  rw [hsplit, List.filter_append]

/-- A path with one slash more, next to another one or at the end. -/
inductive ExtraSlash : List UInt8 → List UInt8 → Prop
  | double (a b : List UInt8) : ExtraSlash (a ++ slash :: b) (a ++ slash :: slash :: b)
  | trailing (a : List UInt8) : ExtraSlash a (a ++ [slash])

theorem ExtraSlash.components {path path' : Path} (h : ExtraSlash path.1 path'.1) : components path' = components path := by
  rw [Mofs.components, Mofs.components]
  generalize path.1 = s, path'.1 = t at h
  cases h with
  | double a b =>
    have hb : ((slash :: b).splitOn slash).filter (· ≠ []) = (b.splitOn slash).filter (· ≠ []) := filter_splitOn_append [] b
    rw [filter_splitOn_append, filter_splitOn_append, hb]
  | trailing a => rw [filter_splitOn_append, show (List.splitOn slash []).filter (· ≠ []) = [] from rfl, List.append_nil]

theorem ExtraSlash.head {s t : List UInt8} (h : ExtraSlash s t) (hs : s.head? = some slash) : t.head? = some slash := by
  cases h with
  | double a b =>
    cases a with
    | nil => rfl
    | cons y a => exact hs
  | trailing =>
    cases s with
    | nil => rfl
    | cons y s => exact hs

/-- Resolution depends on the components of the path alone. -/
theorem mofsResolvePath_congr (sb : Superblock) (user : User) (flags : ResolveFlags) {path path' : Path}
    (hs : path.1.head? = some slash) (hs' : path'.1.head? = some slash) (hc : components path' = components path)
    (hne : components path ≠ []) : mofsResolvePath sb user path' flags = mofsResolvePath sb user path flags := by
  have hr : path.1 ≠ [slash] := fun h => hne (components_slash h)
  have hr' : path'.1 ≠ [slash] := fun h => hne (hc ▸ components_slash h)
  rw [mofsResolvePath, mofsResolvePath, if_neg (not_not.mpr hs), if_neg (not_not.mpr hs'), if_neg hr, if_neg hr', hc]

/-- What `find_dir_entry` finds in directory `p`. -/
def foundIn (m : Mount) (d : Disk) (p : Nat) (comp : Name) : Option Nat :=
  match exec m.env (findDirEntry m.sb comp p) d with
  | some (.ok c, _) => some c
  | _ => none

/-- One component: from directory `p`, which has to be the root or a directory that the caller may search, to what is found
in it. -/
def enterDir (m : Mount) (d : Disk) (user : User) (p : Nat) (comp : Name) : Option Nat :=
  match mayTraverse (m.sb.view d) user p with
  | .ok () => foundIn m d p comp
  | .error _ => none

/-- The inode reached from the root through the components. -/
def follow (m : Mount) (d : Disk) (user : User) (comps : List Name) : Option Nat :=
  comps.foldlM (enterDir m d user) rootInodeNum

theorem enterDir_eq (h : Vol m.sb (m.sb.view d) G T up) (hcomp : comp ≠ [] ∧ 0 ∉ comp) :
    enterDir m d user p comp = match mayTraverse (m.sb.view d) user p with
      | .ok () => lookup (dirSlots up T p) comp
      | .error _ => none := by
  rw [enterDir]
  cases hm : mayTraverse (m.sb.view d) user p with
  | error e => rfl
  | ok u =>
    have hfind := (m.reads_findIn h (isDir_of_mayTraverse h.rootDir hm) hcomp).exec_eq rfl
    simp only [foundIn, hfind]
    cases lookup (dirSlots up T p) comp <;> rfl

theorem used_of_enterDir (h : Vol m.sb (m.sb.view d) G T up) (hcomp : comp ≠ [] ∧ 0 ∉ comp)
    (he : enterDir m d user p comp = some q) : (m.sb.view d).ibit q = true := by
  rw [enterDir_eq h hcomp] at he
  cases hm : mayTraverse (m.sb.view d) user p with
  | error e => simp only [hm, reduceCtorEq] at he
  | ok u =>
    simp only [hm] at he
    exact h.used_of_mem (isDir_of_mayTraverse h.rootDir hm) (mem_of_lookup he)

/-- One iteration of the loop over the components. -/
theorem exec_walk_cons (user : User) (h : Vol m.sb (m.sb.view d) G T up) (haccess : flags.checkAccess = true)
    (hp : (m.sb.view d).ibit p = true) (hcomp : comp ≠ [] ∧ 0 ∉ comp) (next : Name) (rest : List Name) :
    match enterDir m d user p comp with
    | some c => exec m.env (walkComponents m.sb flags user p comp (next :: rest)) d =
        exec m.env (walkComponents m.sb flags user c next rest) d
    | none => ∃ e, exec m.env (walkComponents m.sb flags user p comp (next :: rest)) d = some (.error e, d) := by
  have ht := (m.reads_checkParentTraverse user hp h).exec_eq rfl
  rw [enterDir_eq h hcomp, walkComponents, haccess]
  cases hm : mayTraverse (m.sb.view d) user p with
  | error e =>
    rw [hm] at ht
    exact ⟨e, run_bind_error ht⟩
  | ok u =>
    rw [hm] at ht
    have hd := isDir_of_mayTraverse h.rootDir hm
    have hfind := (m.reads_findIn h hd hcomp).attempt.exec_eq rfl
    cases hl : lookup (dirSlots up T p) comp with
    | some c =>
      have hc := h.used_of_mem hd (mem_of_lookup hl)
      rw [hl] at hfind
      simp only [exec]
      rw [run_bind_ok ht, run_bind_ok hfind]
      exact congrArg (fun k => run m.env.answer k d) (if_neg (m.not_isNeg' (h.wf.range c hc)))
    | none =>
      rw [hl] at hfind
      refine ⟨.enoent, ?_⟩
      rw [exec, run_bind_ok ht, run_bind_ok hfind]
      rfl

/-- The loop goes through all components but the last, and then looks at the last one. -/
theorem exec_walkComponents_fold (h : Vol m.sb (m.sb.view d) G T up) (haccess : flags.checkAccess = true)
    (hp : (m.sb.view d).ibit p = true) {rest : List Name} (hcomp : ∀ w ∈ comp :: rest, w ≠ [] ∧ 0 ∉ w) :
    match (comp :: rest).dropLast.foldlM (enterDir m d user) p with
    | some q => (m.sb.view d).ibit q = true ∧ exec m.env (walkComponents m.sb flags user p comp rest) d =
        exec m.env (resolveLeaf m.sb flags user q ((comp :: rest).getLast (List.cons_ne_nil _ _))) d
    | none => ∃ e, exec m.env (walkComponents m.sb flags user p comp rest) d = some (.error e, d) := by
  induction rest generalizing p comp with
  | nil => exact ⟨hp, rfl⟩
  | cons next rest ih =>
    have hhead := hcomp comp List.mem_cons_self
    have hstep := exec_walk_cons user h haccess hp hhead next rest
    rw [List.dropLast_cons_cons, List.foldlM_cons, List.getLast_cons_cons]
    cases he : enterDir m d user p comp with
    | none =>
      rw [he] at hstep
      exact hstep
    | some c =>
      rw [he] at hstep
      have hc := used_of_enterDir h hhead he
      have hrest := ih hc fun w hw => hcomp w (List.mem_cons_of_mem _ hw)
      simp only [Option.bind_eq_bind, Option.bind_some]
      cases hf : (next :: rest).dropLast.foldlM (enterDir m d user) c with
      | none =>
        rw [hf] at hrest
        obtain ⟨e, hrest⟩ := hrest
        exact ⟨e, hstep.trans hrest⟩
      | some q =>
        rw [hf] at hrest
        exact ⟨hrest.1, hstep.trans hrest.2⟩

/-- `mofs_resolve_path` on an absolute path with components, for a caller with a valid context. -/
theorem exec_resolve (h : Vol m.sb (m.sb.view d) G T up) (haccess : flags.checkAccess = true)
    (hflags : flags.inode = true ∨ flags.parent = true ∧ flags.allowMissing = false) (hs : path.1.head? = some slash)
    (hne : components path ≠ []) (hvalid : user.valid = true) :
    match follow m d user (components path).dropLast with
    | some q => (m.sb.view d).ibit q = true ∧ exec m.env (mofsResolvePath m.sb user path flags) d =
        exec m.env (resolveLeaf m.sb flags user q ((components path).getLast hne)) d
    | none => ∃ e, exec m.env (mofsResolvePath m.sb user path flags) d = some (.error e, d) := by
  have hr : path.1 ≠ [slash] := fun h => hne (components_slash h)
  have h1 : ¬ (flags.inode = false ∧ flags.parent = false) := by
    rintro ⟨hi, hp⟩
    simp [hi, hp] at hflags
  have h2 : ¬ (flags.allowMissing = true ∧ flags.inode = false) := by
    rintro ⟨ha, hi⟩
    simp [hi, ha] at hflags
  have h3 : ¬ (flags.checkAccess = true ∧ user.valid = false) := by simp [hvalid]
  obtain ⟨comp, rest, hc⟩ := List.exists_cons_of_ne_nil hne
  rw [mofsResolvePath, if_neg (not_not.mpr hs), if_neg h1, if_neg h2, if_neg h3, if_neg hr, follow]
  simp only [hc]
  exact exec_walkComponents_fold h haccess h.rootUsed fun w hw => mem_components (hc ▸ hw)

theorem follow_snoc (m : Mount) (d : Disk) (user : User) (comps : List Name) (comp : Name) :
    follow m d user (comps ++ [comp]) = (follow m d user comps).bind fun q => enterDir m d user q comp := by
  rw [follow, List.foldlM_append]
  change (follow m d user comps).bind _ = _
  congr 1
  funext q
  rw [List.foldlM_cons]
  cases enterDir m d user q comp <;> rfl

/-- The last component is found if its name fits an entry and the fold finds it. -/
theorem resolveLeaf_found_iff (h : Vol m.sb (m.sb.view d) G T up) (hinode : flags.inode = true)
    (haccess : flags.checkAccess = true) (hq : (m.sb.view d).ibit q = true) (hcomp : comp ≠ [] ∧ 0 ∉ comp) :
    (∃ info d', exec m.env (resolveLeaf m.sb flags user q comp) d = some (.ok info, d') ∧ info.leafFound = true ∧
      info.leafInodeNum = x) ↔ comp.length ≤ 27 ∧ enterDir m d user q comp = some x := by
  rw [(m.reads_resolveLeaf h hq hcomp hinode haccess user).exec_eq rfl, leafIn, enterDir_eq h hcomp]
  by_cases hlen : filenameLen ≤ comp.length
  · have hno : ¬ comp.length ≤ 27 := Nat.not_le.mpr hlen
    simp [hlen, hno]
  have hyes : comp.length ≤ 27 := Nat.lt_succ_iff.mp (Nat.not_le.mp hlen)
  rw [if_neg hlen, and_iff_right hyes]
  cases mayTraverse (m.sb.view d) user q with
  | error e => simp
  | ok u =>
    cases lookup (dirSlots up T q) comp with
    | none => cases flags.allowMissing <;> simp
    | some c => simp

theorem parent_of_resolveLeaf (h : Vol m.sb (m.sb.view d) G T up) (hparent : flags.parent = true)
    (haccess : flags.checkAccess = true) (hq : (m.sb.view d).ibit q = true) (hcomp : comp ≠ [] ∧ 0 ∉ comp) {info : PathInfo}
    {d' : Disk} (hrun : exec m.env (resolveLeaf m.sb flags user q comp) d = some (.ok info, d')) :
    info.parentInodeNum = q := by
  cases hi : flags.inode with
  | true =>
    rw [(m.reads_resolveLeaf h hq hcomp hi haccess user).exec_eq rfl] at hrun
    obtain ⟨-, hp, -⟩ := Located.of_leafIn h.rootDir hcomp (Prod.mk.inj (Option.some.inj hrun)).1
    exact hp hparent
  | false =>
    by_cases hlen : filenameLen ≤ comp.length
    · rw [resolveLeaf, if_pos hlen] at hrun
      cases hrun
    · rw [resolveLeaf, if_neg hlen, hparent, hi] at hrun
      cases hrun
      rfl

/-- For a caller with a valid context, a path with components is found where the fold leads. -/
theorem resolve_found_iff (h : Vol m.sb (m.sb.view d) G T up) (hinode : flags.inode = true) (haccess : flags.checkAccess = true)
    (hs : path.1.head? = some slash) (hne : components path ≠ []) (hvalid : user.valid = true) :
    (∃ info d', exec m.env (mofsResolvePath m.sb user path flags) d = some (.ok info, d') ∧ info.leafFound = true ∧
      info.leafInodeNum = x) ↔
    ((components path).getLast hne).length ≤ 27 ∧ follow m d user (components path) = some x := by
  have hexec := exec_resolve h haccess (.inl hinode) hs hne hvalid
  have hsnoc := follow_snoc m d user (components path).dropLast ((components path).getLast hne)
  rw [List.dropLast_append_getLast hne] at hsnoc
  rw [hsnoc]
  cases hf : follow m d user (components path).dropLast with
  | none =>
    rw [hf] at hexec
    obtain ⟨e, hexec⟩ := hexec
    simp [hexec]
  | some q =>
    rw [hf] at hexec
    rw [hexec.2, resolveLeaf_found_iff h hinode haccess hexec.1 (mem_components (List.getLast_mem hne))]
    rfl

/-- Path resolution is a fold over the components of the path. An invalid caller context is refused first. -/
theorem mofsResolvePath_fold (h : Vol m.sb (m.sb.view d) G T up) (user : User) (path : Path) (hs : path.1.head? = some slash)
    (hne : components path ≠ []) :
    (∀ flags : ResolveFlags, flags.inode = true → flags.checkAccess = true → ∀ x,
      (∃ info d', exec m.env (mofsResolvePath m.sb user path flags) d = some (.ok info, d') ∧ info.leafFound = true ∧
        info.leafInodeNum = x) ↔
      user.valid = true ∧ ((components path).getLast hne).length ≤ 27 ∧ follow m d user (components path) = some x) ∧
    (∀ path' : Path, ExtraSlash path.1 path'.1 → ∀ flags,
      mofsResolvePath m.sb user path' flags = mofsResolvePath m.sb user path flags) ∧
    ∀ flags : ResolveFlags, flags.parent = true → flags.checkAccess = true → ∀ info d',
      exec m.env (mofsResolvePath m.sb user path flags) d = some (.ok info, d') →
      follow m d user (components path).dropLast = some info.parentInodeNum := by
  have hlast := mem_components (List.getLast_mem hne)
  -- a call that returns 0 was made with a valid context and flags that go together
  have hvalid (flags : ResolveFlags) (haccess : flags.checkAccess = true) {info : PathInfo} {d' : Disk}
      (hrun : exec m.env (mofsResolvePath m.sb user path flags) d = some (.ok info, d')) :
      user.valid = true ∧ ¬ (flags.allowMissing = true ∧ flags.inode = false) := by
    rw [mofsResolvePath, if_neg (not_not.mpr hs)] at hrun
    split at hrun
    · cases hrun
    split at hrun
    · cases hrun
    next hmiss =>
    split at hrun
    · cases hrun
    next hv => exact ⟨by simpa [haccess] using hv, hmiss⟩
  refine ⟨fun flags hinode haccess x => ?_, fun path' hx flags => ?_, fun flags hparent haccess info d' hrun => ?_⟩
  · by_cases hv : user.valid = true
    · rw [and_iff_right hv, resolve_found_iff h hinode haccess hs hne hv]
    · refine iff_of_false ?_ fun hr => hv hr.1
      rintro ⟨info, d', hrun, -⟩
      exact hv (hvalid flags haccess hrun).1
  · exact mofsResolvePath_congr m.sb user flags hs (hx.head hs) hx.components hne
  · obtain ⟨hv, hmiss⟩ := hvalid flags haccess hrun
    have hflags : flags.inode = true ∨ flags.parent = true ∧ flags.allowMissing = false := by
      cases hi : flags.inode with
      | true => exact .inl rfl
      | false => exact .inr ⟨hparent, by simpa [hi] using hmiss⟩
    have hexec := exec_resolve h haccess hflags hs hne hv
    cases hf : follow m d user (components path).dropLast with
    | none =>
      rw [hf] at hexec
      obtain ⟨e, hexec⟩ := hexec
      rw [hexec] at hrun
      cases hrun
    | some q =>
      rw [hf] at hexec
      rw [hexec.2] at hrun
      rw [parent_of_resolveLeaf h hparent haccess hexec.1 hlast hrun]

/-- The file of the root directory, with a doubled slash in front. -/
theorem mofsResolvePath_fold_one : ∃ (m : Mount) (d : Disk) (G : Owners) (T : Nat → List Slot) (up : Nat → Nat) (user : User),
    Vol m.sb (m.sb.view d) G T up ∧ pathA.1.head? = some slash ∧ components pathA ≠ [] ∧
    (∃ info d', exec m.env (mofsResolvePath m.sb user pathA resolveInode) d = some (.ok info, d') ∧ info.leafFound = true ∧
      info.leafInodeNum = 3) ∧
    mofsResolvePath m.sb user ⟨[47, 47, 65], by decide⟩ resolveInode = mofsResolvePath m.sb user pathA resolveInode := by
  obtain ⟨m, d, T, up, user, hscene, hvalid, -, -, hnames, -⟩ := exists_fileA
  have hne : components pathA ≠ [] := by decide
  have hfold := mofsResolvePath_fold hscene.vol user pathA (by decide) hne
  have hent : enterDir m d user rootInodeNum (letter 0) = some 3 := by
    rw [enterDir_eq hscene.vol (by decide), mayTraverse, if_pos rfl]
    simp only [hnames, if_pos]
  refine ⟨m, d, _, T, up, user, hscene.vol, by decide, hne, ?_, hfold.2.1 ⟨[47, 47, 65], by decide⟩ (.double [] [65]) _⟩
  have hshort : ((components pathA).getLast hne).length ≤ 27 := Nat.le_of_lt_succ (show [(65 : UInt8)].length < 28 by decide)
  refine (hfold.1 resolveInode rfl rfl 3).mpr ⟨hvalid, hshort, ?_⟩
  change List.foldlM (enterDir m d user) rootInodeNum [letter 0] = some 3
  rw [List.foldlM_cons, hent]
  rfl

/-- A caller context that is not valid: the file exists in the root directory, which needs no permission, and the path does
not resolve. -/
theorem resolve_invalid_caller : ∃ (m : Mount) (d : Disk) (G : Owners) (T : Nat → List Slot) (up : Nat → Nat) (user : User),
    Vol m.sb (m.sb.view d) G T up ∧ components pathA = [letter 0] ∧ (letter 0).length ≤ 27 ∧
    follow m d user (components pathA) = some 3 ∧
    exec m.env (mofsResolvePath m.sb user pathA resolveInode) d = some (.error .eperm, d) := by
  obtain ⟨m, d, T, up, user, hscene, -, -, -, hnames, -⟩ := exists_fileA
  have hent : enterDir m d { user with valid := false } rootInodeNum (letter 0) = some 3 := by
    rw [enterDir_eq hscene.vol (by decide), mayTraverse, if_pos rfl]
    simp only [hnames, if_pos]
  refine ⟨m, d, _, T, up, { user with valid := false }, hscene.vol, by decide, by decide, ?_, rfl⟩
  change List.foldlM (enterDir m d { user with valid := false }) rootInodeNum [letter 0] = some 3
  rw [List.foldlM_cons, hent]
  rfl

end Mofs
