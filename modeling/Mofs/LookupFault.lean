import Mofs.FreshVolume
import Mofs.WriteFault

namespace Mofs

open Effect Bytes Slots

variable {sb : Superblock} {env : Env} {d d' : Disk} {G : Owners} {T : Nat → List Slot} {up : Nat → Nat} {user : User}
  {path : Path} {flags : ResolveFlags} {e : Errno} {p : Nat} {comp : Name} {r : Except Errno PathInfo}

/-- A read of the device is answered with the error `e`. -/
def ReadFails (e : Errno) : (op : BlockOp) → BlockAns op → Prop
  | .read _, a => a = Except.error e
  | .write _ _, _ => False
  | .modify _ _ _, _ => False
  | .flush, _ => False
  | .invalidate _, _ => False
  | .now, _ => False

theorem ReadFails.fails (env : Env) (op : BlockOp) (a : BlockAns op) (h : ReadFails e op a) : env.Fails op a := by
  cases op with
  | read b => exact ⟨e, h⟩
  | write | modify | flush | invalidate | now => exact h.elim

/-- The answer for a path that leads to inode `x` when the device has failed with `e`: the error, or the inode after all. -/
def Tells (e : Errno) (x : Nat) (r : Except Errno PathInfo) : Prop :=
  r = .error e ∨ ∃ info, r = .ok info ∧ info.leafFound = true ∧ info.leafInodeNum = x

/-- The answer is that there is no such file. -/
def Denies (r : Except Errno PathInfo) : Prop := r = .error .enoent ∨ ∃ info, r = .ok info ∧ info.leafFound = false

theorem Denies.not_tells {x : Nat} (he : e ≠ .enoent) (h : Denies r) : ¬ Tells e x r := by
  rintro (rfl | ⟨info, rfl, hfound, -⟩)
  · obtain hr | ⟨info, hr, -⟩ := h
    · exact he (Except.error.inj hr)
    · cases hr
  · obtain hr | ⟨info', hr, hmiss⟩ := h
    · cases hr
    · cases hr
      rw [hfound] at hmiss
      cases hmiss

section Surfaces

theorem surfaces_readBlocksFrom (i start n k : Nat) (buf : List Block) :
    Surfaces env.answer env.Fails (readBlocksFrom sb i start n k buf) := by
  induction n generalizing k buf with
  | zero => exact .pure _
  | succ n ih =>
    rw [readBlocksFrom]
    refine (surfaces_resolveFileDataBlock i _).bind fun b => (surfaces_readContinuousBlocks b).bind fun r => ?_
    split
    · exact .pure _
    split
    · exact .fail _
    · exact ih _ _

theorem surfaces_readFileDataBlock (i start req : Nat) : Surfaces env.answer env.Fails (readFileDataBlock sb i start req) := by
  rw [readFileDataBlock]
  split
  · exact .fail _
  split
  · exact .pure _
  refine (surfaces_mofsReadInode i).bind fun x => ?_
  dsimp only
  split
  · exact .pure _
  refine (surfaces_readBlocksFrom i _ _ _ _).bind fun r => ?_
  split
  · exact .pure _
  · exact .pure _

theorem surfaces_findInBlocks (comp : Name) (p n k : Nat) (buf : Block) :
    Surfaces env.answer env.Fails (findInBlocks sb comp p n k buf) := by
  induction n generalizing k buf with
  | zero => exact .fail _
  | succ n ih =>
    rw [findInBlocks]
    refine ((surfaces_readFileDataBlock p k 1).bind fun _ => .pure _).bind ?_
    rintro ⟨r, buf⟩
    dsimp only
    split
    · exact .pure _
    · exact ih _ _

/-- A lookup does not find anything when a read fails. -/
theorem surfaces_findDirEntry (comp : Name) (p : Nat) : Surfaces env.answer env.Fails (findDirEntry sb comp p) := by
  rw [findDirEntry, findDirEntryWith]
  split
  · exact .fail _
  · exact (surfaces_mofsReadInode p).bind fun x => surfaces_findInBlocks comp p _ _ _

end Surfaces

section Reads

theorem faulted_readBlock {b : Nat} {r : Except Errno ReadAns}
    (h : Faulted env.answer (ReadFails e) (readContinuousBlocks b) d r d') : r = .error e := by
  rcases faulted_bind h with ⟨err, -, hc⟩ | ⟨a, u, hc, hr⟩ | ⟨a, u, -, hf⟩
  · obtain ⟨a, -, ha, -⟩ := faulted_call hc
    cases ha
  · obtain ⟨_, rfl, ha, rfl⟩ := faulted_call hc
    cases ha
    cases hr
    rfl
  · exact absurd hf not_faulted_ofExcept

/-- The error of a failed inode read is the one of the device. -/
theorem faulted_readInode {i : Nat} {r : Except Errno Inode} (h : Faulted env.answer (ReadFails e) (mofsReadInode sb i) d r d') :
    r = .error e := by
  rw [mofsReadInode] at h
  split at h
  · exact absurd h not_faulted_fail
  refine eq_error_of_faulted_bind (fun r u hr => ?_) (fun _ _ _ _ => not_faulted_pure) h
  refine eq_error_of_faulted_bind (fun _ _ => faulted_readBlock) (fun a _ _ _ hf => ?_) hr
  split at hf
  · exact not_faulted_fail hf
  · exact not_faulted_pure hf

theorem faulted_checkParentTraverse {access : Bool} {r : Except Errno Unit}
    (h : Faulted env.answer (ReadFails e) (checkParentTraverse sb access user p) d r d') : r = .error e := by
  rw [checkParentTraverse] at h
  split at h
  · exact absurd h not_faulted_pure
  refine eq_error_of_faulted_bind (fun _ _ => faulted_readInode) (fun a _ _ _ hf => ?_) h
  split at hf
  · exact not_faulted_fail hf
  · exact not_faulted_ofExcept hf

/-- An inode read fails when its first access does. -/
theorem exists_faulted_readInode (m : Mount) {i : Nat} (hi : i < m.sb.inodeNum) (e : Errno) (d : Disk) :
    Faulted m.env.answer (ReadFails e) (mofsReadInode m.sb i) d (.error e) d := by
  rw [mofsReadInode, if_neg (m.not_isNeg hi)]
  refine Faulted.bind_error (Faulted.bind_error ?_)
  exact .here (a := Except.error e) rfl rfl

theorem exists_faulted_findDirEntry (m : Mount) (hp : p < m.sb.inodeNum) (comp : Name) (e : Errno) (d : Disk) :
    Faulted m.env.answer (ReadFails e) (findDirEntry m.sb comp p) d (.error e) d := by
  rw [findDirEntry, findDirEntryWith, if_neg (m.not_isNeg' hp)]
  exact Faulted.bind_error (exists_faulted_readInode m hp e d)

end Reads

/-- One component: the traverse check reports the failed read, and the lookup fails on it or comes before it. -/
theorem faulted_component {access : Bool} {f : Except Errno Nat → M PathInfo}
    (h : Faulted env.answer (ReadFails e)
      (do checkParentTraverse sb access user p; let x ← attempt (findDirEntry sb comp p); f x) d r d') :
    r = .error e ∨ (∃ err u, run env.answer (f (.error err)) u = some (r, d')) ∨
      ∃ x u, Faulted env.answer (ReadFails e) (f x) u r d' := by
  rcases faulted_bind h with ⟨err, rfl, hcheck⟩ | ⟨a, u, hcheck, -⟩ | ⟨a, u, -, hrest⟩
  · exact .inl (congrArg Except.error (Except.error.inj (faulted_checkParentTraverse hcheck)))
  · cases faulted_checkParentTraverse hcheck
  rcases faulted_bind hrest with ⟨err, -, hfind⟩ | ⟨x, v, hfind, hrun⟩ | ⟨x, v, -, hlater⟩
  · obtain ⟨r', hr', -⟩ := faulted_attempt hfind
    cases hr'
  · obtain ⟨r', hr', hfind'⟩ := faulted_attempt hfind
    cases hr'
    obtain ⟨err, rfl⟩ := surfaces_findDirEntry comp p _ _ _ (hfind'.mono (ReadFails.fails env))
    exact .inr (.inl ⟨err, v, hrun⟩)
  · exact .inr (.inr ⟨x, v, hlater⟩)

/-- What a missing leaf is answered with. -/
theorem denies_of_missing {q : Nat} {u : Disk}
    (h : run env.answer (if flags.allowMissing then pure ⟨q, noInode, false, comp⟩ else throw .enoent : M PathInfo) u =
      some (r, d')) : Denies r := by
  split at h
  · cases h
    exact .inr ⟨_, rfl, rfl⟩
  · cases h
    exact .inl rfl

theorem faulted_resolveLeaf (h : Faulted env.answer (ReadFails e) (resolveLeaf sb flags user p comp) d r d') :
    r = .error e ∨ Denies r := by
  rw [resolveLeaf] at h
  split at h
  · exact absurd h not_faulted_fail
  dsimp only at h
  split at h
  · exact absurd h not_faulted_pure
  rcases faulted_component h with hr | ⟨err, u, hrun⟩ | ⟨x, u, hf⟩
  · exact .inl hr
  · exact .inr (denies_of_missing hrun)
  · -- nothing is read after the lookup
    exfalso
    cases x with
    | error err =>
      dsimp only at hf
      split at hf
      · exact not_faulted_pure hf
      · exact not_faulted_fail hf
    | ok child =>
      dsimp only at hf
      split at hf
      · split at hf
        · exact not_faulted_pure hf
        · exact not_faulted_fail hf
      · exact not_faulted_pure hf

theorem faulted_walkComponents {rest : List Name}
    (h : Faulted env.answer (ReadFails e) (walkComponents sb flags user p comp rest) d r d') : r = .error e ∨ Denies r := by
  induction rest generalizing p comp d with
  | nil => exact faulted_resolveLeaf h
  | cons next rest ih =>
    rw [walkComponents] at h
    rcases faulted_component h with hr | ⟨err, u, hrun⟩ | ⟨x, u, hf⟩
    · exact .inl hr
    · cases hrun
      exact .inr (.inl rfl)
    · cases x with
      | error err => exact absurd hf not_faulted_fail
      | ok child =>
        dsimp only at hf
        split at hf
        · exact absurd hf not_faulted_fail
        · exact ih hf

/-- A resolution during which a read fails ends with the error of the device, or denies that there is such a file. -/
theorem faulted_mofsResolvePath (h : Faulted env.answer (ReadFails e) (mofsResolvePath sb user path flags) d r d') :
    path.1 ≠ [slash] ∧ (r = .error e ∨ Denies r) := by
  rw [mofsResolvePath] at h
  split at h
  · exact absurd h not_faulted_fail
  split at h
  · exact absurd h not_faulted_fail
  split at h
  · exact absurd h not_faulted_fail
  split at h
  · exact absurd h not_faulted_fail
  split at h
  · split at h
    · exact absurd h not_faulted_fail
    · exact absurd h not_faulted_pure
  next hne =>
  split at h
  · exact absurd h not_faulted_fail
  · exact ⟨hne, faulted_walkComponents h⟩

/-- What a path is answered with when its first component is not found. -/
def missingFirst (flags : ResolveFlags) (comp : Name) (rest : List Name) : Except Errno PathInfo :=
  if rest = [] ∧ flags.allowMissing = true then .ok ⟨if flags.parent then rootInodeNum else noInode, noInode, false, comp⟩
  else .error .enoent

theorem denies_missingFirst (flags : ResolveFlags) (comp : Name) (rest : List Name) : Denies (missingFirst flags comp rest) := by
  rw [missingFirst]
  split
  · exact .inr ⟨_, rfl, rfl⟩
  · exact .inl rfl

/-- When the first read of the first lookup fails, its component counts as missing. -/
theorem faulted_missingFirst (m : Mount) (user : User) (hroot : rootInodeNum < m.sb.inodeNum) (hinode : flags.inode = true)
    (e : Errno) (d : Disk) {rest : List Name} (hleaf : rest = [] → comp.length < filenameLen) :
    Faulted m.env.answer (ReadFails e) (walkComponents m.sb flags user rootInodeNum comp rest) d
      (missingFirst flags comp rest) d := by
  have hfind := (exists_faulted_findDirEntry m hroot comp e d).attempt
  have hcheck (access : Bool) : run m.env.answer (checkParentTraverse m.sb access user rootInodeNum) d = some (.ok (), d) := by
    rw [checkParentTraverse, if_pos (.inr rfl)]
    rfl
  cases rest with
  | cons next rest =>
    rw [walkComponents, missingFirst, if_neg (by simp)]
    exact Faulted.bind_later (hcheck _) (Faulted.bind_ok hfind rfl)
  | nil =>
    rw [walkComponents, resolveLeaf, if_neg (Nat.not_le.mpr (hleaf rfl)), hinode]
    refine Faulted.bind_later (hcheck _) (Faulted.bind_ok hfind ?_)
    cases hm : flags.allowMissing with
    | true =>
      have hmiss : missingFirst flags comp [] = _ := if_pos ⟨rfl, hm⟩
      rw [hmiss]
      rfl
    | false =>
      have hmiss : missingFirst flags comp [] = _ := if_neg (by simp [hm])
      rw [hmiss]
      rfl

/-- A path other than `/` that was resolved went through the loop over its components. -/
theorem walks_of_ok {info : PathInfo} (hrun : exec env (mofsResolvePath sb user path flags) d = some (.ok info, d'))
    (hne : path.1 ≠ [slash]) : ∃ comp rest, mofsResolvePath sb user path flags = walkComponents sb flags user rootInodeNum comp rest ∧
      (rest = [] → comp.length < filenameLen) := by
  rw [mofsResolvePath] at hrun ⊢
  split at hrun
  · cases hrun
  next hs =>
  split at hrun
  · cases hrun
  next hi =>
  split at hrun
  · cases hrun
  next ha =>
  split at hrun
  · cases hrun
  next hv =>
  rw [if_neg hs, if_neg hi, if_neg ha, if_neg hv, if_neg hne]
  cases hc : components path with
  | nil =>
    rw [hc] at hrun
    cases hrun
  | cons comp rest =>
    refine ⟨comp, rest, rfl, ?_⟩
    rintro rfl
    by_contra hlen
    simp only [hc] at hrun
    rw [walkComponents, resolveLeaf, if_pos (Nat.not_lt.mp hlen)] at hrun
    cases hrun

/-- The leaf is looked up on request only. -/
theorem inode_of_leafFound {rest : List Name} {info : PathInfo}
    (hrun : exec env (walkComponents sb flags user p comp rest) d = some (.ok info, d')) (hfound : info.leafFound = true) :
    flags.inode = true := by
  induction rest generalizing p comp d with
  | nil =>
    by_contra hinode
    rw [walkComponents, resolveLeaf] at hrun
    split at hrun
    · cases hrun
    · dsimp only at hrun
      rw [if_pos (Bool.eq_false_of_not_eq_true hinode)] at hrun
      cases hrun
      cases hfound
  | cons next rest ih =>
    rw [walkComponents] at hrun
    obtain ⟨-, u, -, hlook⟩ := run_bind_eq_ok hrun
    obtain ⟨x, v, -, hwalk⟩ := run_bind_eq_ok hlook
    cases x with
    | error err => cases hwalk
    | ok child =>
      dsimp only at hwalk
      split at hwalk
      · cases hwalk
      · exact ih hwalk

/-- The resolver passes on the errors of the device exactly for the path `/`, for which nothing is read. A failed read ends with
the error of the device or denies the file. -/
theorem device_error_told_iff {m : Mount} (h : Vol m.sb (m.sb.view d) G T up) {info : PathInfo}
    (hrun : exec m.env (mofsResolvePath m.sb user path flags) d = some (.ok info, d')) (hfound : info.leafFound = true) :
    ((∀ e, e ≠ Errno.enoent → ∀ r t, Faulted m.env.answer (ReadFails e) (mofsResolvePath m.sb user path flags) d r t →
      Tells e info.leafInodeNum r) ↔ path.1 = [slash]) ∧
    ∀ e r t, Faulted m.env.answer (ReadFails e) (mofsResolvePath m.sb user path flags) d r t → r = .error e ∨ Denies r := by
  refine ⟨⟨fun htells => ?_, fun hroot e _ r t hf => ?_⟩, fun e r t hf => (faulted_mofsResolvePath hf).2⟩
  · by_contra hne
    obtain ⟨comp, rest, hwalk, hleaf⟩ := walks_of_ok hrun hne
    have hinode := inode_of_leafFound (hwalk ▸ hrun) hfound
    have hf := faulted_missingFirst m user (h.wf.range _ h.rootUsed) hinode .eio d hleaf
    exact (denies_missingFirst flags comp rest).not_tells (by decide) (htells .eio (by decide) _ d (hwalk ▸ hf))
  · exact absurd hroot (faulted_mofsResolvePath hf).1

/-- A volume with one file in its root, which resolves with every flag set that asks for its inode. -/
theorem exists_found : ∃ (m : Mount) (d : Disk) (G : Owners) (T : Nat → List Slot) (up : Nat → Nat) (user : User),
    Vol m.sb (m.sb.view d) G T up ∧ user.valid = true ∧ ∀ flags : ResolveFlags, flags.inode = true → flags.checkAccess = true →
      ∃ info, exec m.env (mofsResolvePath m.sb user pathA flags) d = some (.ok info, d) ∧ info.leafFound = true ∧
        info.leafInodeNum = 3 := by
  obtain ⟨m, d, T, up, user, hscene, hvalid, -, -, hnames, -⟩ := exists_fileA
  refine ⟨m, d, _, T, up, user, hscene.vol, hvalid, fun flags hinode haccess => ?_⟩
  have hres : resolve (m.sb.view d) up T flags user pathA =
      .ok ⟨if flags.parent then rootInodeNum else noInode, 3, true, letter 0⟩ := by
    rw [resolve_one hvalid rfl (show components pathA = [letter 0] by decide), leafIn_eq (by decide) (if_pos rfl), hnames,
      if_pos rfl]
  have hexec := (m.reads_mofsResolvePath hscene.vol flags hinode haccess user pathA).exec_eq rfl
  exact ⟨_, hexec.trans (by rw [hres]), rfl, rfl⟩

/-- The file of the root directory: a failed read may be told or not. -/
theorem device_error_told_one : ∃ (m : Mount) (d : Disk) (G : Owners) (T : Nat → List Slot) (up : Nat → Nat) (user : User)
    (info : PathInfo), Vol m.sb (m.sb.view d) G T up ∧
    exec m.env (mofsResolvePath m.sb user pathA resolveInode) d = some (.ok info, d) ∧ info.leafFound = true ∧
    (¬ ∀ e, e ≠ Errno.enoent → ∀ r t, Faulted m.env.answer (ReadFails e) (mofsResolvePath m.sb user pathA resolveInode) d r t →
      Tells e info.leafInodeNum r) ∧
    ∀ e r t, Faulted m.env.answer (ReadFails e) (mofsResolvePath m.sb user pathA resolveInode) d r t →
      r = .error e ∨ Denies r := by
  obtain ⟨m, d, G, T, up, user, hvol, -, hruns⟩ := exists_found
  obtain ⟨info, hrun, hfound, -⟩ := hruns resolveInode rfl rfl
  obtain ⟨hiff, hcases⟩ := device_error_told_iff hvol hrun hfound
  exact ⟨m, d, G, T, up, user, info, hvol, hrun, hfound, fun ht => absurd (hiff.mp ht) (by decide), hcases⟩

/-- A file that exists and is accessible: when the read of the root inode fails with `EIO` during the lookup, the resolver says
that there is no such file, with and without permission for it to be missing. -/
theorem device_error_denied : ∃ (m : Mount) (d : Disk) (G : Owners) (T : Nat → List Slot) (up : Nat → Nat) (user : User),
    Vol m.sb (m.sb.view d) G T up ∧
    (∀ flags : ResolveFlags, flags.inode = true → flags.checkAccess = true →
      ∃ info, exec m.env (mofsResolvePath m.sb user pathA flags) d = some (.ok info, d) ∧ info.leafFound = true ∧
        info.leafInodeNum = 3) ∧
    Faulted m.env.answer (ReadFails .eio) (mofsResolvePath m.sb user pathA resolveInode) d (.error .enoent) d ∧
    Faulted m.env.answer (ReadFails .eio) (mofsResolvePath m.sb user pathA resolveTarget) d
      (.ok ⟨rootInodeNum, noInode, false, letter 0⟩) d := by
  obtain ⟨m, d, G, T, up, user, hvol, hvalid, hruns⟩ := exists_found
  have hfault (flags : ResolveFlags) (hinode : flags.inode = true) :
      Faulted m.env.answer (ReadFails .eio) (mofsResolvePath m.sb user pathA flags) d (missingFirst flags (letter 0) []) d := by
    rw [mofsResolvePath, if_neg (by decide), if_neg (by simp [hinode]), if_neg (by simp [hinode]), if_neg (by simp [hvalid]),
      if_neg (by decide)]
    exact faulted_missingFirst m user (hvol.wf.range _ hvol.rootUsed) hinode .eio d fun _ => (by decide : (letter 0).length < 28)
  exact ⟨m, d, G, T, up, user, hvol, hruns, hfault resolveInode rfl, hfault resolveTarget rfl⟩

end Mofs
