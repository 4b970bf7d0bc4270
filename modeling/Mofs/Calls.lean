import Mofs.Mkdir
import Mofs.Posix

namespace Mofs

open Effect Bytes Slots Mofs.Tree

variable {sb : Superblock} {V W : View} {G : Owners} {T : Nat → List Slot} {up : Nat → Nat} {user : User} {path : Path}
  {flags mode : Nat}

/-- The checks of `mofs_open_core` on the inode it has found or made. -/
def openChecks (flags : Nat) (user : User) (x : Inode) : Except Errno Unit :=
  if flags &&& oflagDirectory ≠ 0 ∧ x.isDir = false then .error .enotdir else mofsCheckOpenPermission flags user x

/-- What `mofs_open_core` does up to the handle pool, by the state of the volume. -/
def OpenPost (sb : Superblock) (V W : View) (G : Owners) (T : Nat → List Slot) (up : Nat → Nat) (user : User) (path : Path)
    (flags mode : Nat) (r : Except Errno Nat) : Prop :=
  if user.valid = false then r = .error .eperm ∧ W = V
  else
    match resolve V up T resolveInode user path with
    | .ok info => W = V ∧ r =
        if flags &&& oflagCreat ≠ 0 ∧ flags &&& oflagExcl ≠ 0 then .error .eexist
        else (openChecks flags user (V.inode info.leafInodeNum)).map fun _ => info.leafInodeNum
    | .error e =>
      if e = .enoent ∧ flags &&& oflagCreat ≠ 0 then
        ∃ r', CreatePost sb V W G T up user path mode r' ∧
          r = match r' with
            | .error e => .error e
            | .ok c => (openChecks flags user (W.inode c)).map fun _ => c
      else r = .error e ∧ W = V

namespace Mount

theorem reads_mofsPathToInodeNum (m : Mount) (h : Vol m.sb V G T up) (user : User) (path : Path) :
    m.Reads (mofsPathToInodeNum m.sb user path) V
      ((resolve V up T resolveInode user path).map fun info => info.leafInodeNum) := by
  have hres := m.reads_mofsResolvePath h resolveInode rfl rfl user path
  rw [mofsPathToInodeNum]
  cases hr : resolve V up T resolveInode user path with
  | error e =>
    rw [hr] at hres
    exact Reads.bind_error hres
  | ok info =>
    rw [hr] at hres
    exact Reads.bind hres (Reads.pure _)

theorem reads_openChecks (m : Mount) (flags : Nat) (user : User) (x : Inode) (i : Nat) :
    m.Reads (if flags &&& oflagDirectory ≠ 0 ∧ x.isDir = false then throw .enotdir
      else do
        ofExcept (mofsCheckOpenPermission flags user x)
        pure i) V ((openChecks flags user x).map fun _ => i) := by
  rw [openChecks]
  split
  · exact Reads.throw _
  · have hcheck := Reads.ofExcept (m := m) (V := V) (mofsCheckOpenPermission flags user x)
    cases hc : mofsCheckOpenPermission flags user x with
    | error e =>
      rw [hc] at hcheck
      exact Reads.bind_error hcheck
    | ok u =>
      rw [hc] at hcheck
      exact Reads.bind hcheck (Reads.pure _)

theorem ensures_openInode (m : Mount) (h : Vol m.sb V G T up) (user : User) (path : Path) (flags mode : Nat) :
    m.Ensures (openInode m.sb user path flags mode) V (fun r W => OpenPost m.sb V W G T up user path flags mode r) := by
  rw [openInode]
  unfold OpenPost
  cases hvalid : user.valid with
  | false =>
    simp only [if_true]
    have huser : m.Reads (requireUser user) V (.error .eperm) := by
      rw [requireUser, hvalid, if_pos rfl]
      exact Reads.throw _
    exact (Reads.bind_error huser).ensures ⟨rfl, rfl⟩
  | true =>
    simp only [Bool.true_eq_false, if_false]
    refine Ensures.bind_reads (m.reads_validUser hvalid) ?_
    have hpath := (m.reads_mofsPathToInodeNum h user path).attempt
    cases hr : resolve V up T resolveInode user path with
    | ok info =>
      rw [hr] at hpath
      have hlt : info.leafInodeNum < m.sb.inodeNum := h.wf.range _ (h.used_of_resolve hr)
      by_cases hexcl : flags &&& oflagCreat ≠ 0 ∧ flags &&& oflagExcl ≠ 0
      · refine (Reads.bind_error (Reads.bind hpath ?_)).ensures ⟨rfl, (if_pos hexcl).symm⟩
        dsimp only [Except.map]
        rw [if_pos hexcl]
        exact Reads.throw _
      · refine Ensures.bind_reads (a := (info.leafInodeNum, V.inode info.leafInodeNum)) (Reads.bind hpath ?_)
          ((m.reads_openChecks flags user _ _).ensures ⟨rfl, (if_neg hexcl).symm⟩)
        dsimp only [Except.map]
        rw [if_neg hexcl]
        exact Reads.bind (m.reads_mofsReadInode V hlt) (Reads.pure _)
    | error e =>
      rw [hr] at hpath
      by_cases he : e = .enoent ∧ flags &&& oflagCreat ≠ 0
      · simp only [if_pos he]
        obtain ⟨rfl, hcreat⟩ := he
        refine Ensures.seq (Ensures.bind_reads hpath ?_)
        dsimp only [Except.map]
        rw [if_pos hcreat]
        refine Ensures.seq ((m.ensures_mofsCreateCore h user path mode).mono fun r' W hr' => ?_)
        cases r' with
        | error e => exact ⟨_, hr', rfl⟩
        | ok c =>
          refine Ensures.bind_reads (m.reads_mofsReadInode W (hr'.lt_of_ok)) (Ensures.pure ?_)
          exact (m.reads_openChecks flags user _ _).ensures ⟨_, hr', rfl⟩
      · simp only [if_neg he]
        refine (Reads.bind_error (Reads.bind hpath ?_)).ensures ⟨rfl, rfl⟩
        dsimp only [Except.map]
        cases e <;> first
          | exact Reads.throw _
          | (rw [if_neg fun hc => he ⟨rfl, hc⟩]; exact Reads.throw _)

/-- What `mofs_open` returns once the inode is known, and the handle pools then. -/
def openRet (P : Pools) (flags : Nat) : Except Errno Nat → Except Errno (Except Errno Ret × Pools)
  | .error e => .error e
  | .ok i =>
    match getFreeFilehandleIndex P.files with
    | none => .error .enfile
    | some k => .ok (.ok (.handle k), { P with files := Function.update P.files k ⟨true, i, 0, flags⟩ })

theorem ensures_posixBody_open (m : Mount) (h : Vol m.sb V G T up) (user : User) (P : Pools) (path : Path) (flags mode : Nat) :
    m.Ensures (posixBody m.sb user P (.open path flags mode)) V (fun r W =>
      ∃ r', OpenPost m.sb V W G T up user path flags mode r' ∧ r = openRet P flags r') := by
  rw [posixBody, mofsOpenCore]
  refine Ensures.seq (Ensures.seq ((m.ensures_openInode h user path flags mode).mono fun r W hr => ?_))
  cases r with
  | error e => exact ⟨_, hr, rfl⟩
  | ok i =>
    change m.Ensures _ W _
    cases hk : getFreeFilehandleIndex P.files with
    | none => exact Ensures.throw ⟨_, hr, by rw [openRet, hk]⟩
    | some k => exact Ensures.pure (Ensures.pure ⟨_, hr, by rw [openRet, hk]⟩)

/-- A call of the core that returns nothing, as the POSIX layer makes it. -/
theorem ensures_done (m : Mount) {p : M Unit} {Q : Except Errno Unit → View → Prop} (h : m.Ensures p V Q) (P : Pools) :
    m.Ensures (do
      p
      pure ((.ok .done, P) : Except Errno Ret × Pools)) V (fun r W => ∃ r', Q r' W ∧ r = r'.map fun _ => (.ok .done, P)) := by
  refine Ensures.seq (h.mono fun r W hr => ?_)
  cases r with
  | error e => exact ⟨_, hr, rfl⟩
  | ok u => exact Ensures.pure ⟨_, hr, rfl⟩

/-- What a POSIX call returns, from the outcome of its body. -/
def posixRet (P : Pools) : Except Errno (Except Errno Ret × Pools) → Except Errno Ret × Pools
  | .ok r => r
  | .error e => (.error e, P)

theorem ensures_posixCall (m : Mount) {user : User} {P : Pools} (op : PosixOp)
    {Q : Except Errno (Except Errno Ret × Pools) → View → Prop} (h : m.Ensures (posixBody m.sb user P op) V Q) :
    m.Ensures (posixCall m.sb user P op) V (fun r W => ∃ r', Q r' W ∧ r = .ok (posixRet P r')) := by
  rw [posixCall]
  refine Ensures.seq (Ensures.attempt h fun r W hr => ?_)
  cases r with
  | error e => exact Ensures.pure ⟨_, hr, rfl⟩
  | ok x => exact Ensures.pure ⟨_, hr, rfl⟩

end Mount

end Mofs
