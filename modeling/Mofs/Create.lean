import Mofs.Relink
import Mofs.Resolve

namespace Mofs

open Effect Bytes Slots Mofs.Tree

variable {sb : Superblock} {V W : View} {G H : Owners} {T : Nat → List Slot} {up : Nat → Nat} {p c k : Nat}
  {user : User} {mode : Nat} {path : Path} {info : PathInfo} {name : Name}

theorem toNat_modeBits {ftype : Nat} (hf : ftype < 65536) (mode : Nat) :
    (modeBits ftype mode).toNat = ftype ||| (mode &&& 0o777) := by
  have hlt : ftype ||| (mode &&& 0o777) < 2 ^ 16 :=
    Nat.or_lt_two_pow hf (lt_of_le_of_lt Nat.and_le_right (by decide))
  exact Nat.mod_eq_of_lt hlt

theorem and_ftypeDir (mode : Nat) : (mode &&& 0o777) &&& ftypeDir = 0 := by
  rw [Nat.and_assoc, show 0o777 &&& ftypeDir = 0 by decide, Nat.and_zero]

/-- The inode that `mofs_create_core` and `mofs_mkdir_core` write first. -/
def newInode (links : UInt16) (ftype : Nat) (user : User) (mode : Nat) (now : UInt64) : Inode :=
  Inode.stamp { Inode.zero with
    iLinks := links, iMode := modeBits ftype mode, iUid := .ofNat user.uid, iGid := .ofNat user.gid } timeAll now

theorem newInode_isDir (links : UInt16) {ftype : Nat} (hf : ftype < 65536) (user : User) (mode : Nat) (now : UInt64) :
    (newInode links ftype user mode now).isDir = (ftype &&& ftypeDir != 0) := by
  have : ((modeBits ftype mode).toNat &&& ftypeDir) = ftype &&& ftypeDir := by
    rw [toNat_modeBits hf, Nat.and_or_distrib_right, and_ftypeDir, Nat.or_zero]
  rw [Inode.isDir, ← this]
  rfl

/-- What `mofs_create_core` does, by the state of the volume. -/
def CreatePost (sb : Superblock) (V W : View) (G : Owners) (T : Nat → List Slot) (up : Nat → Nat) (user : User) (path : Path)
    (mode : Nat) (r : Except Errno Nat) : Prop :=
  match resolve V up T resolveTarget user path with
  | .error e => r = .error e ∧ W = V
  | .ok info =>
    if info.leafFound then r = .error .eexist ∧ W = V
    else
      match mofsCheckDirWrite user (V.inode info.parentInodeNum) with
      | .error e => r = .error e ∧ W = V
      | .ok () =>
        match sb.freeInodes V with
        | [] => r = .error .enospc ∧ W = V
        | c :: _ => ∃ t r' W', AddPost sb (V.enter c (newInode 1 ftypeReg user mode t)) W' G info.parentInodeNum
            (dirSlots up T info.parentInodeNum) info.leafName c r' ∧
            ((r' = .ok () ∧ r = .ok c ∧ W = W') ∨ ∃ e, r' = .error e ∧ r = .error e ∧ W = V)

/-- A call about to enter inode `c` under the name its path ends in, which is missing and which the caller may add. -/
structure Entering (sb : Superblock) (V : View) (T : Nat → List Slot) (up : Nat → Nat) (user : User) (path : Path)
    (info : PathInfo) (c : Nat) : Prop where
  resolved : resolve V up T resolveTarget user path = .ok info
  missing : info.leafFound = false
  writable : mofsCheckDirWrite user (V.inode info.parentInodeNum) = .ok ()
  next : (sb.freeInodes V).head? = some c

theorem Entering.free (h : Entering sb V T up user path info c) : c < sb.inodeNum ∧ 3 ≤ c ∧ V.ibit c = false :=
  mem_freeInodes.mp (List.mem_of_mem_head? h.next)

theorem Entering.located (h : Vol sb V G T up) (hE : Entering sb V T up user path info c) :
    (V.inode info.parentInodeNum).isDir = true ∧ lookup (dirSlots up T info.parentInodeNum) info.leafName = none ∧
      ValidName info.leafName := by
  obtain ⟨hloc, -, -⟩ := Located.of_resolve h.rootDir rfl hE.resolved
  refine ⟨hloc.dir, ?_, hloc.name⟩
  rw [hloc.found, hE.missing]
  rfl

theorem Entering.ne (h : Vol sb V G T up) (hE : Entering sb V T up user path info c) {D : Nat} (hD : (V.inode D).isDir = true) :
    D ≠ c := by
  rintro rfl
  have := h.used_of_isDir hD
  rw [hE.free.2.2] at this
  cases this

/-- A creation fails and changes nothing, or enters a new file. -/
theorem CreatePost.cases {r : Except Errno Nat} (hP : CreatePost sb V W G T up user path mode r) :
    (W = V ∧ ∃ e, r = .error e) ∨ ∃ info c t, r = .ok c ∧ Entering sb V T up user path info c ∧
      AddPost sb (V.enter c (newInode 1 ftypeReg user mode t)) W G info.parentInodeNum (dirSlots up T info.parentInodeNum)
        info.leafName c (.ok ()) := by
  unfold CreatePost at hP
  split at hP
  · exact .inl ⟨hP.2, _, hP.1⟩
  · next info hr =>
    split at hP
    · exact .inl ⟨hP.2, _, hP.1⟩
    · next hmiss =>
      split at hP
      · exact .inl ⟨hP.2, _, hP.1⟩
      · next hw =>
        split at hP
        · exact .inl ⟨hP.2, _, hP.1⟩
        · next c cs hfree =>
          obtain ⟨t, r', W', hadd, ⟨rfl, rfl, rfl⟩ | ⟨e, -, rfl, hW⟩⟩ := hP
          · exact .inr ⟨info, c, t, rfl, ⟨hr, by simpa using hmiss, hw, by rw [hfree]; rfl⟩, hadd⟩
          · exact .inl ⟨hW, e, rfl⟩

theorem CreatePost.lt_of_ok (h : CreatePost sb V W G T up user path mode (.ok c)) : c < sb.inodeNum := by
  obtain ⟨-, e, he⟩ | ⟨info, c', t, hc, hE, -⟩ := h.cases
  · cases he
  · cases hc
    exact hE.free.1

/-- An error of `add_dir_entry` leaves the volume as it was. -/
theorem AddPost.of_error {slots : List Slot} {e : Errno} (h : AddPost sb V W G p slots name c (.error e)) : W = V := by
  unfold AddPost at h
  split at h
  · exact h.2
  · split at h
    · exact h.2
    · split at h
      · cases h.1
      · split at h
        · cases h.1
        · split at h
          · cases h.1
          · exact h.2

namespace Mount

theorem reads_requireDirWrite (m : Mount) (user : User) (hp : p < m.sb.inodeNum) :
    m.Reads (requireDirWrite m.sb user p) V
      (match mofsCheckDirWrite user (V.inode p) with
        | .error e => .error e
        | .ok () => .ok (V.inode p)) := by
  refine Reads.bind (m.reads_mofsReadInode V hp) ?_
  have hcheck := Reads.ofExcept (m := m) (V := V) (mofsCheckDirWrite user (V.inode p))
  cases hc : mofsCheckDirWrite user (V.inode p) with
  | error e =>
    rw [hc] at hcheck
    exact Reads.bind_error hcheck
  | ok u =>
    rw [hc] at hcheck
    exact Reads.bind hcheck (Reads.pure _)

theorem reads_validUser (m : Mount) (hvalid : user.valid = true) : m.Reads (requireUser user) V (.ok ()) := by
  rw [requireUser, hvalid, if_neg (by decide)]
  exact Reads.pure _

/-- A directory is not affected by an inode that comes into use. -/
theorem dirAt_enter (m : Mount) (h : Vol m.sb V G T up) (hp : (V.inode p).isDir = true) (hlt : c < m.sb.inodeNum)
    (hc : V.ibit c = false) {x : Inode} (hhead : x.iDataHead = 0) (hnr : x.iNrBlocks = 0) :
    p ≠ c ∧ Frame m.sb [c] V (V.enter c x) G G ∧
      DirAt m.sb (V.enter c x) p (G.nodes p) (G.data p) (dirSlots up T p) := by
  have hpu := h.used_of_isDir hp
  have hpc : p ≠ c := by
    rintro rfl
    rw [hpu] at hc
    cases hc
  have hF := Frame.enter h.wf hlt hc hhead hnr
  exact ⟨hpc, hF, (h.dirAt hp).of_same m.ok hF.wf (hF.same p (by simpa using hpc)) hpu⟩

theorem ensures_mofsCreateCore (m : Mount) (h : Vol m.sb V G T up) (user : User) (path : Path) (mode : Nat) :
    m.Ensures (mofsCreateCore m.sb user path mode) V (fun r W => CreatePost m.sb V W G T up user path mode r) := by
  have hres := m.reads_mofsResolvePath h resolveTarget rfl rfl user path
  rw [mofsCreateCore]
  unfold CreatePost
  cases hr : resolve V up T resolveTarget user path with
  | error e =>
    rw [hr] at hres
    exact (Reads.bind_error hres).ensures ⟨rfl, rfl⟩
  | ok info =>
    rw [hr] at hres
    obtain ⟨hloc, hvalid, -⟩ := Located.of_resolve h.rootDir rfl hr
    have hp := h.used_of_isDir hloc.dir
    refine Ensures.bind_reads hres ?_
    dsimp only
    by_cases hf : info.leafFound = true
    · simp only [if_pos hf]
      exact Ensures.throw ⟨rfl, rfl⟩
    simp only [if_neg hf]
    refine Ensures.bind_reads (m.reads_validUser hvalid) ?_
    have hwrite := m.reads_requireDirWrite (V := V) user (h.wf.range _ hp)
    cases hw : mofsCheckDirWrite user (V.inode info.parentInodeNum) with
    | error e =>
      rw [hw] at hwrite
      exact (Reads.bind_error hwrite).ensures ⟨rfl, rfl⟩
    | ok u =>
      rw [hw] at hwrite
      refine Ensures.bind_reads hwrite ?_
      have halloc := m.ensures_allocateInode V
      cases hfree : m.sb.freeInodes V with
      | nil =>
        rw [hfree] at halloc
        exact halloc.bind (fun _ _ hr => nomatch hr.1) fun e W hr => hr
      | cons c cs =>
        rw [hfree] at halloc
        obtain ⟨hlt, h3, hc⟩ := mem_freeInodes.mp (hfree ▸ List.mem_cons_self : c ∈ m.sb.freeInodes V)
        refine Ensures.bind_ok halloc ?_
        rintro _ rfl
        -- the inode is written and linked; an error takes it back
        refine Ensures.seq (Ensures.attempt (P := fun r' W => ∃ t, AddPost m.sb
          (V.enter c (newInode 1 ftypeReg user mode t)) W G info.parentInodeNum
          (dirSlots up T info.parentInodeNum) info.leafName c r') ?_ ?_)
        · refine Ensures.seq (m.ensures_mofsInodeStampNow (by decide) fun t => ?_)
          refine Ensures.seq (m.ensures_mofsWriteInode hlt ?_)
          obtain ⟨hpc, hF, hdir⟩ := m.dirAt_enter h hloc.dir hlt hc (x := newInode 1 ftypeReg user mode t) rfl rfl
          refine (m.ensures_addDirEntry hF.wf (by simp [hpc, hp]) hdir hloc.name (by omega) hlt).mono fun r W hr => ?_
          exact ⟨t, hr⟩
        · rintro r' W ⟨t, hadd⟩
          cases r' with
          | ok u => exact Ensures.pure ⟨t, .ok (), W, hadd, .inl ⟨rfl, rfl, rfl⟩⟩
          | error e =>
            obtain rfl := hadd.of_error
            refine Ensures.bind_ok (m.ensures_freeInode _ h3 hlt).attempt_eq fun W' hW' => ?_
            rw [View.leave_enter hc ((h.node c).zero hc)] at hW'
            exact Ensures.throw ⟨t, .error e, _, hadd, .inr ⟨e, rfl, rfl, hW'⟩⟩

end Mount

end Mofs
