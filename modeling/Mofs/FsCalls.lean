import Mofs.FsData
import Mofs.Listing

namespace Mofs

open Effect Bytes Slots

variable {α β : Type} {sb : Superblock} {m : Mount} {V W : View} {G H : Owners} {T : Nat → List Slot} {up : Nat → Nat}
  {user : User} {path : Path} {P : Pools} {op : PosixOp} {i k size : Nat} {offset length : Int} {hd : FileHandle}
  {data : List UInt8}

/-- What a directory handle shows. -/
def shown (hd : DirHandle) : Option (Name × Nat) :=
  if hd.direntInodeNum ≠ 0 ∧ hd.direntName ≠ [] then some (hd.direntName, hd.direntInodeNum) else none

/-- A handle moves to the first entry from its offset on. -/
theorem shown_readdirHandle {ns ds : List Nat} {slots : List Slot} (h : DirAt sb V i ns ds slots) (hd : DirHandle) :
    entries (slots.drop hd.direntOffset) = [] ∧ shown (readdirHandle slots hd) = none ∧
        readdirHandle slots hd = { hd with direntName := [], direntInodeNum := 0 } ∨
      ∃ k e, entries (slots.drop hd.direntOffset) = e :: entries (slots.drop (k + 1)) ∧ shown (readdirHandle slots hd) = some e ∧
        readdirHandle slots hd = { hd with direntOffset := k + 1, direntName := e.1, direntInodeNum := e.2 } := by
  have hdrop := entries_drop slots hd.direntOffset
  rw [readdirHandle]
  cases hn : nextLive slots hd.direntOffset with
  | none =>
    rw [hn] at hdrop
    exact .inl ⟨hdrop, if_neg fun hc => hc.1 rfl, rfl⟩
  | some k =>
    rw [hn] at hdrop
    obtain ⟨-, hk, e, hget, hdrop⟩ := hdrop
    obtain ⟨hname, hinode⟩ := h.live hk hget
    refine .inr ⟨k, e, hdrop, ?_, ?_⟩
    · simp only [hget, Option.elim_some, shown]
      exact if_pos ⟨hinode, hname⟩
    · simp only [hget, Option.elim_some]

/-- No access to an object that is not there passes the checks. -/
theorem Vol.no_access (h : Vol sb V G T up) (hi : V.ibit i = false) {flags : Nat} : accessCheck flags user (V.inode i) ≠ .ok () := by
  obtain ⟨e, he⟩ := checkOpenPermission_zero flags user
  rw [(h.node i).zero hi, accessCheck, he]
  split
  · rintro ⟨⟩
  · rintro ⟨⟩

/-- Where there is no object, every error will do. -/
theorem refuses_of_free (hi : V.ibit i = false) (e e' : Errno) : (fsOf sb V G T up).Refuses i e (.error e' : Except Errno α) := by
  refine ⟨e', rfl, fun hsome => ?_⟩
  rw [fsOf_isSome, hi] at hsome
  cases hsome

/-- What a write that passes the checks has. -/
theorem Fs.writeCheck_ok {fs : Fs} {maxBytes : Nat} {h : FileHandle} {len : Nat} (hok : fs.writeCheck user maxBytes h len offset = .ok ()) :
    (h.used = true ∧ len ≠ 0 ∧ offset.toNat < maxBytes) ∧ h.openFlags &&& oflagWronly ≠ 0 ∧
      accessCheck (h.openFlags &&& oflagAccmode) user (fs.record h.inodeNum) = .ok () := by
  rw [writeCheck] at hok
  split at hok
  · cases hok
  rename_i hpos
  split at hok
  · cases hok
  rename_i hflags
  split at hok
  · cases hok
  rename_i haccess
  split at hok
  · cases hok
  rename_i hmax
  rw [not_or, not_or, Bool.not_eq_false] at hpos
  exact ⟨⟨hpos.1, hpos.2.1, Nat.not_le.mp hmax⟩, hflags, haccess⟩

theorem SamePerm.accessCheck {x y : Inode} (h : SamePerm x y) (flags : Nat) (user : User) :
    accessCheck flags user y = accessCheck flags user x := by
  rw [Mofs.accessCheck, h.checkOpen, h.isDir, Mofs.accessCheck]

theorem SamePerm.readChecks {x y : Inode} (h : SamePerm x y) (user : User) (hd : FileHandle) (size : Nat) (offset : Int) :
    readChecks user hd size offset y = readChecks user hd size offset x := by
  rw [Mofs.readChecks, h.accessCheck, Mofs.readChecks]

namespace Mount

/-- The call of the POSIX layer does what a call on the file system does. -/
def Refines (m : Mount) (V : View) (G : Owners) (T : Nat → List Slot) (up : Nat → Nat) (user : User) (P : Pools)
    (op : PosixOp) : Prop :=
  m.Ensures (posixBody m.sb user P op) V fun r W => HoldsFs m.sb W fun fs' =>
    (fsOf m.sb V G T up).Step (mofsMaxFileBytes m.sb) P user op (posixRet P r).1 fs' (posixRet P r).2

section Looking

theorem reads_userOk (m : Mount) (hvalid : user.valid = false) : m.Reads (requireUser user) V (.error .eperm) := by
  have h := m.reads_requireUser V user
  rwa [if_pos hvalid] at h

theorem reads_find (m : Mount) (h : Vol m.sb V G T up) (user : User) (path : Path) :
    m.Reads (mofsPathToInodeNum m.sb user path) V ((fsOf m.sb V G T up).find user path) := by
  rw [← h.fs_find]
  exact m.reads_mofsPathToInodeNum h user path

theorem used_of_find (h : Vol sb V G T up) (hfind : (fsOf sb V G T up).find user path = .ok i) : V.ibit i = true := by
  rw [← h.fs_find] at hfind
  cases hres : resolve V up T resolveInode user path with
  | error e =>
    rw [hres] at hfind
    cases hfind
  | ok info =>
    rw [hres] at hfind
    cases hfind
    exact h.used_of_resolve hres

theorem reads_mofsStatCore (m : Mount) (h : Vol m.sb V G T up) (user : User) (path : Path) :
    ∃ r, m.Reads (mofsStatCore m.sb user path) V r ∧ (fsOf m.sb V G T up).Stats user path r := by
  rw [mofsStatCore]
  unfold Fs.Stats
  cases hvalid : user.valid with
  | false => exact ⟨_, Reads.bind_error (m.reads_userOk hvalid), rfl⟩
  | true =>
    simp only [Bool.true_eq_false, if_false]
    have hread := m.reads_find h user path
    cases hfind : (fsOf m.sb V G T up).find user path with
    | error e =>
      rw [hfind] at hread
      exact ⟨_, Reads.bind (m.reads_validUser hvalid) (Reads.bind_error hread), rfl⟩
    | ok i =>
      rw [hfind] at hread
      have hi := used_of_find h hfind
      have hinode := m.reads_mofsReadInode V (h.wf.range i hi)
      have hperm : (if (fsOf m.sb V G T up).isDir i then mofsCheckDirTraverse user ((fsOf m.sb V G T up).record i)
          else mofsCheckOpenPermission oflagRdonly user ((fsOf m.sb V G T up).record i)) =
          if (V.inode i).isDir then mofsCheckDirTraverse user (V.inode i)
          else mofsCheckOpenPermission oflagRdonly user (V.inode i) := by
        rw [h.fs_isDir, mofsCheckDirTraverse, (h.record i).checkOpen, (h.record i).checkOpen]
        rfl
      dsimp only
      rw [hperm]
      cases hc : if (V.inode i).isDir then mofsCheckDirTraverse user (V.inode i)
          else mofsCheckOpenPermission oflagRdonly user (V.inode i) with
      | error e =>
        refine ⟨.error e, Reads.bind (m.reads_validUser hvalid) (Reads.bind hread (Reads.bind hinode ?_)), rfl⟩
        rw [hc]
        exact Reads.bind_error (Reads.ofExcept _)
      | ok u =>
        refine ⟨.ok ⟨i, (V.inode i).iLinks.toNat, (V.inode i).iSize.toNat, (V.inode i).iMode.toNat,
          (V.inode i).iUid.toNat, (V.inode i).iGid.toNat, (V.inode i).iAtime.toNat, (V.inode i).iMtime.toNat,
          (V.inode i).iCtime.toNat⟩, Reads.bind (m.reads_validUser hvalid) (Reads.bind hread (Reads.bind hinode ?_)),
          _, rfl, rfl, ?_, ?_, ?_, fun hd => ?_⟩
        · rw [hc]
          exact Reads.bind (Reads.ofExcept _) (Reads.pure _)
        · rw [(h.record i).mode]
        · rw [(h.record i).uid]
        · rw [(h.record i).gid]
        · rw [h.fs_isDir] at hd
          rw [fs_bytes hi hd, length_fileBytes]

theorem reads_openDir (m : Mount) (h : Vol m.sb V G T up) (user : User) (path : Path) (pool : Nat → DirHandle) :
    m.Reads (mofsOpendirCore m.sb user pool path) V (((fsOf m.sb V G T up).openDir user path >>=
      takeHandle (getFreeDirhandleIndex pool)).map fun x => (x.1, Function.update pool x.1 ⟨true, x.2, 0, [], 0⟩)) := by
  convert m.reads_mofsOpendirCore h user pool path using 1
  rw [Fs.openDir, openedDir, ← h.fs_find]
  by_cases hvalid : user.valid = false
  · rw [if_pos hvalid, if_pos hvalid]
    rfl
  rw [if_neg hvalid, if_neg hvalid]
  cases resolve V up T resolveInode user path with
  | error e => rfl
  | ok info =>
    dsimp only [Except.map]
    rw [h.fs_isDir, mofsCheckDirRead, (h.record info.leafInodeNum).checkOpen]
    by_cases hd : (V.inode info.leafInodeNum).isDir = false
    · rw [if_pos hd, if_pos hd]
      rfl
    rw [if_neg hd, if_neg hd, mofsCheckDirRead]
    cases mofsCheckOpenPermission oflagRdonly user (V.inode info.leafInodeNum) with
    | error e => rfl
    | ok u =>
      cases getFreeDirhandleIndex pool with
      | none => rfl
      | some k => rfl

/-- A handle behind the last block of its directory has nothing more to list. -/
theorem reads_mofsReaddirCore_end (m : Mount) {ns ds : List Nat} {slots : List Slot} {hd : DirHandle}
    (h : DirAt m.sb V hd.inodeNum ns ds slots) (hused : hd.used = true) (hvalid : user.valid = true)
    (hread : mofsCheckDirRead user (V.inode hd.inodeNum) = .ok ()) (hend : ds.length ≤ hd.direntOffset / entriesPerBlk m.sb) :
    m.Reads (mofsReaddirCore m.sb user hd) V (.ok { hd with direntName := [], direntInodeNum := 0 }) := by
  have hceil : ceilBlks m.sb (V.inode hd.inodeNum).iSize.toNat = ds.length := by
    rw [m.ceilBlks_eq (by rw [h.size, ← h.blocks]; exact h.file.max), h.size, ← h.blocks]
  rw [mofsReaddirCore, mofsReaddirCoreWith, hused, if_neg (by decide)]
  refine Reads.bind (m.reads_validUser hvalid) (Reads.bind (m.reads_mofsReadInode V h.file.range) ?_)
  rw [h.isDir, if_neg (by decide), hread]
  refine Reads.bind (Reads.pure ()) ?_
  dsimp only
  rw [hceil, Nat.sub_eq_zero_of_le hend]
  exact Reads.bind (Reads.pure none) (Reads.pure _)

/-- Behind the last slot there is nothing to move to. -/
theorem readdirHandle_of_length_lt {slots : List Slot} {hd : DirHandle} (h : slots.length < hd.direntOffset) :
    readdirHandle slots hd = { hd with direntName := [], direntInodeNum := 0 } := by
  rw [readdirHandle, nextLive, Nat.sub_eq_zero_of_le h.le, firstIn_zero]

/-- Where no directory has more than one block, a handle may stand anywhere. -/
theorem reads_readdir (m : Mount) (h : Ungrown m.sb V G T up) (hd : DirHandle) (hused : hd.used = true) (hvalid : user.valid = true)
    (hdir : (V.inode hd.inodeNum).isDir = true) (hc : mofsCheckDirRead user (V.inode hd.inodeNum) = .ok ()) :
    m.Reads (mofsReaddirCore m.sb user hd) V (.ok (readdirHandle (dirSlots up T hd.inodeNum) hd)) := by
  have hat := h.vol.dirAt hdir
  by_cases hoff : hd.direntOffset ≤ (dirSlots up T hd.inodeNum).length
  · exact m.reads_mofsReaddirCore hat hused rfl hvalid hc hoff
  · rw [readdirHandle_of_length_lt (by omega)]
    have hlen := h.one _ hdir
    have hone := hat.length_of_full m.ok (by rw [hlen, Nat.mod_self])
    have hent := m.ok.entries_ge
    refine m.reads_mofsReaddirCore_end hat hused hvalid hc ?_
    rw [hone, hlen, Nat.div_self (by omega)]
    exact Nat.div_pos (by omega) (by omega)

theorem reads_lists (h : Ungrown m.sb V G T up) (user : User) (hd : DirHandle) :
    ∃ r, m.Reads (mofsReaddirCore m.sb user hd) V r ∧
      (fsOf m.sb V G T up).Lists user hd (r.map fun h' => (shown h', h')) := by
  simp only [Fs.Lists, h.vol.fs_isDir]
  rw [mofsReaddirCore, mofsReaddirCoreWith]
  by_cases hused : hd.used = false
  · simp only [if_pos hused]
    exact ⟨_, Reads.throw _, rfl⟩
  simp only [if_neg hused]
  by_cases hvalid : user.valid = false
  · simp only [if_pos hvalid]
    exact ⟨_, Reads.bind_error (m.reads_userOk hvalid), rfl⟩
  simp only [if_neg hvalid]
  have huser : m.Reads (requireUser user) V (.ok ()) := m.reads_validUser (by simpa using hvalid)
  by_cases hdir : (V.inode hd.inodeNum).isDir = false
  · simp only [if_pos hdir]
    cases hi : V.ibit hd.inodeNum with
    | false =>
      rcases m.reads_unused h.vol hi with hread | hread
      · exact ⟨_, Reads.bind huser (Reads.bind_error hread), .inl rfl⟩
      · exact ⟨_, Reads.bind huser (Reads.bind hread (Reads.throw _)), .inr rfl⟩
    | true =>
      refine ⟨.error .enotdir, Reads.bind huser (Reads.bind (m.reads_mofsReadInode V (h.vol.wf.range _ hi)) ?_), .inr rfl⟩
      rw [if_pos hdir]
      exact Reads.throw _
  simp only [if_neg hdir]
  have hisDir : (V.inode hd.inodeNum).isDir = true := by simpa using hdir
  have hat := h.vol.dirAt hisDir
  have hperm : mofsCheckDirRead user ((fsOf m.sb V G T up).record hd.inodeNum) = mofsCheckDirRead user (V.inode hd.inodeNum) :=
    (h.vol.record _).checkOpen oflagRdonly user
  rw [hperm]
  cases hc : mofsCheckDirRead user (V.inode hd.inodeNum) with
  | error e =>
    refine ⟨.error e, Reads.bind huser (Reads.bind (m.reads_mofsReadInode V hat.file.range) ?_), rfl⟩
    rw [if_neg hdir, hc]
    exact Reads.bind_error (Reads.ofExcept _)
  | ok u =>
    refine ⟨.ok (readdirHandle (dirSlots up T hd.inodeNum) hd), ?_, _, ((h.vol.node _).dir hisDir).distinct,
      (h.vol.fs_names hisDir).symm, ?_⟩
    · have hread := m.reads_readdir h hd (by simpa using hused) (by simpa using hvalid) hisDir hc
      rwa [mofsReaddirCore, mofsReaddirCoreWith, if_neg hused] at hread
    · rcases shown_readdirHandle hat hd with ⟨hdrop, hshown, heq⟩ | ⟨k, e, hdrop, hshown, heq⟩
      · exact .inl ⟨hdrop, by rw [Except.map, hshown, heq]⟩
      · exact .inr ⟨k, e, hdrop, by rw [Except.map, hshown, heq]⟩

theorem reads_mofsLseek (h : Vol m.sb V G T up) (P : Pools) (k : Nat) (offset : Int) (whence : Whence) :
    ∃ r, m.Reads (mofsLseek m.sb P k offset whence) V (r.map fun n =>
      (.ok (.count n), P.setFile k { P.files k with fileOffset := n })) ∧
      (fsOf m.sb V G T up).Seeks (P.files k) offset whence r := by
  unfold mofsLseek Fs.Seeks
  dsimp only
  by_cases hused : (P.files k).used = false
  · simp only [if_pos hused]
    exact ⟨.error .ebadf, Reads.throw _, rfl⟩
  simp only [if_neg hused]
  -- the end of the call, from the base of the seek
  have hseek (base : Nat) : m.Reads (if 4294967295 < base + offset ∨ (base : Int) + offset < 0 then throw .einval
      else pure (.ok (.count (base + offset).toNat),
        P.setFile k { P.files k with fileOffset := u32 (base + offset).toNat }) : M (Except Errno Ret × Pools)) V
      ((seekTo base offset).map fun n => (.ok (.count n), P.setFile k { P.files k with fileOffset := n })) := by
    rw [seekTo]
    split
    · exact Reads.throw _
    next hrange =>
      have h32 : u32 (base + offset).toNat = (base + offset).toNat := Nat.mod_eq_of_lt (by omega)
      rw [h32]
      exact Reads.pure _
  cases whence with
  | set => exact ⟨_, Reads.bind (Reads.pure 0) (hseek 0), rfl⟩
  | cur => exact ⟨_, Reads.bind (Reads.pure _) (hseek _), rfl⟩
  | other => exact ⟨.error .einval, Reads.bind_error (Reads.throw _), rfl⟩
  | «end» =>
    cases hi : V.ibit (P.files k).inodeNum with
    | false =>
      have hnone : (fsOf m.sb V G T up (P.files k).inodeNum).isSome = true → False := by
        rw [fsOf_isSome, hi]
        rintro ⟨⟩
      rcases m.reads_unused h hi with hread | hread
      · exact ⟨.error .einval, Reads.bind_error (Reads.bind_error hread), fun hsome => (hnone hsome).elim⟩
      · exact ⟨_, Reads.bind (Reads.bind hread (Reads.pure _)) (hseek _), fun hsome => (hnone hsome).elim⟩
    | true =>
      refine ⟨_, Reads.bind (Reads.bind (m.reads_mofsReadInode V (h.wf.range _ hi)) (Reads.pure _)) (hseek _),
        fun _ hd => ?_⟩
      rw [h.fs_isDir] at hd
      rw [fs_bytes hi hd, length_fileBytes]

end Looking

section Working

theorem ensures_delivers (h : Ungrown m.sb V G T up) (hsize : size < 2147483648) (hoff : 0 ≤ offset ∧ offset ≤ 4294967295) :
    m.Ensures (mofsReadCore m.sb user hd size offset true) V (fun r W =>
      ∃ r', HoldsFs m.sb W (fun fs' => fs' = fsOf m.sb V G T up ∧ (fsOf m.sb V G T up).Delivers user hd size offset r') ∧
        r = r'.map fun x => (.ok x.1, x.2)) := by
  unfold Fs.Delivers
  rw [(h.vol.record hd.inodeNum).readChecks]
  cases hi : V.ibit hd.inodeNum with
  | false =>
    have hfail : m.Ensures (mofsReadCore m.sb user hd size offset true) V (fun r W => (∃ e, r = .error e) ∧ W = V) := by
      rw [mofsReadCore]
      split
      · exact Ensures.throw ⟨⟨_, rfl⟩, rfl⟩
      split
      · exact Ensures.throw ⟨⟨_, rfl⟩, rfl⟩
      exact m.ensures_unused h.vol hi (m.ensures_refused _ _)
    refine hfail.mono ?_
    rintro r W ⟨⟨e', rfl⟩, rfl⟩
    refine ⟨.error e', h.holdsFs ⟨rfl, ?_⟩, rfl⟩
    cases hchk : readChecks user hd size offset (W.inode hd.inodeNum) with
    | error e => exact refuses_of_free hi e e'
    | ok u => exact absurd (readChecks_ok hchk) (h.vol.no_access hi)
  | true =>
    refine (m.ensures_mofsReadCore user hd offset true (h.vol.wf.fileAt hi) (h.vol.filesOk.length hi) hsize).mono
      fun r W hr => ?_
    cases hchk : readChecks user hd size offset (V.inode hd.inodeNum) with
    | error e =>
      rw [hchk] at hr
      obtain ⟨rfl, rfl⟩ := hr
      exact ⟨.error e, h.holdsFs ⟨rfl, e, rfl, fun _ => rfl⟩, rfl⟩
    | ok u =>
      rw [hchk] at hr
      obtain ⟨rfl, hW⟩ := hr
      have hreg := isDir_of_accessCheck (readChecks_ok hchk)
      have hB := m.ok.blk_pos
      have hwrap : offset.toNat < 4294967296 * m.sb.blkSize :=
        Nat.lt_of_lt_of_le (by omega) (Nat.le_mul_of_pos_right 4294967296 hB)
      have hnowrap : (FileOp.read user hd size offset true).NoWrap m.sb V := .inl hwrap
      have hbytes := slice_noWrap (G := G) hnowrap
      have hsame : HoldsFs m.sb W fun fs' => fs' = fsOf m.sb V G T up := by
        rcases hW with rfl | ⟨t, rfl⟩
        · exact h.holdsFs rfl
        · exact h.stamp m.ok hi hreg timeAtime t
      refine ⟨_, hsame.mono fun fs' hfs => ⟨hfs, rfl⟩, ?_⟩
      have hlen := (V.inode hd.inodeNum).iSize.toNat_lt
      rw [fs_bytes hi hreg, ← hbytes, Nat.mod_eq_of_lt hwrap]
      simp only [Except.map, length_slice, if_true]
      rw [u32, Nat.mod_eq_of_lt (by omega)]

theorem ensures_writes (h : Ungrown m.sb V G T up) :
    m.Ensures (mofsWriteCore m.sb user hd data offset true) V (fun r W =>
      ∃ r', HoldsFs m.sb W ((fsOf m.sb V G T up).Writes user (mofsMaxFileBytes m.sb) hd data offset r') ∧
        r = r'.map fun x => (.ok x.1, x.2)) := by
  have hcheck : (fsOf m.sb V G T up).writeCheck user (mofsMaxFileBytes m.sb) hd data.length offset =
      writeChecks m.sb user hd data.length offset (V.inode hd.inodeNum) := by
    rw [writeChecks, ← (h.vol.record hd.inodeNum).accessCheck]
    rfl
  unfold Fs.Writes
  rw [hcheck]
  cases hi : V.ibit hd.inodeNum with
  | false =>
    have hfail : m.Ensures (mofsWriteCore m.sb user hd data offset true) V (fun r W => (∃ e, r = .error e) ∧ W = V) := by
      rw [mofsWriteCore]
      split
      · exact Ensures.throw ⟨⟨_, rfl⟩, rfl⟩
      split
      · exact Ensures.throw ⟨⟨_, rfl⟩, rfl⟩
      exact m.ensures_unused h.vol hi (m.ensures_refused _ _)
    refine hfail.mono ?_
    rintro r W ⟨⟨e', rfl⟩, rfl⟩
    refine ⟨.error e', h.holdsFs ?_, rfl⟩
    cases hchk : writeChecks m.sb user hd data.length offset (W.inode hd.inodeNum) with
    | error e => exact ⟨refuses_of_free hi e e', rfl⟩
    | ok u => exact absurd (writeChecks_ok hchk).1 (h.vol.no_access hi)
  | true =>
    refine (m.ensures_mofsWriteCore h.vol.wf hi (h.vol.filesOk.length hi)).mono fun r W hr => ?_
    cases hchk : writeChecks m.sb user hd data.length offset (V.inode hd.inodeNum) with
    | error e =>
      rw [hchk] at hr
      obtain ⟨rfl, rfl⟩ := hr
      exact ⟨.error e, h.holdsFs ⟨⟨e, rfl, fun _ => rfl⟩, rfl⟩, rfl⟩
    | ok u =>
      rw [hchk] at hr
      dsimp only at hr ⊢
      obtain ⟨hacc, hlt⟩ := writeChecks_ok hchk
      split at hr
      · obtain ⟨rfl, rfl⟩ := hr
        exact ⟨.error .enospc, h.holdsFs (.inl ⟨rfl, rfl⟩), rfl⟩
      · obtain ⟨rfl, H, hW⟩ := hr
        obtain ⟨⟨-, hpos, -⟩, -⟩ := Fs.writeCheck_ok (hcheck.trans hchk)
        generalize hfit : data.take (mofsMaxFileBytes m.sb - offset.toNat) = fit at hW ⊢
        have hlen := congrArg List.length hfit
        have hmax : mofsMaxFileBytes m.sb ≤ 1024 * 65536 := Nat.mul_le_mul_left 1024 m.ok.blk_le
        rw [List.length_take] at hlen
        refine ⟨.ok (fit.length, { hd with fileOffset := offset.toNat + fit.length }),
          (hW.fs h m.ok hi (isDir_of_accessCheck hacc) (by omega)).mono fun fs' hfs => .inr ⟨rfl, hfs⟩, ?_⟩
        rw [if_pos rfl, u32, Nat.mod_eq_of_lt (by omega)]
        rfl

theorem ensures_truncates (h : Ungrown m.sb V G T up) (user : User) (i : Nat) (length : Int) :
    m.Ensures (mofsTruncateCore m.sb user i length) V (fun r W =>
      HoldsFs m.sb W ((fsOf m.sb V G T up).Truncates user (mofsMaxFileBytes m.sb) i length r)) := by
  cases hi : V.ibit i with
  | false =>
    have hfail : m.Ensures (mofsTruncateCore m.sb user i length) V (fun r W => (∃ e, r = .error e) ∧ W = V) := by
      rw [mofsTruncateCore]
      split
      · exact Ensures.throw ⟨⟨_, rfl⟩, rfl⟩
      split
      · exact Ensures.throw ⟨⟨_, rfl⟩, rfl⟩
      split
      · exact Ensures.throw ⟨⟨_, rfl⟩, rfl⟩
      rw [truncateInode]
      exact m.ensures_unused h.vol hi (m.ensures_refused _ _)
    refine hfail.mono ?_
    rintro r W ⟨hr, rfl⟩
    refine h.holdsFs ?_
    rw [Fs.Truncates, (h.vol.record i).accessCheck, if_neg fun hyes => h.vol.no_access hi hyes.2.2]
    exact ⟨hr, rfl⟩
  | true =>
    have hmay : (0 ≤ length ∧ length ≤ (mofsMaxFileBytes m.sb : Int) ∧
        accessCheck oflagWronly user ((fsOf m.sb V G T up).record i) = .ok ()) ↔
        MayTruncate m.sb user (V.inode i) length := by
      rw [(h.vol.record i).accessCheck]
      constructor
      · rintro ⟨h0, hmax, hacc⟩
        exact ⟨h0, hmax, isDir_of_accessCheck hacc, hacc⟩
      · intro hM
        exact ⟨hM.pos, hM.max, hM.access⟩
    refine (m.ensures_mofsTruncateCore_exact h.vol.wf hi (h.vol.filesOk.length hi) user length).mono ?_
    rintro r W (⟨hno, hr, rfl⟩ | ⟨hM, -, rfl, hW⟩ | ⟨hM, -, rfl, H, hR⟩)
    · refine h.holdsFs ?_
      rw [Fs.Truncates, if_neg fun hyes => hno (hmay.mp hyes)]
      exact ⟨hr, rfl⟩
    · split at hW
      next hlt =>
        refine (hW.fs h hi hM.file).mono fun fs' hfs => ?_
        rw [Fs.Truncates, if_pos (hmay.mpr hM)]
        refine .inr ⟨rfl, .inr ⟨?_, hfs⟩⟩
        rw [fs_bytes hi hM.file, length_fileBytes]
        exact hlt
      next =>
        subst hW
        refine h.holdsFs ?_
        rw [Fs.Truncates, if_pos (hmay.mpr hM)]
        exact .inr ⟨rfl, .inl rfl⟩
    · refine (hR.fs h m.ok hi hM.file).mono fun fs' hfs => ?_
      rw [Fs.Truncates, if_pos (hmay.mpr hM)]
      exact .inl ⟨rfl, hfs⟩

end Working

section Posix

theorem refines_of_reads {r : Except Errno α} {f : α → Ret × Pools} (h : Ungrown m.sb V G T up)
    (hread : m.Reads (posixBody m.sb user P op) V (r.map fun a => (.ok (f a).1, (f a).2)))
    (hstep : ∀ res P', (res, P') = outcome P f r →
      (fsOf m.sb V G T up).Step (mofsMaxFileBytes m.sb) P user op res (fsOf m.sb V G T up) P') :
    m.Refines V G T up user P op := by
  refine hread.ensures (h.holdsFs (hstep _ _ ?_))
  cases r with
  | error e => rfl
  | ok a => rfl

/-- A call that fails at once. -/
theorem refines_of_throw {e : Errno} (h : Ungrown m.sb V G T up) (hbody : posixBody m.sb user P op = throw e)
    (hstep : (fsOf m.sb V G T up).Step (mofsMaxFileBytes m.sb) P user op (.error e) (fsOf m.sb V G T up) P) :
    m.Refines V G T up user P op := by
  rw [Refines, hbody]
  exact Ensures.throw (h.holdsFs hstep)

/-- A call of the core that returns nothing. -/
theorem refines_of_done {p : M Unit} {Q : Except Errno Unit → Fs → Prop} (hbody : posixBody m.sb user P op = do
      p
      pure (.ok .done, P)) (hp : m.Ensures p V fun r W => HoldsFs m.sb W (Q r))
    (hstep : ∀ r fs' res P', Q r fs' → (res, P') = outcome P (fun _ => (.done, P)) r →
      (fsOf m.sb V G T up).Step (mofsMaxFileBytes m.sb) P user op res fs' P') :
    m.Refines V G T up user P op := by
  rw [Refines, hbody]
  refine (m.ensures_done hp P).mono ?_
  rintro r W ⟨r', hr', rfl⟩
  refine hr'.mono fun fs' hfs => hstep r' fs' _ _ hfs ?_
  cases r' with
  | error e => rfl
  | ok u => rfl

/-- A read or a write of the core with what the POSIX layer makes of it. -/
theorem ensures_transfer {p : M (Except Errno α × FileHandle)} {f : Except Errno α × FileHandle → M (Except Errno Ret × Pools)}
    {ret : α → Ret} {Q : Except Errno (α × FileHandle) → Fs → Prop} {S : Except Errno Ret → Fs → Pools → Prop}
    (hf : ∀ x hd, f (.ok x, hd) = pure (.ok (ret x), P.setFile k hd))
    (hp : m.Ensures p V fun r W => ∃ r', HoldsFs m.sb W (Q r') ∧ r = r'.map fun x => (.ok x.1, x.2))
    (hS : ∀ r fs' res P', Q r fs' → (res, P') = outcome P (fun x => (ret x.1, P.setFile k x.2)) r → S res fs' P') :
    m.Ensures (p >>= f) V fun r W => HoldsFs m.sb W fun fs' => S (posixRet P r).1 fs' (posixRet P r).2 := by
  refine Ensures.bind hp ?_ ?_
  · rintro ⟨r, hd⟩ W ⟨r', hW, hr⟩
    cases r' with
    | error e => cases hr
    | ok x =>
      cases hr
      rw [hf]
      exact Ensures.pure (hW.mono fun fs' hfs => hS _ _ _ _ hfs rfl)
  · rintro e W ⟨r', hW, hr⟩
    cases r' with
    | ok x => cases hr
    | error e' =>
      cases hr
      exact hW.mono fun fs' hfs => hS _ _ _ _ hfs rfl

theorem refines_pread (h : Ungrown m.sb V G T up) (hsize : size < 2147483648)
    (hbody : posixBody m.sb user P op = mofsPread m.sb user P k size offset)
    (hstep : ∀ res P', (fsOf m.sb V G T up).PreadStep P user k size offset res P' →
      (fsOf m.sb V G T up).Step (mofsMaxFileBytes m.sb) P user op res (fsOf m.sb V G T up) P') :
    m.Refines V G T up user P op := by
  rw [Refines, hbody, mofsPread]
  by_cases hoff : offset < 0 ∨ 4294967295 < offset
  · rw [if_pos hoff]
    exact Ensures.throw (h.holdsFs (hstep _ _ ⟨.error .einval, by rw [if_pos hoff], rfl⟩))
  · rw [if_neg hoff]
    refine ensures_transfer (fun _ _ => rfl) (ensures_delivers h hsize (by omega)) ?_
    rintro r fs' res P' ⟨rfl, hr⟩ ho
    exact hstep _ _ ⟨r, by rw [if_neg hoff]; exact hr, ho⟩

theorem refines_pwrite (h : Ungrown m.sb V G T up)
    (hbody : posixBody m.sb user P op = mofsPwrite m.sb user P k data offset)
    (hstep : ∀ res fs' P', (fsOf m.sb V G T up).PwriteStep (mofsMaxFileBytes m.sb) P user k data offset res fs' P' →
      (fsOf m.sb V G T up).Step (mofsMaxFileBytes m.sb) P user op res fs' P') :
    m.Refines V G T up user P op := by
  rw [Refines, hbody, mofsPwrite]
  by_cases hoff : offset < 0 ∨ 4294967295 < offset
  · rw [if_pos hoff]
    exact Ensures.throw (h.holdsFs (hstep _ _ _ ⟨.error .einval, by rw [if_pos hoff]; exact ⟨rfl, rfl⟩, rfl⟩))
  · rw [if_neg hoff]
    refine ensures_transfer (fun _ _ => rfl) (ensures_writes h) fun r fs' res P' hr ho => ?_
    exact hstep _ _ _ ⟨r, by rw [if_neg hoff]; exact hr, ho⟩

/-- A call that closes or flushes something, or fails when it is not open. -/
theorem refines_of_done_if {B : Prop} [Decidable B] {e : Errno} {P' : Pools} (h : Ungrown m.sb V G T up)
    (hbad : B → m.Reads (posixBody m.sb user P op) V (.error e))
    (hgood : ¬ B → m.Reads (posixBody m.sb user P op) V (.ok (.ok .done, P')))
    (hstep : ∀ x : Except Errno Ret × Pools, x = (if B then (.error e, P) else (.ok .done, P')) →
      (fsOf m.sb V G T up).Step (mofsMaxFileBytes m.sb) P user op x.1 (fsOf m.sb V G T up) x.2) :
    m.Refines V G T up user P op := by
  by_cases hb : B
  · exact (hbad hb).ensures (h.holdsFs (hstep _ (if_pos hb).symm))
  · exact (hgood hb).ensures (h.holdsFs (hstep _ (if_neg hb).symm))

end Posix

end Mount

end Mofs
