import Mofs.WriteAt

namespace Mofs

open Effect Bytes

variable {sb : Superblock} {V W : View} {G H : Owners} {i : Nat} {ns ds : List Nat}

/-- A file as a byte array. -/
def fileBytes (sb : Superblock) (V : View) (G : Owners) (i : Nat) : List UInt8 :=
  slice (bytesOf sb.blkSize V.blk (G.data i)) 0 (V.inode i).iSize.toNat

@[simp] theorem length_fileBytes (sb : Superblock) (V : View) (G : Owners) (i : Nat) :
    (fileBytes sb V G i).length = (V.inode i).iSize.toNat := length_slice _ _ _

section

variable {s off size n : Nat} {blk : Nat → Block}

/-- The bytes a block read makes available behind the start of its first block. -/
theorem fileRead_available (blk : Nat → Block) (hB : 0 < sb.blkSize) (hs : ds.length = sb.blocksFor s) {start req : Nat} (hreq : 0 < req)
    (hstart : start < ds.length) :
    (fileRead sb.blkSize s blk ds start req).readBlkNum * sb.blkSize + (fileRead sb.blkSize s blk ds start req).fraction +
      start * sb.blkSize = min s ((start + req) * sb.blkSize) := by
  have hlen := (blocksFor_le_iff hB).mp (Nat.le_of_eq hs.symm)
  have hlast := (lt_blocksFor_iff hB).mp (show ds.length - 1 < sb.blocksFor s by omega)
  have hse := Nat.div_add_mod s sb.blkSize
  have hmod := Nat.mod_lt s hB
  rw [fileRead, if_neg (by omega)]
  dsimp only
  generalize hn : min req (ds.length - start) = n
  have hdlt := div_lt_blocksFor hB (s := s)
  have hdle := blocksFor_le_succ hB (s := s)
  by_cases hp : s / sb.blkSize < start + n
  · -- the last block of the file is among those read, and it is partial
    have hq : s / sb.blkSize = start + (n - 1) := by omega
    rw [if_pos hp, Nat.min_eq_left]
    · rw [hq, Nat.mul_comm, Nat.add_mul] at hse
      dsimp only
      omega
    · exact hlen.trans (Nat.mul_le_mul_right _ (by omega))
  · rw [if_neg hp]
    have hle : (start + n) * sb.blkSize ≤ s := (Nat.le_div_iff_mul_le hB).mp (Nat.not_lt.mp hp)
    have hnr : n = req ∨ start + n = ds.length := by omega
    rw [Nat.add_mul] at hle
    rcases hnr with rfl | hnr
    · rw [Nat.add_mul, Nat.min_eq_right hle]
      dsimp only
      omega
    · rw [← hnr, Nat.add_mul] at hlen
      rw [Nat.min_eq_left]
      · dsimp only
        omega
      · exact (show s ≤ (start + n) * sb.blkSize by rw [Nat.add_mul]; omega).trans (Nat.mul_le_mul_right _ (by omega))

theorem readSize_fileRead (hB : 0 < sb.blkSize) (hs : ds.length = sb.blocksFor s) (hsize : 0 < size) :
    readSize sb size off (fileRead sb.blkSize s blk ds (off / sb.blkSize)
      ((off % sb.blkSize + size + sb.blkSize - 1) / sb.blkSize)) = min size (s - off) := by
  have hoe := Nat.div_add_mod off sb.blkSize
  obtain ⟨req, -, h0, hcover, hdiv⟩ := exists_req hB off hsize
  rw [hdiv, readSize]
  by_cases hstart : off / sb.blkSize < ds.length
  · have hav := fileRead_available blk hB hs h0 hstart
    rw [Nat.add_mul] at hav
    generalize (fileRead sb.blkSize s blk ds (off / sb.blkSize) req).readBlkNum * sb.blkSize +
      (fileRead sb.blkSize s blk ds (off / sb.blkSize) req).fraction = a at *
    rw [Nat.mul_comm] at hoe
    split <;> omega
  · have hle : s ≤ off := by
      have := (blocksFor_le_iff hB).mp (show sb.blocksFor s ≤ off / sb.blkSize by omega)
      exact this.trans (Nat.div_mul_le_self _ _)
    have hnone : fileRead sb.blkSize s blk ds (off / sb.blkSize) req = ⟨0, 0, []⟩ := by
      rw [fileRead, if_pos (Or.inr (Nat.not_lt.mp hstart))]
    rw [hnone]
    simp only [Nat.zero_mul, Nat.add_zero]
    split <;> omega

theorem flatten_fileRead (hB : 0 < sb.blkSize) {req p : Nat} (hp : (p + off % sb.blkSize) / sb.blkSize < req)
    (hin : (off + p) / sb.blkSize < ds.length) :
    flatten sb (fileRead sb.blkSize s blk ds (off / sb.blkSize) req).buf (off % sb.blkSize + p) =
      bytesOf sb.blkSize blk ds (off + p) := by
  have hdiv := add_div_of_div off p sb.blkSize hB
  have hmod := add_mod_of_div off p sb.blkSize
  have hle : off / sb.blkSize ≤ (off + p) / sb.blkSize := Nat.div_le_div_right (Nat.le_add_right _ _)
  rw [Nat.add_comm p] at hp
  have hbuf : (fileRead sb.blkSize s blk ds (off / sb.blkSize) req).buf =
      ((ds.drop (off / sb.blkSize)).take (min req (ds.length - off / sb.blkSize))).map blk := by
    rw [fileRead, if_neg (by omega)]
    dsimp only
    split <;> rfl
  rw [flatten, hbuf, bytesOf, hmod, List.getD_eq_getElem _ _ (by simp; omega), List.getD_eq_getElem _ _ hin]
  simp only [List.getElem_map, List.getElem_take, List.getElem_drop, hdiv]

theorem slice_fileRead (hB : 0 < sb.blkSize) (hs : ds.length = sb.blocksFor s) (hsize : 0 < size) :
    slice (flatten sb (fileRead sb.blkSize s blk ds (off / sb.blkSize)
      ((off % sb.blkSize + size + sb.blkSize - 1) / sb.blkSize)).buf) (off % sb.blkSize) (min size (s - off)) =
      slice (bytesOf sb.blkSize blk ds) off (min size (s - off)) := by
  obtain ⟨req, -, h0, hcover, hdiv⟩ := exists_req hB off hsize
  rw [hdiv]
  refine slice_congr fun p hp => flatten_fileRead hB ?_ ?_
  · rw [Nat.div_lt_iff_lt_mul hB]
    omega
  · rw [hs, lt_blocksFor_iff hB]
    exact lt_of_le_of_lt (Nat.div_mul_le_self _ _) (by omega)

end

/-- The checks of a caller against an inode that `mofs_read_core` and `mofs_write_core` share. -/
def accessCheck (flags : Nat) (user : User) (x : Inode) : Except Errno Unit :=
  if user.valid = false then .error .eperm
  else
    match mofsCheckOpenPermission flags user x with
    | .error e => .error e
    | .ok () => if x.isDir then .error .eisdir else .ok ()

theorem isDir_of_accessCheck {flags : Nat} {user : User} {x : Inode} (h : accessCheck flags user x = .ok ()) :
    x.isDir = false := by
  rw [accessCheck] at h
  split at h
  · cases h
  · split at h
    · cases h
    · split at h
      · cases h
      · simpa using ‹¬ x.isDir = true›

/-- Permissions depend on the attributes of an inode only. -/
theorem SameAttrs.accessCheck {x y : Inode} (h : SameAttrs x y) (flags : Nat) (user : User) :
    accessCheck flags user y = accessCheck flags user x := by
  simp only [Mofs.accessCheck, mofsCheckOpenPermission, h.isDir, h.mode, h.uid, h.gid]

/-- The checks of `mofs_read_core`, on the inode the handle refers to. -/
def readChecks (user : User) (h : FileHandle) (size : Nat) (offset : Int) (x : Inode) : Except Errno Unit :=
  if h.used = false ∨ size = 0 ∨ offset < 0 then .error .einval
  else if h.openFlags &&& oflagRdonly = 0 then .error .ebadf
  else accessCheck h.openFlags user x

theorem SameAttrs.readChecks {x y : Inode} (h : SameAttrs x y) (user : User) (hd : FileHandle) (size : Nat) (offset : Int) :
    readChecks user hd size offset y = readChecks user hd size offset x := by
  rw [Mofs.readChecks, Mofs.readChecks, h.accessCheck]

/-- The checks of `mofs_write_core`. -/
def writeChecks (sb : Superblock) (user : User) (h : FileHandle) (len : Nat) (offset : Int) (x : Inode) :
    Except Errno Unit :=
  if h.used = false ∨ len = 0 ∨ offset < 0 then .error .einval
  else if h.openFlags &&& oflagWronly = 0 then .error .ebadf
  else
    match accessCheck (h.openFlags &&& oflagAccmode) user x with
    | .error e => .error e
    | .ok () => if mofsMaxFileBytes sb ≤ offset.toNat then .error .efbig else .ok ()

namespace Mount

theorem reads_requireUser (m : Mount) (V : View) (user : User) :
    m.Reads (requireUser user) V (if user.valid = false then .error .eperm else .ok ()) := by
  rw [requireUser]
  split
  · exact Reads.throw _
  · exact Reads.pure _

theorem ensures_access (m : Mount) {α : Type} {k : M α} {flags : Nat} {user : User} {x : Inode}
    {Q : Except Errno α → View → Prop} (he : ∀ e, accessCheck flags user x = .error e → Q (.error e) V)
    (hk : accessCheck flags user x = .ok () → m.Ensures k V Q) :
    m.Ensures (do
      requireUser user
      ofExcept (mofsCheckOpenPermission flags user x)
      if x.isDir then throw .eisdir else k) V Q := by
  have huser := m.reads_requireUser V user
  rw [accessCheck] at he hk
  by_cases hv : user.valid = false
  · rw [if_pos hv] at he huser
    exact (Reads.bind_error huser).ensures (he _ rfl)
  rw [if_neg hv] at he hk huser
  refine Ensures.bind_reads huser ?_
  cases hp : mofsCheckOpenPermission flags user x with
  | error e =>
    rw [hp] at he
    exact (Reads.bind_error (Reads.ofExcept _)).ensures (he _ rfl)
  | ok u =>
    rw [hp] at he hk
    refine Ensures.bind_reads (Reads.ofExcept _) ?_
    cases hd : x.isDir with
    | true => exact Ensures.throw (he _ (by simp [hd]))
    | false => exact hk (by simp [hd])

/-- A read that passes the checks returns the bytes of the file and sets its access time if there are any. Block
numbers are passed on in 32 bits, so the bytes are those at the offset modulo `2^32` blocks. -/
theorem ensures_mofsReadCore (m : Mount) (user : User) (hd : FileHandle) {size : Nat} (offset : Int) (upd : Bool)
    (h : FileAt m.sb V hd.inodeNum ns ds)
    (hs : (V.inode hd.inodeNum).isDir = false → ds.length = m.sb.blocksFor (V.inode hd.inodeNum).iSize.toNat)
    (hsize : size < 2147483648) :
    m.Ensures (mofsReadCore m.sb user hd size offset upd) V (fun r W =>
      match readChecks user hd size offset (V.inode hd.inodeNum) with
      | .error e => r = .error e ∧ W = V
      | .ok () =>
        let off := offset.toNat % (4294967296 * m.sb.blkSize)
        let n := min size ((V.inode hd.inodeNum).iSize.toNat - off)
        r = .ok (.ok (slice (bytesOf m.sb.blkSize V.blk ds) off n),
          if upd then { hd with fileOffset := u32 (offset.toNat + n) } else hd) ∧
        (W = V ∨ ∃ t, W = V.setInode hd.inodeNum ((V.inode hd.inodeNum).stamp timeAtime t))) := by
  rw [mofsReadCore, readChecks]
  by_cases h1 : hd.used = false ∨ size = 0 ∨ offset < 0
  · simp only [if_pos h1]
    exact Ensures.throw ⟨rfl, rfl⟩
  simp only [if_neg h1]
  by_cases h2 : hd.openFlags &&& oflagRdonly = 0
  · simp only [if_pos h2]
    exact Ensures.throw ⟨rfl, rfl⟩
  simp only [if_neg h2]
  refine Ensures.bind_reads (m.reads_mofsReadInode V h.range) ?_
  refine m.ensures_access (fun e he => by simp [he]) fun hok => ?_
  have hs := hs (isDir_of_accessCheck hok)
  have hB := m.ok.blk_pos
  have hblk := m.ok.blk_ge
  have hble := m.ok.blk_le
  have hmod := Nat.mod_lt offset.toNat hB
  have hreq : (offset.toNat % m.sb.blkSize + size + m.sb.blkSize - 1) / m.sb.blkSize < 4294966272 := by
    refine lt_of_le_of_lt (Nat.div_le_div_left hblk (by decide)) ?_
    omega
  have hpos : 0 < size := by omega
  simp only [hok, u32]
  rw [Nat.mod_eq_of_lt (hreq.trans (by decide)), ← Nat.mod_mul_left_div_self]
  have hoff := Nat.mod_mul_left_mod offset.toNat 4294967296 m.sb.blkSize
  have hread (r : FileRead) : readSize m.sb size offset.toNat r =
      readSize m.sb size (offset.toNat % (4294967296 * m.sb.blkSize)) r := by rw [readSize, readSize, hoff]
  simp only [hread]
  rw [← hoff] at hreq ⊢
  refine Ensures.bind_reads (m.reads_readFileDataBlock h hs hreq) ?_
  simp only [readSize_fileRead hB hs hpos, slice_fileRead hB hs hpos]
  generalize hn : min size ((V.inode hd.inodeNum).iSize.toNat - offset.toNat % (4294967296 * m.sb.blkSize)) = n
  by_cases h0 : 0 < n
  · rw [if_pos h0]
    have hnum : (if upd = true then { hd with fileOffset := (offset.toNat + n) % 4294967296 } else hd).inodeNum =
        hd.inodeNum := by split <;> rfl
    rw [hnum]
    have hstamp : m.Ensures (mofsInodeStampPersist m.sb hd.inodeNum timeAtime) V (fun r W => r = .ok () ∧
        ∃ t, W = V.setInode hd.inodeNum ((V.inode hd.inodeNum).stamp timeAtime t)) :=
      m.ensures_mofsInodeStampPersist h.range (by decide) fun t => ⟨rfl, t, rfl⟩
    exact Ensures.bind_ok hstamp.attempt_eq fun W hW => Ensures.pure ⟨rfl, .inr hW⟩
  · rw [if_neg h0]
    exact Ensures.pure ⟨rfl, .inl rfl⟩

/-- A write that passes the checks stores what of its data fits the largest file, or fails for want of blocks. -/
theorem ensures_mofsWriteCore (m : Mount) {user : User} {hd : FileHandle} {data : List UInt8} {offset : Int} {upd : Bool}
    (h : Wf m.sb V G) (hi : V.ibit hd.inodeNum = true)
    (hs : (V.inode hd.inodeNum).isDir = false →
      (G.data hd.inodeNum).length = m.sb.blocksFor (V.inode hd.inodeNum).iSize.toNat) :
    m.Ensures (mofsWriteCore m.sb user hd data offset upd) V (fun r W =>
      match writeChecks m.sb user hd data.length offset (V.inode hd.inodeNum) with
      | .error e => r = .error e ∧ W = V
      | .ok () =>
        let fit := data.take (mofsMaxFileBytes m.sb - offset.toNat)
        let need := m.sb.blocksFor (offset.toNat + fit.length)
        let len := (G.data hd.inodeNum).length
        if len < need ∧ ¬ m.sb.canGrow V len (need - len) then r = .error .enospc ∧ W = V
        else
          r = .ok (.ok fit.length, if upd then { hd with fileOffset := u32 (offset.toNat + fit.length) } else hd) ∧
          ∃ H, WrittenAt m.sb V W G H hd.inodeNum offset.toNat fit) := by
  rw [mofsWriteCore, writeChecks]
  by_cases h1 : hd.used = false ∨ data.length = 0 ∨ offset < 0
  · simp only [if_pos h1]
    exact Ensures.throw ⟨rfl, rfl⟩
  simp only [if_neg h1]
  by_cases h2 : hd.openFlags &&& oflagWronly = 0
  · simp only [if_pos h2]
    exact Ensures.throw ⟨rfl, rfl⟩
  simp only [if_neg h2]
  refine Ensures.bind_reads (m.reads_mofsReadInode V (h.range _ hi)) ?_
  refine m.ensures_access (fun e he => by simp [he]) fun hok => ?_
  have hs := hs (isDir_of_accessCheck hok)
  simp only [hok]
  by_cases h6 : mofsMaxFileBytes m.sb ≤ offset.toNat
  · simp only [if_pos h6]
    exact Ensures.throw ⟨rfl, rfl⟩
  simp only [if_neg h6]
  have hfit : 0 < (data.take (mofsMaxFileBytes m.sb - offset.toNat)).length := by
    rw [List.length_take]; omega
  have hmax : offset.toNat + (data.take (mofsMaxFileBytes m.sb - offset.toNat)).length ≤ mofsMaxFileBytes m.sb := by
    rw [List.length_take]; omega
  refine Ensures.bind (m.ensures_writeAt h hi hs hfit hmax) (fun a W hW => ?_) (fun e W hW => ?_)
  · split at hW
    · exact absurd hW.1 (by simp)
    · rename_i hroom
      obtain ⟨ha, hW⟩ := hW
      cases ha
      refine Ensures.pure ?_
      rw [if_neg hroom]
      exact ⟨rfl, hW⟩
  · split at hW
    · rename_i hfull
      obtain ⟨he, rfl⟩ := hW
      cases he
      rw [if_pos hfull]
      exact ⟨rfl, rfl⟩
    · exact absurd hW.1 (by simp)

/-- A write that passes the checks and finds the blocks it needs succeeds. -/
theorem stores_mofsWriteCore (m : Mount) (user : User) (hd : FileHandle) (offset : Int) (upd : Bool)
    {data fit : List UInt8} (h : Wf m.sb V G) (hi : V.ibit hd.inodeNum = true)
    (hs : (G.data hd.inodeNum).length = m.sb.blocksFor (V.inode hd.inodeNum).iSize.toNat)
    (hchk : writeChecks m.sb user hd data.length offset (V.inode hd.inodeNum) = .ok ())
    (hfit : data.take (mofsMaxFileBytes m.sb - offset.toNat) = fit)
    (hroom : (G.data hd.inodeNum).length < m.sb.blocksFor (offset.toNat + fit.length) →
      m.sb.canGrow V (G.data hd.inodeNum).length
        (m.sb.blocksFor (offset.toNat + fit.length) - (G.data hd.inodeNum).length)) :
    m.Ensures (mofsWriteCore m.sb user hd data offset upd) V (fun r W =>
      r = .ok (.ok fit.length, if upd then { hd with fileOffset := u32 (offset.toNat + fit.length) } else hd) ∧
      ∃ H, WrittenAt m.sb V W G H hd.inodeNum offset.toNat fit) := by
  refine (m.ensures_mofsWriteCore h hi (fun _ => hs)).mono fun r W hr => ?_
  rw [hchk] at hr
  simp only [hfit] at hr
  rwa [if_neg fun hc => hc.2 (hroom hc.1)] at hr

end Mount

end Mofs
