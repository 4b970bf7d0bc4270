import Mofs.FileNotes
import Mofs.ReadOnly
import Mofs.Regions

namespace Mofs

open Effect Bytes

theorem notesIn_growInode (h32 : sb.dataRegionStart + sb.dataBlkNum < 4294967296) (i : Nat) (x : Inode) (newSize : Nat) :
    NotesIn (Note.Sound sb 0) (Noted.growInode sb i x newSize) := by
  have hzero (fromOff toOff : Nat) : NotesIn (Note.Sound sb 0) (Noted.zeroFileByteRange sb i fromOff toOff) :=
    .ite (fun _ => .pure _) fun _ => .bind (.lift _) fun _ => .bind (.lift _) fun _ =>
      .bind (notesIn_writeFileDataBlock h32 _ _ _ _) fun _ => .pure _
  refine .bind (.lift _) fun _ => .bind (.attempt (.bind (.lift _) fun _ => .bind (hzero _ _) fun _ => .lift _)) fun r => ?_
  cases r with
  | ok y => exact .pure _
  | error e => exact .ite (fun _ => .bind (.lift _) fun _ => .fail _) fun _ => .fail _

section Tail

variable {sb : Superblock} {env : Env} {d d' : Disk} {user : User} {i b : Nat} {length : Int}

/-- A truncate gets as far as clearing the tail of block `b`: the call is permitted, it shrinks the file to a size inside a
block, and that block of the file is found to be `b`, which the device has. -/
structure ClearsTail (sb : Superblock) (env : Env) (d : Disk) (user : User) (i : Nat) (length : Int) (b : Nat) : Prop where
  inode : ¬ isNeg i
  pos : 0 ≤ length
  max : length ≤ (mofsMaxFileBytes sb : Int)
  inside : length.toNat % sb.blkSize ≠ 0
  shrinks : ∃ x, exec env (mofsReadInode sb i) d = some (.ok x, d) ∧ x.isDir = false ∧ user.valid = true ∧
    mofsCheckOpenPermission oflagWronly user x = .ok () ∧ length.toNat < x.iSize.toNat
  found : exec env (resolveFileDataBlock sb i (ceilBlks sb length.toNat - 1)) d = some (.ok b, d)
  onDevice : (b + 1) * env.blkSize ≤ env.size

theorem exec_readOrEio_ok {x : Block} (h : exec env (readOrEio b) d = some (.ok x, d')) :
    (b + 1) * env.blkSize ≤ env.size := by
  by_contra hno
  have ha : env.answer (.read b) d = (.ok ⟨0, env.size - b * env.blkSize, d.blk b⟩, d) := if_neg hno
  have hread : exec env (readFull b) d = some (.error .eio, d) := by
    change run env.answer (ofExcept (env.answer (.read b) d).1 >>= _) (env.answer (.read b) d).2 = _
    rw [ha]
    rfl
  rw [exec, readOrEio, run_bind_ok (run_attempt_of hread)] at h
  cases h

theorem exec_readOrEio (h : (b + 1) * env.blkSize ≤ env.size) (d : Disk) :
    exec env (readOrEio b) d = some (.ok (d.blk b), d) := by
  rw [exec, readOrEio, run_bind_ok (run_attempt_of (exec_readFull h d))]
  rfl

theorem readOnly_readOrEio (b : Nat) : ReadOnly (readOrEio b) := by
  refine .bind (.attempt (readOnly_readFull b)) fun r => ?_
  cases r with
  | ok x => exact .pure _
  | error e => exact .throw _

/-- The clearing of a tail takes the block it is led to without looking at its number. -/
theorem mem_zeroPartialBlockTail {k tail : Nat} (ht : tail < sb.blkSize) :
    .data b ∈ notes env.answer (Noted.zeroPartialBlockTail sb i k tail) d ↔
      exec env (resolveFileDataBlock sb i k) d = some (.ok b, d) ∧ (b + 1) * env.blkSize ≤ env.size := by
  rw [Noted.zeroPartialBlockTail, if_neg (Nat.not_le.mpr ht), mem_notes_lift_bind]
  constructor
  · rintro ⟨b', t, hres, hmem⟩
    obtain rfl := (readOnly_resolveFileDataBlock i k).exec_eq hres
    obtain ⟨buf, t, hread, hmem⟩ := mem_notes_lift_bind.mp hmem
    rcases mem_notes_bind.mp hmem with hmem | ⟨r, u, -, hmem⟩
    · rw [notes_attempt, mem_notes_bind] at hmem
      rcases hmem with hmem | ⟨w, u, -, hmem⟩
      · rw [Noted.writeData, notes_note, notes_lift, List.mem_singleton, Note.data.injEq] at hmem
        subst hmem
        exact ⟨hres, exec_readOrEio_ok hread⟩
      · split at hmem <;> cases hmem
    · cases r <;> cases hmem
  · rintro ⟨hres, hfit⟩
    refine ⟨b, d, hres, mem_notes_lift_bind.mpr ⟨_, d, exec_readOrEio hfit d, mem_notes_bind.mpr (.inl ?_)⟩⟩
    rw [notes_attempt, mem_notes_bind]
    refine .inl ?_
    rw [Noted.writeData, notes_note]
    exact List.mem_cons_self

theorem ceilBlks_pos {n : Nat} (hB : 0 < sb.blkSize) (hn : 0 < n) (h32 : n + sb.blkSize < 4294967296) :
    0 < ceilBlks sb n := by
  rw [ceilBlks, u32, Nat.mod_eq_of_lt (by omega)]
  exact Nat.div_pos (by omega) hB

/-- The data writes of a shrinking truncate are those of the cleared tail. -/
theorem mem_shrinkInode {x : Inode} {n : Nat} (hB : 0 < sb.blkSize) (h32 : n + sb.blkSize < 4294967296) :
    .data b ∈ notes env.answer (Noted.shrinkInode sb i x n) d ↔ n % sb.blkSize ≠ 0 ∧
      exec env (resolveFileDataBlock sb i (ceilBlks sb n - 1)) d = some (.ok b, d) ∧ (b + 1) * env.blkSize ≤ env.size := by
  have hrest {t : Disk} (c : Prop) [Decidable c] (p : M Unit) : .data b ∉ notes env.answer (do
      lift (onlyIf c p)
      let x ← lift (mofsReadInode sb i)
      lift (setSize sb i x n) : N Unit) t := by
    intro hmem
    obtain ⟨_, _, -, hmem⟩ := mem_notes_lift_bind.mp hmem
    obtain ⟨_, _, -, hmem⟩ := mem_notes_lift_bind.mp hmem
    rw [notes_lift] at hmem
    cases hmem
  rw [Noted.shrinkInode]
  by_cases hn : n % sb.blkSize = 0
  · refine iff_of_false (fun hmem => ?_) fun h => h.1 hn
    rcases mem_notes_bind.mp hmem with hmem | ⟨_, _, -, hmem⟩
    · rw [onlyIf, if_neg fun hc => hc.2.1 hn] at hmem
      cases hmem
    · exact hrest _ _ hmem
  · have hpos : 0 < n := Nat.pos_of_ne_zero fun h => hn (by rw [h, Nat.zero_mod])
    have hkeep : (if n = 0 then 0 else ceilBlks sb n) = ceilBlks sb n := if_neg (by omega)
    rw [hkeep, onlyIf, if_pos ⟨hpos, hn, ceilBlks_pos hB hpos h32⟩, mem_notes_bind,
      mem_zeroPartialBlockTail (Nat.mod_lt _ hB)]
    constructor
    · rintro (h | ⟨_, _, -, hmem⟩)
      · exact ⟨hn, h⟩
      · exact absurd hmem (hrest _ _)
    · exact fun h => .inl h.2

/-- Of the file data that a truncate writes, only the cleared tail may go elsewhere than to the data region. -/
theorem mem_mofsTruncateCore (hB : 0 < sb.blkSize) (hmax : mofsMaxFileBytes sb + sb.blkSize < 4294967296)
    (h32 : sb.dataRegionStart + sb.dataBlkNum < 4294967296)
    (hmem : .data b ∈ notes env.answer (Noted.mofsTruncateCore sb user i length) d) (hout : ¬ sb.inData b) :
    ClearsTail sb env d user i length b := by
  rw [Noted.mofsTruncateCore] at hmem
  split at hmem
  · cases hmem
  next hneg =>
  split at hmem
  · cases hmem
  next hge =>
  split at hmem
  · cases hmem
  next hle =>
  rw [Noted.truncateInode, mem_notes_lift_bind] at hmem
  obtain ⟨x, t, hread, hmem⟩ := hmem
  obtain rfl := (readOnly_mofsReadInode i).exec_eq hread
  split at hmem
  · cases hmem
  next hdir =>
  rw [mem_notes_lift_bind] at hmem
  obtain ⟨_, t', huser, hmem⟩ := hmem
  rw [requireUser] at huser
  split at huser
  · cases huser
  next hvalid =>
  cases huser
  rw [mem_notes_lift_bind] at hmem
  obtain ⟨_, t', hperm, hmem⟩ := hmem
  rw [run_ofExcept, Option.some.injEq, Prod.mk.injEq] at hperm
  obtain ⟨hperm, rfl⟩ := hperm
  split at hmem
  · cases hmem
  split at hmem
  next hlt =>
    obtain ⟨hin, hfound, hdev⟩ := (mem_shrinkInode hB (by omega)).mp hmem
    exact ⟨hneg, by omega, by omega, hin, ⟨x, hread, by simpa using hdir, by simpa using hvalid, hperm, hlt⟩, hfound, hdev⟩
  next => exact absurd ((notesIn_growInode h32 _ _ _).notes _ hmem) hout

theorem ClearsTail.mem (hB : 0 < sb.blkSize) (hmax : mofsMaxFileBytes sb + sb.blkSize < 4294967296)
    (h : ClearsTail sb env d user i length b) : .data b ∈ notes env.answer (Noted.mofsTruncateCore sb user i length) d := by
  obtain ⟨x, hread, hdir, hvalid, hperm, hlt⟩ := h.shrinks
  have hge := h.pos
  have hle := h.max
  rw [Noted.mofsTruncateCore, if_neg h.inode, if_neg (by omega), if_neg (by omega), Noted.truncateInode]
  refine mem_notes_lift_bind.mpr ⟨x, d, hread, ?_⟩
  rw [if_neg (by simp [hdir])]
  refine mem_notes_lift_bind.mpr ⟨(), d, by rw [requireUser, if_neg (by simp [hvalid])]; rfl, ?_⟩
  refine mem_notes_lift_bind.mpr ⟨(), d, by rw [hperm]; rfl, ?_⟩
  rw [if_neg (by omega), if_pos hlt]
  exact (mem_shrinkInode hB (by omega)).mpr ⟨h.inside, h.found, h.onDevice⟩

/-- Whatever the mounted device holds, a write call stores file data in the data region only, and a truncate does so if and
only if the block whose tail it clears is in the data region. -/
theorem data_writes_contained_iff {cached : Bool} {stale : Nat → Option Block} {clock : Nat → UInt64} {dev : Dev}
    {rootOwner : Option (Nat × Nat)} {t : Disk}
    (hmount : mofsInitCore cached stale clock dev rootOwner = some (.ok (sb, env), t)) (hS : sb.Sane) (d : Disk)
    (user : User) :
    ((∀ h data offset updateOffset, erase (Noted.mofsWriteCore sb user h data offset updateOffset) =
        mofsWriteCore sb user h data offset updateOffset) ∧
      ∀ i length, erase (Noted.mofsTruncateCore sb user i length) = mofsTruncateCore sb user i length) ∧
    (∀ h data offset updateOffset, ∀ b, .data b ∈ notes env.answer (Noted.mofsWriteCore sb user h data offset updateOffset) d →
      sb.inData b) ∧
    ∀ i length, (∀ b, .data b ∈ notes env.answer (Noted.mofsTruncateCore sb user i length) d → sb.inData b) ↔
      ∀ b, ClearsTail sb env d user i length b → sb.inData b := by
  obtain ⟨rfl, hadmitted⟩ := loadSuperblock_ok (mofsInitCore_ok hmount)
  obtain ⟨k, hk, hblk⟩ := hadmitted.blk
  have hpow : 2 ^ k ≤ 2 ^ 7 := Nat.pow_le_pow_right (by omega) hk
  have hpos := Nat.one_le_two_pow (n := k)
  have hhole : (decodeSuperblock dev.bytes).holeBlkNum < 4294967296 := leNat_lt _ _ 4
  have h32 := lt_of_le_of_lt hS.hole hhole
  have hmax : mofsMaxFileBytes (decodeSuperblock dev.bytes) + (decodeSuperblock dev.bytes).blkSize < 4294967296 := by
    rw [mofsMaxFileBytes, maxFileDataBlocks]
    omega
  refine ⟨⟨erase_mofsWriteCore _ user, erase_mofsTruncateCore _ user⟩,
    fun h data offset updateOffset b hmem => ?_,
    fun i length => ⟨fun h b hb => h b (hb.mem (by omega) hmax), fun h b hmem => ?_⟩⟩
  · obtain ⟨_, hnotes⟩ := notesIn_mofsWriteCore (by omega) (by omega) h32 user h data offset updateOffset
    exact hnotes.notes _ hmem
  by_contra hout
  exact hout (h b (mem_mofsTruncateCore (by omega) hmax h32 hmem hout))

end Tail

section Damaged

def smallSuperblock : Superblock := (geometry (16 * 512) 512).superblock 512

/-- A file of one block that the owner may write. -/
def damagedInode : Inode :=
  ⟨512, 1, .ofNat (ftypeReg ||| 0o600), 0, 0, 4, 1, 0, 0, 0, (0, 0)⟩

/-- A small volume. Inode 3 is a file of one block, and its list node, in block 4, says that this is block 1. -/
def damagedDev : Dev where
  size := 16 * 512
  growable := false
  bytes := splice (splice (splice (fun _ => 0) 0 (encodeSuperblock smallSuperblock)) (3 * 512 + 192) (encodeInode damagedInode))
    (4 * 512) (leBytes 0 4 ++ leBytes 1 4 ++ leBytes 1 4)
  log := []
  clock := fun _ => 0
  ticks := 0

def damagedEnv : Env := ⟨512, 16 * 512, false, fun _ => none, fun _ => 0⟩

theorem smallSuperblock_sane : smallSuperblock.Sane := by
  constructor <;> decide

theorem mount_damagedDev : mofsInitCore false (fun _ => none) (fun _ => 0) damagedDev none =
    some (.ok (smallSuperblock, damagedEnv), diskOf 512 damagedDev.bytes) := by
  have hdecode : decodeSuperblock damagedDev.bytes = smallSuperblock := by decide +kernel
  have hload : loadSuperblock damagedDev.size damagedDev.bytes = .ok smallSuperblock := by
    rw [loadSuperblock, if_neg (by decide), hdecode]
    rfl
  rw [mofsInitCore, hload]
  rfl

/-- Truncating that file to 100 bytes clears the tail of block 1. -/
theorem clearsTail_damaged : ClearsTail smallSuperblock damagedEnv (diskOf 512 damagedDev.bytes) fileOwner 3 100 1 := by
  have hinode : exec damagedEnv (mofsReadInode smallSuperblock 3) (diskOf 512 damagedDev.bytes) =
      some (.ok damagedInode, diskOf 512 damagedDev.bytes) := by
    have hdecode : decodeInode ((diskOf 512 damagedDev.bytes).blk (inodeBlk smallSuperblock 3)) (inodeOffset smallSuperblock 3) =
      damagedInode := by decide +kernel
    rw [exec_mofsReadInode (by decide) (by decide), hdecode]
  have hptrs : nodeNrPtrs ((diskOf 512 damagedDev.bytes).blk 4) = 1 := by decide +kernel
  have hptr : leNat ((diskOf 512 damagedDev.bytes).blk 4) 8 4 = 1 := by decide +kernel
  refine ⟨by decide, by decide, by decide, by decide, ⟨damagedInode, hinode, rfl, rfl, rfl, by decide⟩, ?_, by decide⟩
  have hfuel : walkFuel = (walkFuel - 1) + 1 := by decide
  rw [show ceilBlks smallSuperblock (100 : Int).toNat - 1 = 0 by decide, resolveFileDataBlock, if_neg (by decide), exec,
    run_bind_ok hinode, if_neg (by decide), if_neg (by decide), show damagedInode.iDataHead.toNat = 4 by decide, hfuel, resolveFrom,
    if_neg (by decide), readListNode, run_bind_ok (exec_readFull (e := damagedEnv) (by decide) _), hptrs, if_neg (by decide),
    if_pos (by decide), hptr]
  rfl

/-- The bitmap of the inodes is what the truncate of the damaged file writes to. -/
theorem damaged_truncate_astray :
    mofsInitCore false (fun _ => none) (fun _ => 0) damagedDev none =
      some (.ok (smallSuperblock, damagedEnv), diskOf 512 damagedDev.bytes) ∧ smallSuperblock.Sane ∧
    .data 1 ∈ notes damagedEnv.answer (Noted.mofsTruncateCore smallSuperblock fileOwner 3 100) (diskOf 512 damagedDev.bytes) ∧
      1 = smallSuperblock.inodeBitmapStart ∧ ¬ smallSuperblock.inData 1 :=
  ⟨mount_damagedDev, smallSuperblock_sane, clearsTail_damaged.mem (by decide) (by decide), by decide, by decide⟩

/-- The damaged volume meets the assumptions, and there the condition fails. -/
theorem data_writes_contained_iff_damaged :
    mofsInitCore false (fun _ => none) (fun _ => 0) damagedDev none =
      some (.ok (smallSuperblock, damagedEnv), diskOf 512 damagedDev.bytes) ∧ smallSuperblock.Sane ∧
    ((∀ b, .data b ∈ notes damagedEnv.answer (Noted.mofsTruncateCore smallSuperblock fileOwner 3 100) (diskOf 512 damagedDev.bytes) →
      smallSuperblock.inData b) ↔
      ∀ b, ClearsTail smallSuperblock damagedEnv (diskOf 512 damagedDev.bytes) fileOwner 3 100 b → smallSuperblock.inData b) :=
  ⟨mount_damagedDev, smallSuperblock_sane,
    (data_writes_contained_iff mount_damagedDev smallSuperblock_sane (diskOf 512 damagedDev.bytes) fileOwner).2.2 3 100⟩

end Damaged

end Mofs
