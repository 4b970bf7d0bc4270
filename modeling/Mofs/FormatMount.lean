import Mofs.FormatSpec
import Mofs.PortRun

namespace Mofs

open Effect Bytes

/-- The root inode after a mount that may set its owner at time `t`. -/
def withOwner (t : UInt64) (x : Inode) : Option (Nat × Nat) → Inode
  | none => x
  | some (uid, gid) => { x with iUid := .ofNat uid, iGid := .ofNat gid, iCtime := t }

/-- The volume that `mofs_format` left on `d'` can be used: it mounts as `env` with the blocks `t`, nothing was
written outside it, and the root directory is where the superblock lets it be found. -/
structure UsableAs (d d' : Dev) (cached : Bool) (stale : Nat → Option Block) (clock : Nat → UInt64)
    (rootOwner : Option (Nat × Nat)) (env : Env) (t : Disk) (now : UInt64) : Prop where
  mounts : mofsInitCore cached stale clock d' rootOwner = some (.ok (decodeSuperblock d'.bytes, env), t)
  inside : ∀ w ∈ d'.log.drop d.log.length,
    w.1 + w.2 ≤ (decodeSuperblock d'.bytes).holeBlkNum * (decodeSuperblock d'.bytes).blkSize
  inodes : rootInodeNum < (decodeSuperblock d'.bytes).inodeNum
  node : (decodeSuperblock d'.bytes).inData (rootInode (decodeSuperblock d'.bytes) now).iDataHead.toNat
  dir : (decodeSuperblock d'.bytes).inData
    (leNat (t.blk (rootInode (decodeSuperblock d'.bytes) now).iDataHead.toNat) 8 4)
  bits : ∀ k < (decodeSuperblock d'.bytes).dataBlkNum,
    (bitmapBit t.blk (decodeSuperblock d'.bytes).blkSize (decodeSuperblock d'.bytes).dataBitmapStart k = true ↔
      (decodeSuperblock d'.bytes).dataRegionStart + k ∈
        [(rootInode (decodeSuperblock d'.bytes) now).iDataHead.toNat,
          leNat (t.blk (rootInode (decodeSuperblock d'.bytes) now).iDataHead.toNat) 8 4])
  root : exec env (mofsReadInode (decodeSuperblock d'.bytes) rootInodeNum) t =
    some (.ok (withOwner (clock 0) (rootInode (decodeSuperblock d'.bytes) now) rootOwner), t)

def Usable (d d' : Dev) (cached : Bool) (stale : Nat → Option Block) (clock : Nat → UInt64)
    (rootOwner : Option (Nat × Nat)) : Prop :=
  ∃ env t now, UsableAs d d' cached stale clock rootOwner env t now

theorem bitmapBit_first {blk : Nat → Block} {size start stop k : Nat} {x : UInt8} (hs : 0 < size)
    (h : ∀ b j, start ≤ b → b < stop → j < size → blk b j = if b = start ∧ j = 0 then x else 0)
    (hk : bitBlk size start k < stop) : bitmapBit blk size start k = (decide (k < 8) && testBit x k) := by
  have hmod := Nat.mod_lt k (show 0 < size * 8 by omega)
  have hz (j : Nat) : testBit 0 j = false := by simp [testBit]
  rw [bitmapBit, h _ _ (le_bitBlk _ _ _) hk (by omega)]
  by_cases h8 : k < 8
  · have hd : k / (size * 8) = 0 := Nat.div_eq_of_lt (by omega)
    have hm : k % (size * 8) = k := Nat.mod_eq_of_lt (by omega)
    rw [if_pos ⟨by rw [bitBlk, hd, Nat.add_zero], by rw [hm]; omega⟩, hm, Nat.mod_eq_of_lt h8]
    simp [h8]
  · rw [if_neg, hz]
    · simp [h8]
    · rintro ⟨hb, hj⟩
      have hd : k / (size * 8) = 0 := by rw [bitBlk] at hb; omega
      have := Nat.div_add_mod k (size * 8)
      rw [hd, Nat.mul_zero] at this
      omega

section

variable {sb : Superblock} {now : UInt64} {f : Nat → UInt8}

theorem rootBlk_eq (hB : 512 ≤ sb.blkSize) (h32 : sb.inodeTableStart < 4294967296) :
    inodeBlk sb rootInodeNum = sb.inodeTableStart ∧ inodeOffset sb rootInodeNum = 128 := by
  have hbyte : inodeByte rootInodeNum = ((128 : Nat) : Int) := rfl
  rw [inodeBlk, inodeOffset, hbyte, ← Int.ofNat_tdiv, ← Int.ofNat_tmod, Nat.div_eq_of_lt (by omega),
    Nat.mod_eq_of_lt (by omega)]
  exact ⟨by omega, rfl⟩

theorem root_inRange (hi : rootInodeNum < sb.inodeNum) : ¬ (isNeg rootInodeNum ∨ sb.inodeNum ≤ rootInodeNum) := by
  simp only [rootInodeNum, isNeg] at hi ⊢
  omega

theorem exec_updateRootOwner (env : Env) (t : Disk) (uid gid : Nat) (hB : 512 ≤ sb.blkSize) (h32 : sb.inodeTableStart < 4294967296)
    (hi : rootInodeNum < sb.inodeNum) (henv : env.blkSize = sb.blkSize) (hfit : (sb.inodeTableStart + 1) * env.blkSize ≤ env.size) :
    exec env (updateRootOwner sb uid gid) t = some (.ok (), t.tick.put sb.inodeTableStart
      (splice (t.blk sb.inodeTableStart) 128
        (encodeInode (withOwner (env.clock t.ticks) (decodeInode (t.blk sb.inodeTableStart) 128) (some (uid, gid)))))) := by
  obtain ⟨hblk, hoff⟩ := rootBlk_eq hB h32
  have hread := exec_mofsReadInode (e := env) (root_inRange hi) (by rw [hblk]; exact hfit) t
  rw [hblk, hoff] at hread
  have hstamp := exec_mofsInodeStampNow (e := env) (show timeCtime ≠ 0 by decide)
    { decodeInode (t.blk sb.inodeTableStart) 128 with iUid := .ofNat uid, iGid := .ofNat gid } t
  have hwrite := exec_mofsWriteInode (e := env) (root_inRange hi) (by rw [hblk]; exact hfit)
    (by rw [hoff, henv]; exact (show 128 + 64 ≤ sb.blkSize by omega))
    (withOwner (env.clock t.ticks) (decodeInode (t.blk sb.inodeTableStart) 128) (some (uid, gid))) t.tick
  rw [hblk, hoff] at hwrite
  rw [updateRootOwner, exec, run_bind_ok hread, run_bind_ok hstamp]
  exact hwrite

theorem Regions.table_lt (hr : Regions sb) : sb.inodeTableStart < 4294967296 := by
  have := hr.drs
  have := hr.full
  have := hr.hole_lt
  omega

theorem Formatted.tableBlk (h : Formatted sb now f) (hr : Regions sb) :
    (diskOf sb.blkSize f).blk sb.inodeTableStart =
      fun k => if k < sb.blkSize then splice (fun _ => 0) 128 (encodeInode (rootInode sb now)) k else 0 := by
  funext k
  simp only [diskOf]
  split
  · rename_i hk
    rw [h.table _ k (Nat.le_refl _) hr.drs hk, if_pos rfl]
    rfl
  · rfl

theorem Formatted.decode_root (h : Formatted sb now f) (hr : Regions sb) :
    decodeInode ((diskOf sb.blkSize f).blk sb.inodeTableStart) 128 = rootInode sb now := by
  have hB := hr.blk_ge
  rw [h.tableBlk hr, ← decodeInode_splice (fun _ => 0) 128 (rootInode sb now)]
  refine decodeInode_congr fun i hi => ?_
  simp only [inodeBytes] at hi
  rw [if_pos (by omega), decodeInode_splice]

theorem Formatted.node_blk (h : Formatted sb now f) (hr : Regions sb) :
    (diskOf sb.blkSize f).blk (sb.dataRegionStart + 1) = encodeNode 0 [sb.dataRegionStart] := by
  have hB := hr.blk_ge
  funext k
  simp only [diskOf]
  split
  · exact h.node k ‹_›
  · rw [encodeNode, splice_outside (by simp; omega)]

theorem Formatted.dir_blk (h : Formatted sb now f) : (diskOf sb.blkSize f).blk sb.dataRegionStart = fun _ => 0 := by
  funext k
  simp only [diskOf]
  split
  · exact h.dir k ‹_›
  · rfl

theorem rootInode_head (hr : Regions sb) (now : UInt64) : (rootInode sb now).iDataHead.toNat = sb.dataRegionStart + 1 := by
  have := hr.full
  have := hr.hole_lt
  have := hr.data
  exact Nat.mod_eq_of_lt (by omega)

theorem ptr_encodeNode {p : Nat} (h : p < 4294967296) : leNat (encodeNode 0 [p]) 8 4 = p := by
  rw [encodeNode, leNat_splice_tail _ _ _ _ _ _ (by simp)]
  simp only [List.length_append, length_leBytes, Nat.zero_add, Nat.reduceAdd, List.flatMap_cons, List.flatMap_nil]
  rw [leNat_splice_head]
  exact Nat.mod_eq_of_lt h

theorem Formatted.dataBit (h : Formatted sb now f) (hr : Regions sb) {k : Nat}
    (hk : bitBlk sb.blkSize sb.dataBitmapStart k < sb.inodeTableStart) :
    bitmapBit (diskOf sb.blkSize f).blk sb.blkSize sb.dataBitmapStart k = decide (k < 2) := by
  have hB := hr.blk_ge
  rw [bitmapBit_first (x := 0x03) (by omega) (fun b j hb hb' hj => ?_) hk]
  · rcases Nat.lt_or_ge k 8 with h8 | h8
    · exact (show ∀ k < 8, (decide (k < 8) && testBit 0x03 k) = decide (k < 2) by decide) k h8
    · simp [show ¬ k < 8 by omega, show ¬ k < 2 by omega]
  · simp only [diskOf, hj, if_true]
    exact h.dataBitmap b j hb hb' hj

theorem Formatted.inodeBit (h : Formatted sb now f) (hr : Regions sb) {k : Nat}
    (hk : bitBlk sb.blkSize sb.inodeBitmapStart k < sb.dataBitmapStart) :
    bitmapBit (diskOf sb.blkSize f).blk sb.blkSize sb.inodeBitmapStart k = decide (k = 2) := by
  have hB := hr.blk_ge
  rw [bitmapBit_first (x := 0x04) (by omega) (fun b j hb hb' hj => ?_) hk]
  · rcases Nat.lt_or_ge k 8 with h8 | h8
    · exact (show ∀ k < 8, (decide (k < 8) && testBit 0x04 k) = decide (k = 2) by decide) k h8
    · simp [show ¬ k < 8 by omega, show ¬ k = 2 by omega]
  · simp only [diskOf, hj, if_true]
    exact h.inodeBitmap b j hb hb' hj

end

end Mofs
