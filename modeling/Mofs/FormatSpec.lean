import Mofs.FormatRun

namespace Mofs

open Effect Bytes

theorem decodeSuperblock_congr {f g : Nat → UInt8} (h : ∀ k < superblockBytes, f k = g k) :
    decodeSuperblock f = decodeSuperblock g := by
  have hf (a : Nat) (ha : a + 4 ≤ 36) : leNat f a 4 = leNat g a 4 :=
    leNat_congr fun i hi => h (a + i) (by simp only [superblockBytes]; omega)
  simp [decodeSuperblock, hf]

theorem decodeSuperblock_splice (f : Nat → UInt8) {sb : Superblock} (hmagic : sb.magic = magicNum)
    (h1 : sb.holeBlkNum < 4294967296) (h2 : sb.inodeNum < 4294967296) (h3 : sb.dataBlkNum < 4294967296)
    (h4 : sb.inodeBitmapStart < 4294967296) (h5 : sb.dataBitmapStart < 4294967296)
    (h6 : sb.inodeTableStart < 4294967296) (h7 : sb.dataRegionStart < 4294967296) (h8 : sb.blkSize < 4294967296) :
    decodeSuperblock (splice f 0 (encodeSuperblock sb)) = sb := by
  obtain ⟨magic, hole, inodeNum, dataBlkNum, ibs, dbs, its, drs, blk⟩ := sb
  simp only at hmagic h1 h2 h3 h4 h5 h6 h7 h8
  simp (disch := simp) only [decodeSuperblock, encodeSuperblock, List.append_assoc, leNat_splice_tail, length_leBytes,
    Nat.zero_add, Nat.reduceAdd, leNat_splice_head]
  rw [← List.append_nil (leBytes blk 4), leNat_splice_head]
  simp only [hmagic, Superblock.mk.injEq]
  exact ⟨by decide, Nat.mod_eq_of_lt h1, Nat.mod_eq_of_lt h2, Nat.mod_eq_of_lt h3, Nat.mod_eq_of_lt h4,
    Nat.mod_eq_of_lt h5, Nat.mod_eq_of_lt h6, Nat.mod_eq_of_lt h7, Nat.mod_eq_of_lt h8⟩

@[simp] theorem length_encodeSuperblock (sb : Superblock) : (encodeSuperblock sb).length = superblockBytes := by
  simp [encodeSuperblock, superblockBytes]

/-- What `mofs_format` leaves on the device, region by region. -/
structure Formatted (sb : Superblock) (now : UInt64) (f : Nat → UInt8) : Prop where
  super : decodeSuperblock f = sb
  inodeBitmap : ∀ b k, sb.inodeBitmapStart ≤ b → b < sb.dataBitmapStart → k < sb.blkSize →
    f (b * sb.blkSize + k) = if b = sb.inodeBitmapStart ∧ k = 0 then 0x04 else 0
  dataBitmap : ∀ b k, sb.dataBitmapStart ≤ b → b < sb.inodeTableStart → k < sb.blkSize →
    f (b * sb.blkSize + k) = if b = sb.dataBitmapStart ∧ k = 0 then 0x03 else 0
  table : ∀ b k, sb.inodeTableStart ≤ b → b < sb.dataRegionStart → k < sb.blkSize →
    f (b * sb.blkSize + k) =
      if b = sb.inodeTableStart then splice (fun _ => 0) (2 * inodeBytes) (encodeInode (rootInode sb now)) k else 0
  dir : ∀ k < sb.blkSize, f (sb.dataRegionStart * sb.blkSize + k) = 0
  node : ∀ k < sb.blkSize, f ((sb.dataRegionStart + 1) * sb.blkSize + k) = encodeNode 0 [sb.dataRegionStart] k

/-- The regions of a formatted volume: they fill it, and none of them is empty. -/
structure Regions (sb : Superblock) : Prop extends sb.Laid where
  ibs : sb.inodeBitmapStart = 1
  dbs : sb.inodeBitmapStart < sb.dataBitmapStart
  its : sb.dataBitmapStart < sb.inodeTableStart
  drs : sb.inodeTableStart < sb.dataRegionStart
  full : sb.dataRegionStart + sb.dataBlkNum = sb.holeBlkNum
  data : 0 < sb.dataBlkNum
  magic : sb.magic = magicNum
  inodes : sb.inodeNum ≤ sb.holeBlkNum

theorem geometry_regions {bytes blk k : Nat} (hk : k ≤ 7) (hblk : blk = 512 * 2 ^ k)
    (hfit : (geometry bytes blk).metaReserved < (geometry bytes blk).holeBlkNum)
    (h32 : (geometry bytes blk).holeBlkNum ≤ 4294967295) : Regions ((geometry bytes blk).superblock blk) := by
  have hlo := Nat.one_le_two_pow (n := k)
  have hb : 0 < blk := by omega
  have hhole : (geometry bytes blk).holeBlkNum = bytes / blk := rfl
  have hin := geometry_inodeNum_le hb (show 1 ≤ bytes / blk by omega)
  have hpos : 0 < bytes := by
    rcases Nat.eq_zero_or_pos bytes with h0 | h0
    · have : (geometry bytes blk).holeBlkNum = 0 := by rw [hhole, h0, Nat.zero_div]
      omega
    · exact h0
  have hi : 0 < (geometry bytes blk).inodeNum := Nat.div_pos (by omega) (by omega)
  have h1 : 0 < (geometry bytes blk).inodeBitmapBlkNum := ceil_pos (by omega) hi
  have h2 : 0 < (geometry bytes blk).dataBitmapBlkNum := ceil_pos (by omega) (by omega)
  have h3 : 0 < (geometry bytes blk).inodeTableBlkNum := ceil_pos hb (Nat.mul_pos hi (by decide))
  have hlaid := geometry_laid hk hblk hfit h32
  rw [geometry_superblock hfit hb h32] at hlaid ⊢
  simp only [Geometry.metaReserved] at hfit
  refine ⟨hlaid, rfl, ?_, ?_, ?_, ?_, ?_, rfl, ?_⟩ <;> simp only [Geometry.metaReserved] <;> omega

theorem formatted_of_wrote {sb : Superblock} {now : UInt64} {d d' : Dev} (hr : Regions sb)
    (h : Wrote d (clearWrites sb.blkSize sb.dataRegionStart 0 ++ rootWrites sb now) d') : Formatted sb now d'.bytes := by
  obtain ⟨j, hj7, hj⟩ := hr.blk
  have hj1 := Nat.one_le_two_pow (n := j)
  have hj2 : 2 ^ j ≤ 2 ^ 7 := Nat.pow_le_pow_right (by omega) hj7
  have hB : 512 ≤ sb.blkSize := by omega
  have mono {a b : Nat} (hab : a < b) : a * sb.blkSize + sb.blkSize ≤ b * sb.blkSize := by
    rw [← Nat.succ_mul]; exact Nat.mul_le_mul_right _ hab
  have e1 : sb.inodeBitmapStart * sb.blkSize = sb.blkSize := by rw [hr.ibs, Nat.one_mul]
  have m2 := mono hr.dbs
  have m3 := mono hr.its
  have m4 := mono hr.drs
  have e5 : (sb.dataRegionStart + 1) * sb.blkSize = sb.dataRegionStart * sb.blkSize + sb.blkSize := Nat.succ_mul _ _
  rw [e1] at m2
  -- every byte is that of the last write that covers it
  set f₀ := (clearWrites sb.blkSize sb.dataRegionStart 0).foldl (fun f w => splice f w.1 w.2) d.bytes with hf₀
  have hzero : ∀ k < sb.dataRegionStart * sb.blkSize, f₀ k = 0 := fun k hk => by
    rw [hf₀, foldl_clearWrites, if_pos ⟨by omega, by rw [Nat.zero_add]; exact hk⟩]
  have hbytes := h.bytes
  rw [List.foldl_append, ← hf₀] at hbytes
  simp only [rootWrites, List.foldl_cons, List.foldl_nil, e1, e5] at hbytes
  generalize hA2 : sb.dataBitmapStart * sb.blkSize = A2 at *
  generalize hA3 : sb.inodeTableStart * sb.blkSize = A3 at *
  generalize hA4 : sb.dataRegionStart * sb.blkSize = A4 at *
  have hlen0 : (encodeSuperblock sb).length = 36 := length_encodeSuperblock sb
  have hlenR : (encodeInode (rootInode sb now)).length = 64 := length_encodeInode _
  have h128 : 2 * inodeBytes = 128 := rfl
  have hout : ∀ k, (36 ≤ k ∧ k ≠ sb.blkSize ∧ k ≠ A2 ∧ (k < A3 + 128 ∨ A3 + 192 ≤ k) ∧ k < A4) → d'.bytes k = 0 := by
    rintro k ⟨h0, h1, h2, h3, h4⟩
    rw [hbytes, splice_outside (by omega), splice_outside (by simp; omega), splice_outside (by simp; omega),
      splice_outside (by simp; omega), splice_outside (by simp; omega), splice_outside (by simp; omega),
      splice_outside (by omega), hzero k h4]
  have hone (f : Nat → UInt8) (o : Nat) (x : UInt8) : splice f o [x] o = x := by simp [splice]
  constructor
  · have hsb : ∀ k < superblockBytes, d'.bytes k = splice f₀ 0 (encodeSuperblock sb) k := fun k hk => by
      simp only [superblockBytes] at hk
      rw [hbytes, splice_outside (by omega), splice_outside (by simp; omega), splice_outside (by simp; omega),
        splice_outside (by simp; omega), splice_outside (by simp; omega), splice_outside (by simp; omega)]
    rw [decodeSuperblock_congr hsb]
    have := hr.full
    have := hr.hole_lt
    have := hr.drs
    have := hr.its
    have := hr.dbs
    have := hr.inodes
    exact decodeSuperblock_splice _ hr.magic (by omega) (by omega) (by omega) (by omega) (by omega) (by omega) (by omega)
      (by omega)
  · intro b k hlo hhi hk
    have hb := mono hhi
    rw [hA2] at hb
    have hge : sb.blkSize ≤ b * sb.blkSize := by
      have := Nat.mul_le_mul_right sb.blkSize hlo
      rwa [e1] at this
    by_cases hc : b = sb.inodeBitmapStart ∧ k = 0
    · rw [if_pos hc, hc.1, hc.2, e1, Nat.add_zero, hbytes, splice_outside (by omega), splice_outside (by simp; omega),
        splice_outside (by simp; omega), splice_outside (by simp; omega), splice_outside (by simp; omega), hone]
    · rw [if_neg hc]
      refine hout _ ⟨by omega, ?_, by omega, by omega, by omega⟩
      intro heq
      by_cases hb1 : b = sb.inodeBitmapStart
      · exact hc ⟨hb1, by rw [hb1, e1] at heq; omega⟩
      · have := mono (Nat.lt_of_le_of_ne hlo (Ne.symm hb1))
        rw [e1] at this
        omega
  · intro b k hlo hhi hk
    have hb := mono hhi
    rw [hA3] at hb
    have hge := Nat.mul_le_mul_right sb.blkSize hlo
    rw [hA2] at hge
    by_cases hc : b = sb.dataBitmapStart ∧ k = 0
    · rw [if_pos hc, hc.1, hc.2, hA2, Nat.add_zero, hbytes, splice_outside (by omega), splice_outside (by simp; omega),
        splice_outside (by simp; omega), splice_outside (by simp; omega), hone]
    · rw [if_neg hc]
      refine hout _ ⟨by omega, by omega, ?_, by omega, by omega⟩
      intro heq
      by_cases hb1 : b = sb.dataBitmapStart
      · exact hc ⟨hb1, by rw [hb1, hA2] at heq; omega⟩
      · have := mono (Nat.lt_of_le_of_ne hlo (Ne.symm hb1))
        rw [hA2] at this
        omega
  · intro b k hlo hhi hk
    have hb := mono hhi
    rw [hA4] at hb
    have hge := Nat.mul_le_mul_right sb.blkSize hlo
    rw [hA3] at hge
    by_cases hc : b = sb.inodeTableStart
    · rw [if_pos hc, hc, hA3]
      by_cases hin : 128 ≤ k ∧ k < 192
      · obtain ⟨i, rfl⟩ := Nat.exists_eq_add_of_le hin.1
        have hi : i < (encodeInode (rootInode sb now)).length := by omega
        rw [h128, splice_inside hi, hbytes, h128, ← Nat.add_assoc, splice_inside hi]
      · rw [h128, splice_outside (by omega)]
        exact hout _ ⟨by omega, by omega, by omega, by omega, by omega⟩
    · rw [if_neg hc]
      have := mono (Nat.lt_of_le_of_ne hlo (Ne.symm hc))
      rw [hA3] at this
      exact hout _ ⟨by omega, by omega, by omega, by omega, by omega⟩
  · intro k hk
    rw [hA4, hbytes, splice_outside (by omega), splice_outside (by simp; omega), splice_outside (by simp; omega),
      splice_inside (by simpa using hk), List.getElem_replicate]
  · intro k hk
    rw [e5, hbytes, splice_outside (by omega), splice_inside (by simpa using hk), getElem_slice, Nat.zero_add]

end Mofs
