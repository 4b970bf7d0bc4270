import Mofs.Format
import Mofs.View

namespace Mofs

open Bytes

theorem validate_ok {blk : Nat} (h : validateLogicalBlkSize blk = .ok ()) : ∃ k ≤ 7, blk = 512 * 2 ^ k := by
  rw [validateLogicalBlkSize] at h
  split at h
  · cases h
  · rename_i hr
    split at h
    · cases h
    · rename_i hp
      obtain ⟨n, hn⟩ := (Nat.and_sub_one_eq_zero_iff_isPowerOfTwo (by omega)).mp (not_not.mp hp)
      have h9 : 2 ^ 9 ≤ 2 ^ n := by rw [← hn]; omega
      have h16 : 2 ^ n ≤ 2 ^ 16 := by rw [← hn]; omega
      have h9' := (Nat.pow_le_pow_iff_right (by omega)).mp h9
      have h16' := (Nat.pow_le_pow_iff_right (by omega)).mp h16
      refine ⟨n - 9, by omega, ?_⟩
      rw [hn, show (512 : Nat) = 2 ^ 9 by rfl, ← Nat.pow_add, Nat.add_sub_cancel' h9']

theorem validate_of_pow {blk k : Nat} (hk : k ≤ 7) (h : blk = 512 * 2 ^ k) : validateLogicalBlkSize blk = .ok () := by
  have hlo := Nat.one_le_two_pow (n := k)
  have hhi : 2 ^ k ≤ 2 ^ 7 := Nat.pow_le_pow_right (by omega) hk
  rw [validateLogicalBlkSize, if_neg (by omega), if_neg]
  rw [not_not, Nat.and_sub_one_eq_zero_iff_isPowerOfTwo (by omega)]
  exact ⟨9 + k, by rw [h, Nat.pow_add]⟩

section

variable {bytes blk k : Nat}

theorem geometry_inodeNum_le (hb : 0 < blk) (hole : 1 ≤ bytes / blk) :
    (geometry bytes blk).inodeNum ≤ (geometry bytes blk).holeBlkNum := by
  have h1 := Nat.div_add_mod bytes blk
  have h2 := Nat.mod_lt bytes hb
  have hc : blk * (bytes / blk) = bytes / blk * blk := Nat.mul_comm _ _
  have hle : blk ≤ bytes / blk * blk := Nat.le_mul_of_pos_left blk hole
  have h := ceil_le_of_le_mul (n := bytes) (c := bytes / blk) (w := blk * 4) (by omega)
    (by rw [← Nat.mul_assoc]; omega)
  simp only [geometry]
  rwa [← Nat.add_sub_assoc (by omega)]

/-- The superblock fields of a layout that fits: no field is cut to 32 bits. -/
theorem geometry_superblock (hfit : (geometry bytes blk).metaReserved < (geometry bytes blk).holeBlkNum)
    (hb : 0 < blk) (h32 : (geometry bytes blk).holeBlkNum ≤ 4294967295) :
    (geometry bytes blk).superblock blk =
      { magic := magicNum
        holeBlkNum := (geometry bytes blk).holeBlkNum
        inodeNum := (geometry bytes blk).inodeNum
        dataBlkNum := (geometry bytes blk).holeBlkNum - (geometry bytes blk).metaReserved
        inodeBitmapStart := 1
        dataBitmapStart := 1 + (geometry bytes blk).inodeBitmapBlkNum
        inodeTableStart := 1 + (geometry bytes blk).inodeBitmapBlkNum + (geometry bytes blk).dataBitmapBlkNum
        dataRegionStart := (geometry bytes blk).metaReserved
        blkSize := blk } := by
  have hhole : (geometry bytes blk).holeBlkNum = bytes / blk := rfl
  have hin := geometry_inodeNum_le hb (show 1 ≤ bytes / blk by omega)
  simp only [Geometry.superblock, Geometry.metaReserved, u32] at hfit ⊢
  have hm (n : Nat) (hn : n < 4294967296) : n % 4294967296 = n := Nat.mod_eq_of_lt hn
  rw [hm _ (by omega), hm (geometry bytes blk).inodeNum (by omega), hm _ (by omega),
    hm (1 + (geometry bytes blk).inodeBitmapBlkNum) (by omega), hm _ (by omega), hm _ (by omega)]

theorem geometry_laid (hk : k ≤ 7) (hblk : blk = 512 * 2 ^ k)
    (hfit : (geometry bytes blk).metaReserved < (geometry bytes blk).holeBlkNum)
    (h32 : (geometry bytes blk).holeBlkNum ≤ 4294967295) : ((geometry bytes blk).superblock blk).Laid := by
  have hlo := Nat.one_le_two_pow (n := k)
  have hb : 0 < blk := by omega
  have hhole : (geometry bytes blk).holeBlkNum = bytes / blk := rfl
  have hin := geometry_inodeNum_le hb (show 1 ≤ bytes / blk by omega)
  rw [geometry_superblock hfit hb h32]
  -- a bitmap block holds a power of two of bits, so whole blocks of them never pass 2 ^ 32
  have hdvd : blk * 8 ∣ 4294967296 := ⟨2 ^ (20 - k), by
    rw [hblk, show (512 : Nat) = 2 ^ 9 by rfl, show (8 : Nat) = 2 ^ 3 by rfl, ← Nat.pow_add, ← Nat.pow_add, ← Nat.pow_add,
      show 9 + k + 3 + (20 - k) = 32 by omega]⟩
  have hbits {n : Nat} (hn : n ≤ 4294967296) : (n + blk * 8 - 1) / (blk * 8) * (blk * 8) ≤ 4294967296 := by
    obtain ⟨c, hc⟩ := hdvd
    have := ceil_le_of_le_mul (n := n) (c := c) (w := blk * 8) (by omega) (by rw [Nat.mul_comm]; omega)
    exact (Nat.mul_le_mul_right _ this).trans (by rw [Nat.mul_comm]; omega)
  constructor
  · exact ⟨k, hk, hblk⟩
  · exact Nat.one_pos
  · simp only [Nat.add_sub_cancel_left]
    exact le_ceil_mul _ (by omega)
  · exact Nat.le_add_right _ _
  · simp only [Nat.add_sub_cancel_left]
    exact hbits (hin.trans (by omega))
  · simp only [Nat.add_sub_cancel_left]
    exact (Nat.sub_le _ _).trans (le_ceil_mul _ (by omega))
  · exact Nat.le_add_right _ _
  · simp only [Nat.add_sub_cancel_left]
    exact hbits (h32.trans (by omega))
  · simp only [Geometry.metaReserved, Nat.add_sub_cancel_left]
    exact le_ceil_mul _ hb
  · exact Nat.le_add_right _ _
  · simp only
    omega
  · simp only
    omega

end

end Mofs
