import Mofs.Block

namespace Mofs

open Effect Bytes

/-- The layout alone: the regions follow one another inside the volume, each large enough for what it indexes. -/
structure Superblock.Laid (sb : Superblock) : Prop where
  blk : ∃ k ≤ 7, sb.blkSize = 512 * 2 ^ k
  start_pos : 0 < sb.inodeBitmapStart
  inodeBitmap : sb.inodeNum ≤ (sb.dataBitmapStart - sb.inodeBitmapStart) * (sb.blkSize * 8)
  bitmaps : sb.inodeBitmapStart ≤ sb.dataBitmapStart
  inodeBits : (sb.dataBitmapStart - sb.inodeBitmapStart) * (sb.blkSize * 8) ≤ 4294967296
  dataBitmap : sb.dataBlkNum ≤ (sb.inodeTableStart - sb.dataBitmapStart) * (sb.blkSize * 8)
  table_ge : sb.dataBitmapStart ≤ sb.inodeTableStart
  dataBits : (sb.inodeTableStart - sb.dataBitmapStart) * (sb.blkSize * 8) ≤ 4294967296
  inodeTable : sb.inodeNum * 64 ≤ (sb.dataRegionStart - sb.inodeTableStart) * sb.blkSize
  data_ge : sb.inodeTableStart ≤ sb.dataRegionStart
  hole : sb.dataRegionStart + sb.dataBlkNum ≤ sb.holeBlkNum
  hole_lt : sb.holeBlkNum < 4294967296

/-- The layout `mofs_format` writes and the core relies on, with few enough inodes for their offsets to stay within an `int`. -/
structure Superblock.Ok (sb : Superblock) : Prop extends sb.Laid where
  inodes_lt : sb.inodeNum < 33554432

/-- The environment serves the volume: same block size, every block of the volume on the device. -/
structure Env.Serves (e : Env) (sb : Superblock) : Prop where
  blk : e.blkSize = sb.blkSize
  size : sb.holeBlkNum * sb.blkSize ≤ e.size

/-- A volume as its regions: the inode table, the two bitmaps and the data blocks by absolute number. -/
@[ext] structure View where
  inode : Nat → Inode
  ibit : Nat → Bool
  dbit : Nat → Bool
  blk : Nat → Block

namespace View

def setInode (V : View) (i : Nat) (x : Inode) : View := { V with inode := Function.update V.inode i x }
def setIbit (V : View) (i : Nat) (u : Bool) : View := { V with ibit := Function.update V.ibit i u }
def setDbit (V : View) (k : Nat) (u : Bool) : View := { V with dbit := Function.update V.dbit k u }
def setBlk (V : View) (b : Nat) (x : Block) : View := { V with blk := Function.update V.blk b x }

end View

variable {e : Env} {sb : Superblock} {d : Disk} {V : View} {α β : Type}

def Superblock.inData (sb : Superblock) (b : Nat) : Prop :=
  sb.dataRegionStart ≤ b ∧ b < sb.dataRegionStart + sb.dataBlkNum

instance (sb : Superblock) (b : Nat) : Decidable (sb.inData b) := by unfold Superblock.inData; infer_instance

theorem Superblock.inData.idx_lt {sb : Superblock} {b : Nat} (h : sb.inData b) : b - sb.dataRegionStart < sb.dataBlkNum := by
  have := h.1
  have := h.2
  omega

/-- The block of the bitmap at `start` that holds bit `k`. -/
def bitBlk (blkSize start k : Nat) : Nat := start + k / (blkSize * 8)

def bitmapBit (blk : Nat → Block) (blkSize start k : Nat) : Bool :=
  testBit (blk (bitBlk blkSize start k) (k % (blkSize * 8) / 8)) (k % (blkSize * 8) % 8)

/-- The block of the inode table that holds inode `i`. -/
def Superblock.tableBlk (sb : Superblock) (i : Nat) : Nat := sb.inodeTableStart + i * 64 / sb.blkSize

def Superblock.view (sb : Superblock) (d : Disk) : View where
  inode i := if i < sb.inodeNum then decodeInode (d.blk (sb.tableBlk i)) (i * 64 % sb.blkSize)
    else Inode.zero
  ibit i := i < sb.inodeNum && bitmapBit d.blk sb.blkSize sb.inodeBitmapStart i
  dbit k := k < sb.dataBlkNum && bitmapBit d.blk sb.blkSize sb.dataBitmapStart k
  blk b := if sb.inData b then d.blk b else fun _ => 0

theorem le_bitBlk (blkSize start k : Nat) : start ≤ bitBlk blkSize start k := Nat.le_add_right _ _

theorem le_tableBlk (sb : Superblock) (i : Nat) : sb.inodeTableStart ≤ sb.tableBlk i := Nat.le_add_right _ _

/-- Up to inode `2^25 - 1` the byte offset of an inode in its table is an `int`. -/
theorem inodeByte_eq {i : Nat} (h25 : i < 33554432) : inodeByte i = ((i * 64 : Nat) : Int) := by
  rw [inodeByte, u32, Nat.mod_eq_of_lt (by omega), if_pos (by omega)]

theorem inodeOffset_eq {i : Nat} (sb : Superblock) (h25 : i < 33554432) : inodeOffset sb i = i * 64 % sb.blkSize := by
  rw [inodeOffset, inodeByte_eq h25, ← Int.ofNat_tmod, Int.toNat_natCast]

namespace Superblock.Laid

theorem blk_pos (h : sb.Laid) : 0 < sb.blkSize := by
  obtain ⟨k, -, hk⟩ := h.blk
  have := Nat.one_le_two_pow (n := k)
  omega

theorem blk_ge (h : sb.Laid) : 512 ≤ sb.blkSize := by
  obtain ⟨k, -, hk⟩ := h.blk
  have := Nat.one_le_two_pow (n := k)
  omega

theorem blk_le (h : sb.Laid) : sb.blkSize ≤ 65536 := by
  obtain ⟨k, hk7, hk⟩ := h.blk
  have : 2 ^ k ≤ 2 ^ 7 := Nat.pow_le_pow_right (by omega) hk7
  omega

theorem blk_dvd (h : sb.Laid) : 512 ∣ sb.blkSize := by
  obtain ⟨k, -, hk⟩ := h.blk
  exact ⟨2 ^ k, hk⟩

theorem tableBlk_lt (h : sb.Laid) {i : Nat} (hi : i < sb.inodeNum) : sb.tableBlk i < sb.dataRegionStart := by
  apply Nat.add_lt_of_lt_sub'
  rw [Nat.div_lt_iff_lt_mul h.blk_pos]
  exact lt_of_lt_of_le (by omega) h.inodeTable

theorem ibitBlk_lt (h : sb.Laid) {i : Nat} (hi : i < sb.inodeNum) :
    bitBlk sb.blkSize sb.inodeBitmapStart i < sb.dataBitmapStart := by
  apply Nat.add_lt_of_lt_sub'
  rw [Nat.div_lt_iff_lt_mul (by have := h.blk_pos; omega)]
  exact lt_of_lt_of_le hi h.inodeBitmap

theorem dbitBlk_lt (h : sb.Laid) {k : Nat} (hk : k < sb.dataBlkNum) :
    bitBlk sb.blkSize sb.dataBitmapStart k < sb.inodeTableStart := by
  apply Nat.add_lt_of_lt_sub'
  rw [Nat.div_lt_iff_lt_mul (by have := h.blk_pos; omega)]
  exact lt_of_lt_of_le hk h.dataBitmap

theorem inodeBlk_eq (h : sb.Laid) {i : Nat} (hi : i < sb.inodeNum) (h25 : i < 33554432) : inodeBlk sb i = sb.tableBlk i := by
  have hb := h.tableBlk_lt hi
  have h32 := h.hole
  have h33 := h.hole_lt
  rw [inodeBlk, inodeByte_eq h25, ← Int.ofNat_tdiv]
  rw [Superblock.tableBlk] at hb ⊢
  generalize i * 64 / sb.blkSize = q at *
  omega

theorem inode_fits (h : sb.Laid) (i : Nat) : i * 64 % sb.blkSize + 64 ≤ sb.blkSize := by
  obtain ⟨q, hq⟩ := h.blk_dvd
  have hs : sb.blkSize = 64 * (8 * q) := by omega
  have hq0 : 0 < 8 * q := by have := h.blk_pos; omega
  rw [hs, Nat.mul_comm i 64, Nat.mul_mod_mul_left]
  have := Nat.mod_lt i hq0
  omega

/-- Two inodes never share bytes of one table block. -/
theorem inode_apart (h : sb.Laid) {i j : Nat} (hne : i ≠ j) (hb : i * 64 / sb.blkSize = j * 64 / sb.blkSize) :
    i * 64 % sb.blkSize + 64 ≤ j * 64 % sb.blkSize ∨ j * 64 % sb.blkSize + 64 ≤ i * 64 % sb.blkSize := by
  obtain ⟨q, hq⟩ := h.blk_dvd
  have hs : sb.blkSize = 64 * (8 * q) := by omega
  rw [hs] at hb ⊢
  rw [Nat.mul_comm i, Nat.mul_comm j, Nat.mul_div_mul_left _ _ (by omega), Nat.mul_div_mul_left _ _ (by omega)] at hb
  rw [Nat.mul_comm i, Nat.mul_comm j, Nat.mul_mod_mul_left, Nat.mul_mod_mul_left]
  have hmod : i % (8 * q) ≠ j % (8 * q) := by
    intro hm
    apply hne
    rw [← Nat.div_add_mod i (8 * q), ← Nat.div_add_mod j (8 * q), hb, hm]
  omega

end Superblock.Laid

namespace Superblock.Ok

theorem inodeBlk_eq (h : sb.Ok) {i : Nat} (hi : i < sb.inodeNum) : inodeBlk sb i = sb.tableBlk i :=
  h.toLaid.inodeBlk_eq hi (hi.trans h.inodes_lt)

theorem inodeOffset_eq (h : sb.Ok) {i : Nat} (hi : i < sb.inodeNum) : inodeOffset sb i = i * 64 % sb.blkSize :=
  Mofs.inodeOffset_eq sb (hi.trans h.inodes_lt)

end Superblock.Ok

theorem bitmapPut_bit (buf : Block) {byte bit byte' bit' : Nat} (u : Bool) (h : bit < 8) (h' : bit' < 8) :
    testBit (bitmapPut buf byte bit u byte') bit' =
      if byte' = byte ∧ bit' = bit then u else testBit (buf byte') bit' := by
  by_cases hb : byte' = byte
  · subst hb
    cases u <;> by_cases hj : bit' = bit <;>
      simp [bitmapPut, testBit_setBit, testBit_clearBit, h, h', hj]
  · simp [bitmapPut, hb]

theorem bitmapBit_put (blk : Nat → Block) {size start k j : Nat} (u : Bool) :
    bitmapBit (Function.update blk (bitBlk size start k) (bitmapPut (blk (bitBlk size start k))
      (k % (size * 8) / 8) (k % (size * 8) % 8) u)) size start j =
      if j = k then u else bitmapBit blk size start j := by
  rw [bitmapBit]
  by_cases hb : j / (size * 8) = k / (size * 8)
  · have hbb : bitBlk size start j = bitBlk size start k := by rw [bitBlk, bitBlk, hb]
    rw [hbb, Function.update_self, bitmapPut_bit _ _ (by omega) (by omega)]
    by_cases hjk : j = k
    · simp [hjk]
    · have hm : j % (size * 8) ≠ k % (size * 8) := by
        intro hm
        apply hjk
        rw [← Nat.div_add_mod j (size * 8), ← Nat.div_add_mod k (size * 8), hb, hm]
      rw [if_neg (by omega), if_neg hjk, bitmapBit, hbb]
  · have hjk : j ≠ k := by rintro rfl; exact hb rfl
    rw [Function.update_of_ne (by simp [bitBlk, hb]), if_neg hjk, bitmapBit]

theorem bitmapBit_update_of_ne (blk : Nat → Block) {size start b j : Nat} (x : Block)
    (h : bitBlk size start j ≠ b) : bitmapBit (Function.update blk b x) size start j = bitmapBit blk size start j := by
  rw [bitmapBit, Function.update_of_ne h, bitmapBit]

/-- A write outside a region leaves that part of the view alone. -/
theorem view_put (h : sb.Laid) (d : Disk) (b : Nat) (x : Block) :
    (b < sb.inodeTableStart → (sb.view (d.put b x)).inode = (sb.view d).inode) ∧
    (sb.dataBitmapStart ≤ b → (sb.view (d.put b x)).ibit = (sb.view d).ibit) ∧
    (b < sb.dataBitmapStart ∨ sb.inodeTableStart ≤ b → (sb.view (d.put b x)).dbit = (sb.view d).dbit) ∧
    (b < sb.dataRegionStart → (sb.view (d.put b x)).blk = (sb.view d).blk) ∧
    (sb.dataRegionStart ≤ b → (sb.view (d.put b x)).inode = (sb.view d).inode) := by
  refine ⟨fun hb => ?_, fun hb => ?_, fun hb => ?_, fun hb => ?_, fun hb => ?_⟩ <;> funext j
  · have := le_tableBlk sb j
    simp only [Superblock.view, Disk.put]
    split
    · rw [Function.update_of_ne (by omega)]
    · rfl
  · by_cases hj : j < sb.inodeNum
    · have := h.ibitBlk_lt hj
      simp only [Superblock.view, Disk.put]
      rw [bitmapBit_update_of_ne _ _ (by omega)]
    · simp [Superblock.view, hj]
  · by_cases hj : j < sb.dataBlkNum
    · have := h.dbitBlk_lt hj
      have := le_bitBlk sb.blkSize sb.dataBitmapStart j
      simp only [Superblock.view, Disk.put]
      rw [bitmapBit_update_of_ne _ _ (by rcases hb with hb | hb <;> omega)]
    · simp [Superblock.view, hj]
  · simp only [Superblock.view, Disk.put]
    split
    · rename_i hj
      have := hj.1
      rw [Function.update_of_ne (by omega)]
    · rfl
  · simp only [Superblock.view, Disk.put]
    split
    · have := h.tableBlk_lt ‹_›
      rw [Function.update_of_ne (by omega)]
    · rfl

theorem view_put_inode (h : sb.Laid) (d : Disk) {i : Nat} (hi : i < sb.inodeNum) (x : Inode) :
    sb.view (d.put (sb.tableBlk i)
      (splice (d.blk (sb.tableBlk i)) (i * 64 % sb.blkSize) (encodeInode x))) =
      (sb.view d).setInode i x := by
  have hlt := h.tableBlk_lt hi
  have hle := le_tableBlk sb i
  obtain ⟨-, hib, hdb, hbk, -⟩ := view_put h d (sb.tableBlk i)
    (splice (d.blk (sb.tableBlk i)) (i * 64 % sb.blkSize) (encodeInode x))
  have hge := h.table_ge
  refine View.ext ?_ (hib (by omega)) (hdb (by omega)) (hbk hlt)
  funext j
  by_cases hij : j = i
  · subst hij
    simp [Superblock.view, Disk.put, View.setInode, hi, decodeInode_splice]
  · simp only [Superblock.view, Disk.put, View.setInode, Function.update_of_ne hij]
    split
    · by_cases hb : j * 64 / sb.blkSize = i * 64 / sb.blkSize
      · have hbb : sb.tableBlk j = sb.tableBlk i := by rw [Superblock.tableBlk, hb, Superblock.tableBlk]
        rw [hbb, Function.update_self, decodeInode_splice_outside]
        have := h.inode_apart hij hb
        simp only [length_encodeInode, inodeBytes]
        omega
      · rw [Function.update_of_ne (by simp [Superblock.tableBlk, hb])]
    · rfl

theorem view_put_ibit (h : sb.Laid) (d : Disk) {i : Nat} (hi : i < sb.inodeNum) (u : Bool) :
    sb.view (d.put (bitBlk sb.blkSize sb.inodeBitmapStart i)
      (bitmapPut (d.blk (bitBlk sb.blkSize sb.inodeBitmapStart i)) (i % (sb.blkSize * 8) / 8)
        (i % (sb.blkSize * 8) % 8) u)) = (sb.view d).setIbit i u := by
  have hlt := h.ibitBlk_lt hi
  have hge := h.table_ge
  have hge' := h.data_ge
  obtain ⟨hin, -, hdb, hbk, -⟩ := view_put h d (bitBlk sb.blkSize sb.inodeBitmapStart i)
    (bitmapPut (d.blk (bitBlk sb.blkSize sb.inodeBitmapStart i)) (i % (sb.blkSize * 8) / 8)
      (i % (sb.blkSize * 8) % 8) u)
  refine View.ext (hin (by omega)) ?_ (hdb (by omega)) (hbk (by omega))
  funext j
  simp only [Superblock.view, Disk.put, View.setIbit, bitmapBit_put, Function.update_apply]
  by_cases hij : j = i <;> simp [hij, hi]

theorem view_put_dbit (h : sb.Laid) (d : Disk) {k : Nat} (hk : k < sb.dataBlkNum) (u : Bool) :
    sb.view (d.put (bitBlk sb.blkSize sb.dataBitmapStart k)
      (bitmapPut (d.blk (bitBlk sb.blkSize sb.dataBitmapStart k)) (k % (sb.blkSize * 8) / 8)
        (k % (sb.blkSize * 8) % 8) u)) = (sb.view d).setDbit k u := by
  have hlt := h.dbitBlk_lt hk
  have hle := le_bitBlk sb.blkSize sb.dataBitmapStart k
  have hge' := h.data_ge
  obtain ⟨hin, hib, -, hbk, -⟩ := view_put h d (bitBlk sb.blkSize sb.dataBitmapStart k)
    (bitmapPut (d.blk (bitBlk sb.blkSize sb.dataBitmapStart k)) (k % (sb.blkSize * 8) / 8)
      (k % (sb.blkSize * 8) % 8) u)
  refine View.ext (hin (by omega)) (hib (by omega)) ?_ (hbk (by omega))
  funext j
  simp only [Superblock.view, Disk.put, View.setDbit, bitmapBit_put, Function.update_apply]
  by_cases hjk : j = k <;> simp [hjk, hk]

theorem view_put_data (h : sb.Laid) (d : Disk) {b : Nat} (hb : sb.inData b) (x : Block) :
    sb.view (d.put b x) = (sb.view d).setBlk b x := by
  have hge := h.data_ge
  have hge' := h.table_ge
  obtain ⟨-, hib, hdb, -, hin⟩ := view_put h d b x
  refine View.ext (hin hb.1) (hib (by have := hb.1; omega)) (hdb (by have := hb.1; omega)) ?_
  funext c
  simp only [Superblock.view, Disk.put, View.setBlk, Function.update_apply]
  by_cases hc : c = b <;> simp [hc, hb]

end Mofs
