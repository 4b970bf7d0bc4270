import Mofs.FormatLayout
import Mofs.Mount

namespace Mofs

open Effect Bytes

variable {sb : Superblock} {e : Env}

/-- What an inode read returns. -/
def inodeAt (e : Env) (sb : Superblock) (t : Disk) (i : Nat) : Option (Except Errno Inode) :=
  (exec e (mofsReadInode sb i) t).map Prod.fst

/-- The inodes other than `i` read as before, and every block outside the inode table is as before. -/
structure TableFrame (e : Env) (sb : Superblock) (i : Nat) (t t' : Disk) : Prop where
  others : ∀ j, j < sb.inodeNum → j < 2147483648 → j ≠ i → inodeAt e sb t' j = inodeAt e sb t j
  outside : ∀ b, b < sb.inodeTableStart ∨ sb.dataRegionStart ≤ b → t'.blk b = t.blk b

/-- The inode table is an array: each inode number that an `int` can hold has its own 64 bytes, a write is seen by
the reads of that inode alone, and a stamp replaces the selected times only. -/
structure TableArray (e : Env) (sb : Superblock) : Prop where
  position : ∀ i, i < sb.inodeNum → i < 2147483648 →
    inodeByte i = (i : Int) * 64 ∧ inodeBlk sb i = sb.tableBlk i ∧ inodeOffset sb i = i * 64 % sb.blkSize
  write : ∀ i x t, i < sb.inodeNum → i < 2147483648 →
    ∃ t', exec e (mofsWriteInode sb i x) t = some (.ok (), t') ∧ inodeAt e sb t' i = some (.ok x) ∧ TableFrame e sb i t t'
  stamp : ∀ i mask t, i < sb.inodeNum → i < 2147483648 → mask ≠ 0 →
    ∃ t' x now, exec e (mofsInodeStampPersist sb i mask) t = some (.ok (), t') ∧ inodeAt e sb t i = some (.ok x) ∧
      inodeAt e sb t' i = some (.ok (x.stamp mask now)) ∧ TableFrame e sb i t t'
  stampNone : ∀ i t, exec e (mofsInodeStampPersist sb i 0) t = some (.error .einval, t)

theorem View.setInode_inode (V : View) (i : Nat) (x : Inode) :
    (V.setInode i x).inode = Function.update V.inode i x := rfl

theorem inodeAt_eq (hl : sb.Laid) (hs : e.Serves sb) (t : Disk) {i : Nat} (hi : i < sb.inodeNum) (h25 : i < 33554432) :
    inodeAt e sb t i = some (.ok ((sb.view t).inode i)) := by
  rw [inodeAt, exec_readInode_view hl hs hi h25]
  rfl

/-- A change of one inode in the view leaves the rest of the table and the rest of the volume alone. -/
theorem tableFrame_of_view (hl : sb.Laid) (hs : e.Serves sb) (h25 : sb.inodeNum ≤ 33554432) {i : Nat} {x : Inode}
    {t t' : Disk} (hi : i < sb.inodeNum) (hv : sb.view t' = (sb.view t).setInode i x)
    (hb : ∀ b, b ≠ sb.tableBlk i → t'.blk b = t.blk b) :
    inodeAt e sb t' i = some (.ok x) ∧ TableFrame e sb i t t' := by
  refine ⟨?_, ?_, ?_⟩
  · rw [inodeAt_eq hl hs t' hi (by omega), hv, View.setInode_inode, Function.update_self]
  · intro j hj _ hji
    rw [inodeAt_eq hl hs t' hj (by omega), inodeAt_eq hl hs t hj (by omega), hv, View.setInode_inode,
      Function.update_of_ne hji]
  · intro b hout
    have hlt := hl.tableBlk_lt hi
    have hge : sb.inodeTableStart ≤ sb.tableBlk i := Nat.le_add_right _ _
    exact hb b (by omega)

theorem tableArray_of_le (hl : sb.Laid) (hs : e.Serves sb) (h25 : sb.inodeNum ≤ 33554432) : TableArray e sb where
  position i hi _ := ⟨inodeByte_eq (by omega), hl.inodeBlk_eq hi (by omega), inodeOffset_eq sb (by omega)⟩
  write i x t hi _ := by
    obtain ⟨t', hw, hv, hb⟩ := exec_writeInode_view hl hs hi (by omega) t x
    exact ⟨t', hw, tableFrame_of_view hl hs h25 hi hv hb⟩
  stamp i mask t hi _ hm := by
    obtain ⟨t', hw, hv, hb⟩ := exec_stampPersist_view hl hs hi (by omega) t hm
    obtain ⟨hat, hframe⟩ := tableFrame_of_view hl hs h25 hi hv hb
    exact ⟨t', _, _, hw, inodeAt_eq hl hs t hi (by omega), hat, hframe⟩
  stampNone i t := by
    rw [mofsInodeStampPersist, if_pos (by tauto)]
    rfl

/-- The `int` product `inode_num * sizeof(mofs_inode_t)` is the byte position of the inode as long as the table has
at most `2 ^ 25` inodes. The first inode beyond them has a negative position. -/
theorem tableArray_iff (hsb : sb.FromFormat) (hs : e.Serves sb) : TableArray e sb ↔ sb.inodeNum ≤ 33554432 := by
  refine ⟨fun h => ?_, tableArray_of_le hsb.laid hs⟩
  by_contra hgt
  obtain ⟨hpos, -⟩ := h.position 33554432 (by omega) (by decide)
  exact absurd hpos (by decide)

theorem tableArray_iff_sixteen : ((geometry (16 * 512) 512).superblock 512).FromFormat ∧
    Env.Serves ⟨512, 8192, false, fun _ => none, fun _ => 0⟩ ((geometry (16 * 512) 512).superblock 512) ∧
    TableArray ⟨512, 8192, false, fun _ => none, fun _ => 0⟩ ((geometry (16 * 512) 512).superblock 512) := by
  have hsb := fromFormat_blankDev (show 8 < 16 by decide) (by decide)
  have hs : Env.Serves ⟨512, 8192, false, fun _ => none, fun _ => 0⟩ ((geometry (16 * 512) 512).superblock 512) :=
    ⟨rfl, by decide⟩
  exact ⟨hsb, hs, (tableArray_iff hsb hs).mpr (by decide)⟩

/-- The position of inode `2 ^ 26` wraps around to that of inode 0. -/
theorem mofsWriteInode_wrap (hn : 67108864 < sb.inodeNum) (x : Inode) :
    mofsWriteInode sb 67108864 x = mofsWriteInode sb 0 x := by
  have hbyte : inodeByte 67108864 = inodeByte 0 := by decide
  have hneg : ¬ (isNeg 67108864 ∨ sb.inodeNum ≤ 67108864) := by
    unfold isNeg
    omega
  have hneg' : ¬ (isNeg 0 ∨ sb.inodeNum ≤ 0) := by
    unfold isNeg
    omega
  rw [mofsWriteInode, mofsWriteInode, if_neg hneg, if_neg hneg', inodeBlk, inodeOffset, hbyte]
  rfl

/-- On a formatted volume of 268435460 blocks of 512 bytes, writing inode 67108864 returns 0 and replaces inode 0. -/
theorem write_replaces_inode_zero : ∃ (sb : Superblock) (e : Env) (t t' : Disk) (x : Inode), sb.FromFormat ∧ e.Serves sb ∧
    67108864 < sb.inodeNum ∧ exec e (mofsWriteInode sb 67108864 x) t = some (.ok (), t') ∧
    inodeAt e sb t 0 = some (.ok Inode.zero) ∧ inodeAt e sb t' 0 = some (.ok x) ∧ x ≠ Inode.zero := by
  have hsb := fromFormat_blankDev (show 8 < 268435460 by decide) (by decide)
  have hs : Env.Serves ⟨512, 268435460 * 512, false, fun _ => none, fun _ => 0⟩
      ((geometry (268435460 * 512) 512).superblock 512) := ⟨rfl, by decide⟩
  have hn : 67108864 < ((geometry (268435460 * 512) 512).superblock 512).inodeNum := by decide
  have h0 : 0 < ((geometry (268435460 * 512) 512).superblock 512).inodeNum := by decide
  obtain ⟨t', hw, hv, -⟩ := exec_writeInode_view hsb.laid hs h0 (by decide) ⟨fun _ _ => 0, 0, 0⟩
    { Inode.zero with iUid := 1 }
  refine ⟨_, _, ⟨fun _ _ => 0, 0, 0⟩, t', { Inode.zero with iUid := 1 }, hsb, hs, hn, ?_, ?_, ?_, ?_⟩
  · rw [mofsWriteInode_wrap hn]
    exact hw
  · rw [inodeAt_eq hsb.laid hs _ h0 (by decide)]
    simp only [Superblock.view, if_pos h0]
    rfl
  · rw [inodeAt_eq hsb.laid hs _ h0 (by decide), hv, View.setInode_inode, Function.update_self]
  · intro hx
    exact absurd (congrArg Inode.iUid hx) (by decide)

end Mofs
