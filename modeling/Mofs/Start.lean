import Mofs.Release
import Mofs.Usable

namespace Mofs

open Effect Bytes Linked

/-- `t` is the disk right after `mofs_format` and `mofs_init_core` on some device, mounted as `sb` and `env`. -/
def Booted (sb : Superblock) (env : Env) (t : Disk) : Prop :=
  ∃ d d' fsSize blkSize cached stale clock rootOwner,
    run Dev.answer (mofsFormat fsSize blkSize) d = some (.ok (), d') ∧
    mofsInitCore cached stale clock d' rootOwner = some (.ok (sb, env), t)

/-- A fresh volume: one inode in use, the root directory, with one empty block. -/
structure Fresh (sb : Superblock) (V : View) : Prop where
  range : rootInodeNum < sb.inodeNum
  room : 2 ≤ sb.dataBlkNum
  ibit : ∀ i, V.ibit i = decide (i = rootInodeNum)
  isDir : (V.inode rootInodeNum).isDir = true
  size : (V.inode rootInodeNum).iSize.toNat = sb.blkSize
  links : (V.inode rootInodeNum).iLinks = 2
  nr : (V.inode rootInodeNum).iNrBlocks = 1
  head : (V.inode rootInodeNum).iDataHead.toNat = sb.dataRegionStart + 1
  zero : ∀ i, i ≠ rootInodeNum → V.inode i = Inode.zero
  dbit : ∀ k < sb.dataBlkNum, V.dbit k = decide (k < 2)
  dir : V.blk sb.dataRegionStart = fun _ => 0
  node : V.blk (sb.dataRegionStart + 1) = encodeNode 0 [sb.dataRegionStart]
  mode : (V.inode rootInodeNum).iMode = .ofNat (ftypeDir ||| 0o755)

section

variable {d d' : Dev} {bytes blk : Nat} {sb : Superblock} {now : UInt64}

theorem Made.ok (h : Made d d' bytes blk sb now) (h25 : sb.inodeNum < 33554432) : sb.Ok := ⟨h.laid, h25⟩

theorem decodeInode_zero (o : Nat) : decodeInode (fun _ => 0) o = Inode.zero := by
  have h (a w : Nat) : leNat (fun _ => 0) a w = 0 := by
    induction w generalizing a with
    | zero => rfl
    | succ w ih => simp [leNat, ih]
  simp only [decodeInode, h]
  rfl

/-- The table of a mounted fresh volume is zero apart from the root inode. -/
theorem Formatted.table_zero (h : Formatted sb now d'.bytes) (hr : Regions sb) (hok : sb.Ok) {t : Disk} {x : Inode}
    (hother : ∀ b, b ≠ sb.inodeTableStart → t.blk b = (diskOf sb.blkSize d'.bytes).blk b)
    (htable : t.blk sb.inodeTableStart =
      splice ((diskOf sb.blkSize d'.bytes).blk sb.inodeTableStart) 128 (encodeInode x))
    {i : Nat} (hi : i < sb.inodeNum) (hne : i ≠ rootInodeNum) :
    decodeInode (t.blk (sb.tableBlk i)) (i * 64 % sb.blkSize) = Inode.zero := by
  have hfits := hok.inode_fits i
  have hlt := hok.tableBlk_lt hi
  have hB := hr.blk_ge
  rw [← decodeInode_zero (i * 64 % sb.blkSize)]
  refine decodeInode_congr fun j hj => ?_
  have hj' : i * 64 % sb.blkSize + j < sb.blkSize := by simp only [inodeBytes] at hj; omega
  by_cases hb : sb.tableBlk i = sb.inodeTableStart
  · have hq : i * 64 / sb.blkSize = 2 * 64 / sb.blkSize := by
      rw [Superblock.tableBlk] at hb
      rw [show 2 * 64 / sb.blkSize = 0 from Nat.div_eq_of_lt (by omega)]
      omega
    have hapart := hok.inode_apart hne hq
    rw [show rootInodeNum * 64 % sb.blkSize = 128 from Nat.mod_eq_of_lt (by simp only [rootInodeNum]; omega)] at hapart
    have hlen (y : Inode) : (encodeInode y).length = 64 := length_encodeInode y
    simp only [inodeBytes] at hj
    rw [hb, htable, splice_outside (by rw [hlen]; omega), h.tableBlk hr]
    simp only [if_pos hj']
    exact splice_outside (by rw [hlen]; omega)
  · rw [hother _ hb]
    simp only [diskOf, if_pos hj']
    rw [h.table _ _ (le_tableBlk sb i) hlt hj', if_neg hb]

end

theorem isDir_withOwner (t now : UInt64) (sb : Superblock) (o : Option (Nat × Nat)) :
    (withOwner t (rootInode sb now) o).isDir = true := by
  have h : ((UInt16.ofNat (ftypeDir ||| 0o755)).toNat &&& ftypeDir != 0) = true := by decide
  cases o <;> exact h

theorem Booted.fresh {sb : Superblock} {env : Env} {t : Disk} (h : Booted sb env t) (h3 : rootInodeNum < sb.inodeNum)
    (h25 : sb.inodeNum < 33554432) : sb.Ok ∧ env.Serves sb ∧ Fresh sb (sb.view t) := by
  obtain ⟨d, d', fsSize, blkSize, cached, stale, clock, rootOwner, hrun, hmount⟩ := h
  obtain ⟨sb', now, hmade⟩ := made_of_run rfl hrun
  have hvol := hmade.whole_of_mounts hmount
  have hF := hmade.formatted
  have hr := hmade.regions
  have hsb : sb' = sb := by
    rw [mofsInitCore, loadSuperblock_of_formatted hr hF, if_neg (not_not.mpr hvol)] at hmount
    by_cases h36 : d'.size < superblockBytes
    · simp [h36] at hmount
    · rw [if_neg h36] at hmount
      cases rootOwner with
      | none => simp_all
      | some o =>
        dsimp only at hmount
        split at hmount <;> simp_all
  subst hsb
  obtain ⟨t', hmount', hother, htable⟩ := mofsInitCore_of_formatted cached stale clock rootOwner hr hF h3 hvol
  obtain ⟨rfl, rfl⟩ : ⟨sb'.blkSize, d'.size, cached, stale, clock⟩ = env ∧ t' = t := by
    rw [hmount] at hmount'
    simp only [Option.some.injEq, Prod.mk.injEq, Except.ok.injEq] at hmount'
    exact ⟨hmount'.1.2.symm, hmount'.2.symm⟩
  have hok := hmade.ok h25
  have hroom := hmade.room (hmade.root_lt_iff.mp h3)
  have hsum := hr.full
  have hdrs := hr.drs
  have hits := hr.its
  have hlt := hr.hole_lt
  have hB := hr.blk_ge
  have hroot : (sb'.view t').inode rootInodeNum = withOwner (clock 0) (rootInode sb' now) rootOwner := by
    have hblk : sb'.tableBlk rootInodeNum = sb'.inodeTableStart := by
      rw [Superblock.tableBlk, rootInodeNum, Nat.div_eq_of_lt (by omega), Nat.add_zero]
    simp only [Superblock.view, if_pos h3]
    rw [hblk, htable, rootInodeNum, Nat.mod_eq_of_lt (by omega), decodeInode_splice]
  have hown : ∀ o, (withOwner (clock 0) (rootInode sb' now) o).iSize = (rootInode sb' now).iSize ∧
      (withOwner (clock 0) (rootInode sb' now) o).iLinks = 2 ∧ (withOwner (clock 0) (rootInode sb' now) o).iNrBlocks = 1 ∧
      (withOwner (clock 0) (rootInode sb' now) o).iDataHead = (rootInode sb' now).iDataHead ∧
      (withOwner (clock 0) (rootInode sb' now) o).iMode = .ofNat (ftypeDir ||| 0o755) := by
    intro o
    cases o <;> exact ⟨rfl, rfl, rfl, rfl, rfl⟩
  refine ⟨hok, ⟨rfl, by rw [← hvol]; exact Nat.div_mul_le_self _ _⟩, ?_⟩
  refine ⟨h3, by omega, fun i => ?_, ?_, ?_, ?_, ?_, ?_, fun i hi => ?_, fun k hk => ?_, ?_, ?_, ?_⟩
  · by_cases hi : i < sb'.inodeNum
    · have hib := hok.ibitBlk_lt hi
      simp only [Superblock.view, hi, decide_true, Bool.true_and]
      rw [bitmapBit, hother _ (by omega), ← bitmapBit, hF.inodeBit hr hib]
      rfl
    · have : i ≠ rootInodeNum := by rintro rfl; exact hi h3
      simp [Superblock.view, hi, this]
  · rw [hroot]; exact isDir_withOwner _ _ _ _
  · rw [hroot, (hown rootOwner).1]
    have := hok.blk_le
    exact Nat.mod_eq_of_lt (by omega)
  · rw [hroot, (hown rootOwner).2.1]
  · rw [hroot, (hown rootOwner).2.2.1]
  · rw [hroot, (hown rootOwner).2.2.2.1]; exact rootInode_head hr now
  · simp only [Superblock.view]
    split
    · exact hF.table_zero hr hok hother htable ‹_› hi
    · rfl
  · have hdb := hok.dbitBlk_lt hk
    simp only [Superblock.view, hk, decide_true, Bool.true_and]
    rw [bitmapBit, hother _ (by omega), ← bitmapBit, hF.dataBit hr hdb]
  · have hin : sb'.inData sb'.dataRegionStart := ⟨by omega, by omega⟩
    simp only [Superblock.view, if_pos hin]
    rw [hother _ (by omega), hF.dir_blk]
  · have hin : sb'.inData (sb'.dataRegionStart + 1) := ⟨by omega, by omega⟩
    simp only [Superblock.view, if_pos hin]
    rw [hother _ (by omega), hF.node_blk hr]
  · rw [hroot, (hown rootOwner).2.2.2.2]

/-- The blocks of a fresh volume that are in use. -/
def freshOwners (sb : Superblock) : Owners where
  nodes i := if i = rootInodeNum then [sb.dataRegionStart + 1] else []
  data i := if i = rootInodeNum then [sb.dataRegionStart] else []

theorem Fresh.wf {sb : Superblock} {V : View} (hok : sb.Ok) (h : Fresh sb V) : Wf sb V (freshOwners sb) := by
  have hroom := h.room
  have hhole := hok.hole
  have hlt := hok.hole_lt
  have hroot : ∀ i b, b ∈ (freshOwners sb).owned i → i = rootInodeNum ∧ (b = sb.dataRegionStart + 1 ∨ b = sb.dataRegionStart) := by
    intro i b hb
    by_cases hi : i = rootInodeNum
    · simpa [Owners.owned, freshOwners, hi] using hb
    · simp [Owners.owned, freshOwners, hi] at hb
  have hptr : ∀ p ∈ [sb.dataRegionStart], p < 4294967296 := by simp; omega
  have hnr : nodeNrPtrs (V.blk (sb.dataRegionStart + 1)) = 1 := by
    rw [h.node]; exact nodeNrPtrs_encodeNode 0 (show 1 < 4294967296 by decide)
  refine ⟨fun i hi => ?_, fun i hi => ?_, fun i hi => ?_, fun i => ?_, fun i hi => ?_, fun i => ?_, ?_, ?_, fun k hk => ?_⟩
  · obtain rfl : i = rootInodeNum := by simpa [h.ibit] using hi
    exact h.range
  · obtain rfl : i = rootInodeNum := by simpa [h.ibit] using hi
    rw [h.head]
    simp only [freshOwners, if_true]
    refine Chain.cons_iff.mpr ⟨rfl, by omega, ?_, [], ?_, ?_⟩
    · rw [hnr, listPtrsCap, listPtrsPerNode, if_neg (by have := hok.blk_ge; omega)]
      have := hok.blk_ge
      omega
    · rw [hnr, h.node, List.append_nil]
      exact (nodePtrs_encodeNode 0 hptr).symm
    · rw [h.node, nodeNext_encodeNode (by decide)]
      exact chain_nil _ _
  · obtain rfl : i = rootInodeNum := by simpa [h.ibit] using hi
    rw [h.nr]
    rfl
  · by_cases hi : i = rootInodeNum <;> simp [freshOwners, hi, maxFileDataBlocks]
  · have : i ≠ rootInodeNum := by simpa [h.ibit] using hi
    simp [freshOwners, this]
  · by_cases hi : i = rootInodeNum <;> simp [Owners.owned, freshOwners, hi]
  · exact fun i j b hi hj => (hroot i b hi).1.trans (hroot j b hj).1.symm
  · rintro i b hb
    obtain ⟨-, rfl | rfl⟩ := hroot i b hb
    · exact ⟨by omega, by omega⟩
    · exact ⟨by omega, by omega⟩
  · rw [h.dbit k hk, decide_eq_true_eq]
    constructor
    · exact fun hk2 => ⟨rootInodeNum, by simp [Owners.owned, freshOwners]; omega⟩
    · rintro ⟨i, hi⟩
      have := (hroot i _ hi).2
      omega

/-- Every blank device of more than eight blocks can be formatted and mounted. -/
theorem booted_blankDev {blocks : Nat} (h8 : 8 < blocks) (h32 : blocks ≤ 4294967295) :
    ∃ env t, Booted ((geometry (blocks * 512) 512).superblock 512) env t := by
  have hhole : (geometry (blocks * 512) 512).holeBlkNum = blocks := Nat.mul_div_cancel _ (by decide)
  have hroom := geometry_room (show 512 = 512 * 2 ^ 0 by decide) (show 8 * 512 < blocks * 512 by omega)
  obtain ⟨d', hrun⟩ := returns_blankDev (Nat.le_refl blocks) (by omega) (by omega) h32
  obtain ⟨sb, now, hmade⟩ := made_of_run (show 512 = if (0 : Int) ≤ 512 then (512 : Int).toNat else blkSizeDefault by
    decide) hrun
  rw [if_pos (by omega), Int.toNat_natCast] at hmade
  obtain ⟨env, t, now', hu⟩ : Usable (blankDev blocks) d' true (fun _ => none) (fun _ => 0) none :=
    hmade.usable (by omega) rfl
  have hm := hu.mounts
  rw [hmade.formatted.super, hmade.eq] at hm
  exact ⟨env, t, blankDev blocks, d', blocks, 512, true, fun _ => none, fun _ => 0, none, hrun, hm⟩

end Mofs
