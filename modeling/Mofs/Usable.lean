import Mofs.FormatMount

namespace Mofs

open Effect Bytes

section

variable {sb : Superblock} {now : UInt64} {d' : Dev}

theorem loadSuperblock_of_formatted (hr : Regions sb) (h : Formatted sb now d'.bytes) :
    loadSuperblock d'.size d'.bytes =
      if d'.size < superblockBytes then .error .eio
      else if d'.size / sb.blkSize ≠ sb.holeBlkNum then .error .einval else .ok sb := by
  obtain ⟨k, hk, hblk⟩ := hr.blk
  simp only [loadSuperblock, h.super, hr.magic, ne_eq, not_true, if_false, validate_of_pow hk hblk]
  rfl

/-- The disk of a mounted volume: the blocks of the device, the root inode with its owner set. -/
theorem mofsInitCore_of_formatted (cached : Bool) (stale : Nat → Option Block) (clock : Nat → UInt64)
    (rootOwner : Option (Nat × Nat)) (hr : Regions sb) (h : Formatted sb now d'.bytes) (hi : rootInodeNum < sb.inodeNum)
    (hsize : d'.size / sb.blkSize = sb.holeBlkNum) :
    ∃ t, mofsInitCore cached stale clock d' rootOwner = some (.ok (sb, ⟨sb.blkSize, d'.size, cached, stale, clock⟩), t) ∧
      (∀ b, b ≠ sb.inodeTableStart → t.blk b = (diskOf sb.blkSize d'.bytes).blk b) ∧
      t.blk sb.inodeTableStart = splice ((diskOf sb.blkSize d'.bytes).blk sb.inodeTableStart) 128
        (encodeInode (withOwner (clock 0) (rootInode sb now) rootOwner)) := by
  have hB := hr.blk_ge
  have hdrs := hr.drs
  have hhole := hr.full
  have hvol : sb.holeBlkNum * sb.blkSize ≤ d'.size := by
    rw [← hsize]; exact Nat.div_mul_le_self _ _
  have hfit : (sb.inodeTableStart + 1) * sb.blkSize ≤ d'.size :=
    (Nat.mul_le_mul_right _ (by omega)).trans hvol
  have h36 : ¬ d'.size < superblockBytes := by
    have h1 : sb.inodeTableStart * sb.blkSize + sb.blkSize ≤ d'.size := by rwa [Nat.succ_mul] at hfit
    simp only [superblockBytes]
    generalize sb.inodeTableStart * sb.blkSize = A at h1
    omega
  have hload : loadSuperblock d'.size d'.bytes = .ok sb := by
    rw [loadSuperblock_of_formatted hr h, if_neg h36, if_neg (not_not.mpr hsize)]
  cases rootOwner with
  | none =>
    refine ⟨diskOf sb.blkSize d'.bytes, by simp only [mofsInitCore, hload], fun _ _ => rfl, ?_⟩
    funext k
    rw [withOwner, h.tableBlk hr]
    by_cases hk : 128 ≤ k ∧ k < 128 + (encodeInode (rootInode sb now)).length
    · have hlen : (encodeInode (rootInode sb now)).length = 64 := length_encodeInode _
      simp only [splice, hk, and_self, if_true, show k < sb.blkSize by omega]
    · rw [splice_outside (by omega)]
  | some o =>
    have hrun := exec_updateRootOwner ⟨sb.blkSize, d'.size, cached, stale, clock⟩ (diskOf sb.blkSize d'.bytes) o.1 o.2 hB
      hr.table_lt hi rfl hfit
    rw [h.decode_root hr] at hrun
    refine ⟨_, by simp only [mofsInitCore, hload, hrun]; rfl, fun b hb => ?_, ?_⟩
    · simp [Disk.put, Disk.tick, hb]
    · simp [Disk.put, diskOf]

theorem wrote_ends (hr : Regions sb) {w : Nat × List UInt8}
    (hw : w ∈ clearWrites sb.blkSize sb.dataRegionStart 0 ++ rootWrites sb now) :
    w.1 + w.2.length ≤ (sb.dataRegionStart + 2) * sb.blkSize := by
  have hB := hr.blk_ge
  have mono {a b : Nat} (hab : a < b) : a * sb.blkSize + sb.blkSize ≤ b * sb.blkSize := by
    rw [← Nat.succ_mul]; exact Nat.mul_le_mul_right _ hab
  have h1 := mono hr.dbs
  have h2 := mono hr.its
  have h3 := mono hr.drs
  have h4 : (sb.dataRegionStart + 1) * sb.blkSize = sb.dataRegionStart * sb.blkSize + sb.blkSize := Nat.succ_mul _ _
  have h5 : (sb.dataRegionStart + 2) * sb.blkSize = sb.dataRegionStart * sb.blkSize + sb.blkSize + sb.blkSize := by
    rw [show sb.dataRegionStart + 2 = sb.dataRegionStart + 1 + 1 by rfl, Nat.succ_mul, h4]
  rcases List.mem_append.mp hw with hw | hw
  · obtain ⟨b, hb, rfl⟩ := List.mem_map.mp hw
    have := mono (show b < sb.dataRegionStart by simpa using hb)
    simp only [List.length_replicate]
    omega
  · simp only [rootWrites, List.mem_cons, List.not_mem_nil, or_false] at hw
    rcases hw with rfl | rfl | rfl | rfl | rfl | rfl | rfl <;>
      simp only [length_encodeSuperblock, length_encodeInode, superblockBytes, inodeBytes, List.length_cons,
        List.length_nil, List.length_replicate, length_slice] <;> omega

end

/-- Volumes of more than eight blocks have room for the root directory's two blocks. -/
theorem geometry_room {bytes blk k : Nat} (hk : blk = 512 * 2 ^ k) (h8 : 8 * blk < bytes) :
    (geometry bytes blk).metaReserved + 2 ≤ (geometry bytes blk).holeBlkNum := by
  have hlo := Nat.one_le_two_pow (n := k)
  have hhole : (geometry bytes blk).holeBlkNum = bytes / blk := rfl
  have h8' : 8 ≤ bytes / blk := (Nat.le_div_iff_mul_le (by omega)).mpr (by omega)
  generalize hq : bytes / blk = hole at hhole h8'
  have hinode : (geometry bytes blk).inodeNum ≤ hole / 4 + 1 := by
    have h1 := Nat.div_add_mod bytes blk
    rw [hq] at h1
    have h2 := Nat.mod_lt bytes (show 0 < blk by omega)
    have h := ceil_le_of_le_mul (n := bytes) (c := hole / 4 + 1) (w := blk * 4) (by omega) (by
      have h3 : blk * (hole + 1) ≤ blk * ((hole / 4 + 1) * 4) := Nat.mul_le_mul_left _ (by omega)
      have h4 : blk * (hole + 1) = blk * hole + blk := Nat.mul_succ _ _
      have h5 : (hole / 4 + 1) * (blk * 4) = blk * ((hole / 4 + 1) * 4) := by
        rw [Nat.mul_left_comm]
      omega)
    simp only [geometry]
    rwa [← Nat.add_sub_assoc (by omega)]
  have hw : 4096 ≤ blk * 8 := by omega
  have bound (n : Nat) : (n + blk * 8 - 1) / (blk * 8) ≤ n / 4096 + 1 :=
    ceil_le_of_le_mul (by omega) ((by omega : n ≤ (n / 4096 + 1) * 4096).trans (Nat.mul_le_mul_left _ hw))
  have h1 : (geometry bytes blk).inodeBitmapBlkNum ≤ (geometry bytes blk).inodeNum / 4096 + 1 := bound _
  have h2 : (geometry bytes blk).dataBitmapBlkNum ≤ hole / 4096 + 1 := hq ▸ bound (bytes / blk)
  have h3 : (geometry bytes blk).inodeTableBlkNum ≤ (geometry bytes blk).inodeNum / 8 + 1 :=
    ceil_le_of_le_mul (by omega) ((by simp only [inodeBytes]; omega :
      (geometry bytes blk).inodeNum * inodeBytes ≤ ((geometry bytes blk).inodeNum / 8 + 1) * 512).trans
      (Nat.mul_le_mul_left _ (by omega)))
  rw [Geometry.metaReserved, hhole]
  omega

theorem geometry_inodes_iff {bytes blk : Nat} (hb : 0 < blk) :
    rootInodeNum < (geometry bytes blk).inodeNum ↔ 8 * blk < bytes := by
  have hn : (geometry bytes blk).inodeNum = (bytes + blk * 4 - 1) / (blk * 4) := by
    simp only [geometry]; rw [← Nat.add_sub_assoc (by omega)]
  rw [hn, rootInodeNum]
  constructor
  · intro h
    have := (Nat.le_div_iff_mul_le (show 0 < blk * 4 by omega)).mp h
    omega
  · intro h
    exact (Nat.le_div_iff_mul_le (show 0 < blk * 4 by omega)).mpr (by omega)

/-- What is known of a device after a format that returned. -/
structure Made (d d' : Dev) (bytes blk : Nat) (sb : Superblock) (now : UInt64) : Prop where
  eq : sb = (geometry bytes blk).superblock blk
  pow : ∃ k ≤ 7, blk = 512 * 2 ^ k
  fit : (geometry bytes blk).metaReserved < (geometry bytes blk).holeBlkNum
  hole_le : (geometry bytes blk).holeBlkNum ≤ 4294967295
  formatted : Formatted sb now d'.bytes
  log : ∀ w ∈ d'.log.drop d.log.length, w.1 + w.2 ≤ (sb.dataRegionStart + 2) * sb.blkSize
  size : (sb.dataRegionStart + 2) * sb.blkSize ≤ d.size → d'.size = d.size

namespace Made

variable {d d' : Dev} {bytes blk : Nat} {sb : Superblock} {now : UInt64}

theorem blk_pos (h : Made d d' bytes blk sb now) : 0 < blk := by
  obtain ⟨k, -, hk⟩ := h.pow
  have := Nat.one_le_two_pow (n := k)
  omega

theorem regions (h : Made d d' bytes blk sb now) : Regions sb := by
  obtain ⟨k, hk7, hk⟩ := h.pow
  exact h.eq ▸ geometry_regions hk7 hk h.fit h.hole_le

theorem laid (h : Made d d' bytes blk sb now) : sb.Laid := h.regions.toLaid

theorem fields (h : Made d d' bytes blk sb now) :
    sb.blkSize = blk ∧ sb.holeBlkNum = bytes / blk ∧ sb.inodeNum = (geometry bytes blk).inodeNum ∧
      sb.dataRegionStart = (geometry bytes blk).metaReserved ∧
      sb.inodeTableStart = sb.dataBitmapStart + (geometry bytes blk).dataBitmapBlkNum := by
  rw [h.eq, geometry_superblock h.fit h.blk_pos h.hole_le]
  exact ⟨rfl, rfl, rfl, rfl, rfl⟩

theorem root_lt_iff (h : Made d d' bytes blk sb now) : rootInodeNum < sb.inodeNum ↔ 8 * blk < bytes := by
  rw [h.fields.2.2.1, geometry_inodes_iff h.blk_pos]

theorem room (h : Made d d' bytes blk sb now) (h8 : 8 * blk < bytes) : sb.dataRegionStart + 2 ≤ sb.holeBlkNum := by
  obtain ⟨-, hhole, -, hdrs, -⟩ := h.fields
  obtain ⟨k, -, hk⟩ := h.pow
  rw [hdrs, hhole]
  exact geometry_room hk h8

theorem dataBitBlk_lt (h : Made d d' bytes blk sb now) {k : Nat} (hk : k < sb.dataBlkNum) :
    bitBlk sb.blkSize sb.dataBitmapStart k < sb.inodeTableStart := by
  obtain ⟨hblk, hhole, -, -, htable⟩ := h.fields
  have hb := h.blk_pos
  have hsum := h.regions.full
  have hceil : bytes / blk ≤ (geometry bytes blk).dataBitmapBlkNum * (blk * 8) := le_ceil_mul (bytes / blk) (by omega)
  rw [htable, bitBlk, hblk]
  refine Nat.add_lt_add_left ((Nat.div_lt_iff_lt_mul (by omega)).mpr ?_) _
  omega

end Made

theorem made_of_run {d d' : Dev} {fsSize blkSize : Int} {blk : Nat}
    (hblk : blk = if 0 ≤ blkSize then blkSize.toNat else blkSizeDefault)
    (hrun : run Dev.answer (mofsFormat fsSize blkSize) d = some (.ok (), d')) :
    ∃ sb now, Made d d' (if 0 < fsSize then fsSize.toNat * blk else d.size) blk sb now := by
  obtain ⟨blk', bytes, now, hblk', hbytes, hval, hfit, h32, hw⟩ := wrote_mofsFormat hrun
  obtain rfl : blk' = blk := hblk'.trans hblk.symm
  obtain ⟨k, hk7, hk⟩ := validate_ok hval
  have hb : 0 < blk' := by have := Nat.one_le_two_pow (n := k); omega
  have hr := geometry_regions hk7 hk hfit h32
  rw [← hbytes]
  have hsb := geometry_superblock hfit hb h32
  have hw' : Wrote d (clearWrites ((geometry bytes blk').superblock blk').blkSize
      ((geometry bytes blk').superblock blk').dataRegionStart 0 ++ rootWrites ((geometry bytes blk').superblock blk') now)
      d' := by
    have h1 : ((geometry bytes blk').superblock blk').blkSize = blk' := by rw [hsb]
    have h2 : ((geometry bytes blk').superblock blk').dataRegionStart = (geometry bytes blk').metaReserved := by rw [hsb]
    rw [h1, h2]
    exact hw
  refine ⟨(geometry bytes blk').superblock blk', now, rfl, ⟨k, hk7, hk⟩, hfit, h32, formatted_of_wrote hr hw',
    fun w hwm => ?_, fun hsize => ?_⟩
  · rw [hw'.log, List.drop_left, List.mem_map] at hwm
    obtain ⟨w', hwm, rfl⟩ := hwm
    exact wrote_ends hr hwm
  · exact hw'.size fun w hwm => (wrote_ends hr hwm).trans hsize

section

variable {d d' : Dev} {bytes blk : Nat} {sb : Superblock} {now : UInt64} {cached : Bool} {stale : Nat → Option Block}
  {clock : Nat → UInt64} {rootOwner : Option (Nat × Nat)}

/-- A mounted volume covers its device, up to a last partial block. -/
theorem Made.whole_of_mounts (h : Made d d' bytes blk sb now) {sb' : Superblock} {env : Env} {t : Disk}
    (hm : mofsInitCore cached stale clock d' rootOwner = some (.ok (sb', env), t)) :
    d'.size / sb.blkSize = sb.holeBlkNum := by
  rw [mofsInitCore, loadSuperblock_of_formatted h.regions h.formatted] at hm
  by_contra hne
  by_cases h36 : d'.size < superblockBytes
  · simp [h36] at hm
  · simp [h36, hne] at hm

theorem Made.lt_of_usable (h : Made d d' bytes blk sb now) (hu : Usable d d' cached stale clock rootOwner) :
    8 * blk < bytes := by
  obtain ⟨env, t, now', hu⟩ := hu
  have := hu.inodes
  rw [h.formatted.super] at this
  exact h.root_lt_iff.mp this

/-- A device larger than the volume keeps its size during the format, and then does not mount. -/
theorem Made.whole_of_usable (h : Made d d' bytes blk sb now) (hu : Usable d d' cached stale clock rootOwner)
    (hle : bytes ≤ d.size) : bytes / blk = d.size / blk := by
  obtain ⟨hblk, hhole, -⟩ := h.fields
  have hb := h.blk_pos
  have hroom := h.room (h.lt_of_usable hu)
  obtain ⟨env, t, now', hu⟩ := hu
  have hsize : d'.size = d.size := h.size (by
    refine (Nat.mul_le_mul_right _ hroom).trans (le_trans ?_ hle)
    rw [hhole, hblk]
    exact Nat.div_mul_le_self _ _)
  have := h.whole_of_mounts hu.mounts
  rw [hsize, hblk, hhole] at this
  exact this.symm

theorem Made.usable (h : Made d d' bytes blk sb now) (h8 : 8 * blk < bytes) (hdev : bytes / blk = d.size / blk) :
    Usable d d' cached stale clock rootOwner := by
  obtain ⟨hblk, hhole, -⟩ := h.fields
  have hr := h.regions
  have hsum := hr.full
  have hroom := h.room h8
  have hino := h.root_lt_iff.mpr h8
  have hsize : d'.size = d.size := h.size (by
    refine (Nat.mul_le_mul_right _ hroom).trans ?_
    rw [hhole, hblk, hdev]
    exact Nat.div_mul_le_self _ _)
  have hvol : d'.size / sb.blkSize = sb.holeBlkNum := by rw [hsize, hblk, hhole, hdev]
  obtain ⟨t, hmount, hother, htable⟩ :=
    mofsInitCore_of_formatted cached stale clock rootOwner hr h.formatted hino hvol
  have hhead := rootInode_head hr now
  have hnode : t.blk (sb.dataRegionStart + 1) = encodeNode 0 [sb.dataRegionStart] := by
    rw [hother _ (by have := hr.drs; omega), h.formatted.node_blk hr]
  have hptr : leNat (t.blk (sb.dataRegionStart + 1)) 8 4 = sb.dataRegionStart := by
    rw [hnode, ptr_encodeNode (by have := hr.hole_lt; omega)]
  refine ⟨⟨sb.blkSize, d'.size, cached, stale, clock⟩, t, now, ?_⟩
  constructor <;> rw [h.formatted.super]
  · exact hmount
  · exact fun w hw => (h.log w hw).trans (Nat.mul_le_mul_right _ hroom)
  · exact hino
  · rw [hhead]; exact ⟨by omega, by omega⟩
  · rw [hhead, hptr]; exact ⟨by omega, by omega⟩
  · intro j hj
    have hlt := h.dataBitBlk_lt hj
    have hbit : bitmapBit t.blk sb.blkSize sb.dataBitmapStart j =
        bitmapBit (diskOf sb.blkSize d'.bytes).blk sb.blkSize sb.dataBitmapStart j := by
      rw [bitmapBit, hother _ (by omega), bitmapBit]
    rw [hbit, h.formatted.dataBit hr hlt, hhead, hptr]
    simp only [decide_eq_true_eq, List.mem_cons, List.not_mem_nil, or_false]
    omega
  · obtain ⟨hblk2, hoff2⟩ := rootBlk_eq hr.blk_ge hr.table_lt
    have hfit : (sb.inodeTableStart + 1) * sb.blkSize ≤ d'.size := by
      refine (Nat.mul_le_mul_right _ ?_).trans (show sb.holeBlkNum * sb.blkSize ≤ d'.size from ?_)
      · have := hr.drs; omega
      · rw [← hvol]; exact Nat.div_mul_le_self _ _
    rw [exec_mofsReadInode (root_inRange hino) (by rw [hblk2]; exact hfit), hblk2, hoff2, htable, decodeInode_splice]

end

/-- A volume that `mofs_format` reports as made is usable exactly when it covers the whole device and has more than
eight blocks. A volume formatted smaller than its device does not mount, and up to eight blocks leave an inode
table that ends before the root inode. -/
theorem mofsFormat_usable_iff {d d' : Dev} {fsSize blkSize : Int} {blk : Nat}
    (hblk : blk = if 0 ≤ blkSize then blkSize.toNat else blkSizeDefault)
    (hfs : 0 < fsSize → fsSize.toNat * blk ≤ d.size)
    (hrun : run Dev.answer (mofsFormat fsSize blkSize) d = some (.ok (), d'))
    (cached : Bool) (stale : Nat → Option Block) (clock : Nat → UInt64) (rootOwner : Option (Nat × Nat)) :
    Usable d d' cached stale clock rootOwner ↔
      (0 < fsSize → fsSize.toNat = d.size / blk) ∧ 8 * blk < (if 0 < fsSize then fsSize.toNat * blk else d.size) := by
  obtain ⟨sb, now, h⟩ := made_of_run hblk hrun
  have hb := h.blk_pos
  constructor
  · intro hu
    refine ⟨fun hpos => ?_, h.lt_of_usable hu⟩
    have := h.whole_of_usable hu (by rw [if_pos hpos]; exact hfs hpos)
    rwa [if_pos hpos, Nat.mul_div_cancel _ hb] at this
  · rintro ⟨hwhole, h8⟩
    refine h.usable h8 ?_
    by_cases hpos : 0 < fsSize
    · rw [if_pos hpos, Nat.mul_div_cancel _ hb, hwhole hpos]
    · rw [if_neg hpos]

/-- A blank device of `blocks` blocks of 512 bytes. -/
def blankDev (blocks : Nat) : Dev := ⟨blocks * 512, false, fun _ => 0, [], fun _ => 0, 0⟩

/-- Formats with 512-byte blocks return on every device that has room for what they write. -/
theorem returns_blankDev {blocks fs : Nat} (hfs : fs ≤ blocks) (hpos : 0 < fs) (hmeta : (geometry (fs * 512) 512).metaReserved + 2 ≤ fs)
    (h32 : fs ≤ 4294967295) :
    ∃ d', run Dev.answer (mofsFormat fs 512) (blankDev blocks) = some (.ok (), d') := by
  have hhole : (geometry (fs * 512) 512).holeBlkNum = fs := Nat.mul_div_cancel _ (by decide)
  have hfit : (geometry (fs * 512) 512).metaReserved < (geometry (fs * 512) 512).holeBlkNum := by omega
  have hr := geometry_regions (show 0 ≤ 7 by decide) (show 512 = 512 * 2 ^ 0 by decide) hfit (by omega)
  have hsb := geometry_superblock hfit (by decide) (by omega)
  have hblk : ((geometry (fs * 512) 512).superblock 512).blkSize = 512 := by rw [hsb]
  have hdrs : ((geometry (fs * 512) 512).superblock 512).dataRegionStart = (geometry (fs * 512) 512).metaReserved := by
    rw [hsb]
  have hbytes : fs * 512 = if 0 < (fs : Int) then (fs : Int).toNat * 512 else (blankDev blocks).size := by
    rw [if_pos (by omega), Int.toNat_natCast]
  have hends : ∀ now, ∀ w ∈ clearWrites 512 (geometry (fs * 512) 512).metaReserved 0 ++
      rootWrites ((geometry (fs * 512) 512).superblock 512) now, w.1 + w.2.length ≤ (blankDev blocks).size := by
    intro now w hw
    have hle := wrote_ends hr (by rw [hblk, hdrs]; exact hw)
    rw [hblk, hdrs] at hle
    exact hle.trans (Nat.mul_le_mul_right _ (by omega))
  obtain ⟨d', hrun, -⟩ := returns_mofsFormat (show 512 = if (0 : Int) ≤ 512 then (512 : Int).toNat else blkSizeDefault by
    decide) hbytes (validate_of_pow (show 0 ≤ 7 by decide) rfl) hfit (by omega) hends
  exact ⟨d', hrun⟩

theorem mofsFormat_usable_iff_sixteen : ∃ d', run Dev.answer (mofsFormat 16 512) (blankDev 16) = some (.ok (), d') ∧
    Usable (blankDev 16) d' false (fun _ => none) (fun _ => 0) none := by
  obtain ⟨d', hrun⟩ := returns_blankDev (show 16 ≤ 16 by decide) (by decide) (by decide) (by decide)
  exact ⟨d', hrun, (mofsFormat_usable_iff rfl (fun _ => by decide) hrun _ _ _ _).mpr ⟨fun _ => by decide, by decide⟩⟩

/-- Six blocks leave no inode 2, and half of a device cannot be mounted. -/
theorem mofsFormat_not_usable :
    (∃ d', run Dev.answer (mofsFormat 6 512) (blankDev 6) = some (.ok (), d') ∧
      ¬ Usable (blankDev 6) d' false (fun _ => none) (fun _ => 0) none) ∧
    ∃ d', run Dev.answer (mofsFormat 16 512) (blankDev 32) = some (.ok (), d') ∧
      ¬ Usable (blankDev 32) d' false (fun _ => none) (fun _ => 0) none := by
  constructor
  · obtain ⟨d', hrun⟩ := returns_blankDev (show 6 ≤ 6 by decide) (by decide) (by decide) (by decide)
    obtain ⟨sb, now, h⟩ := made_of_run rfl hrun
    exact ⟨d', hrun, fun hu => absurd (h.lt_of_usable hu) (by decide)⟩
  · obtain ⟨d', hrun⟩ := returns_blankDev (show 16 ≤ 32 by decide) (by decide) (by decide) (by decide)
    obtain ⟨sb, now, h⟩ := made_of_run rfl hrun
    exact ⟨d', hrun, fun hu => absurd (h.whole_of_usable hu (by decide)) (by decide)⟩

end Mofs
