import Mofs.FormatMount

namespace Mofs

open Effect Bytes

variable {sb : Superblock} {lo hi bound start : Nat}

/-- The operation is on a block of the region from `lo` up to `hi`. -/
def Within (lo hi : Nat) : BlockOp → Prop
  | .read b => lo ≤ b ∧ b < hi
  | .write b _ => lo ≤ b ∧ b < hi
  | .modify b _ _ => lo ≤ b ∧ b < hi
  | .invalidate b => lo ≤ b ∧ b < hi
  | .flush => True
  | .now => True

/-- The fields of a superblock describe regions that follow one another inside the volume and are large enough. -/
structure Superblock.Sane (sb : Superblock) : Prop where
  start_pos : 0 < sb.inodeBitmapStart
  bitmaps : sb.inodeBitmapStart < sb.dataBitmapStart
  table : sb.dataBitmapStart < sb.inodeTableStart
  data : sb.inodeTableStart < sb.dataRegionStart
  hole : sb.dataRegionStart + sb.dataBlkNum ≤ sb.holeBlkNum
  inodeBitmap : sb.inodeNum ≤ (sb.dataBitmapStart - sb.inodeBitmapStart) * (sb.blkSize * 8)
  dataBitmap : sb.dataBlkNum ≤ (sb.inodeTableStart - sb.dataBitmapStart) * (sb.blkSize * 8)
  inodeTable : sb.inodeNum * inodeBytes ≤ (sb.dataRegionStart - sb.inodeTableStart) * sb.blkSize

/-- Whatever the blocks hold, the accesses to the bitmaps and to the inode table stay in their regions, and so do the data
blocks that a search finds free. -/
structure Superblock.Contained (sb : Superblock) : Prop where
  findInode : ∀ req, Uses (Within sb.inodeBitmapStart sb.dataBitmapStart) (fun l => ∀ i ∈ l, i < sb.inodeNum)
    (findFreeInodeIndices sb req)
  setInode : ∀ i used, Uses (Within sb.inodeBitmapStart sb.dataBitmapStart) (fun _ => True) (setInodeBitmapBit sb i used)
  findData : ∀ req, Uses (Within sb.dataBitmapStart sb.inodeTableStart) (fun l => ∀ k ∈ l, sb.inData (u32 (sb.dataRegionStart + k)))
    (findFreeDataBlockIndices sb req)
  setData : ∀ k used, Uses (Within sb.dataBitmapStart sb.inodeTableStart) (fun _ => True) (setDataBitmapBit sb k used)
  readInode : ∀ i, Uses (Within sb.inodeTableStart sb.dataRegionStart) (fun _ => True) (mofsReadInode sb i)
  writeInode : ∀ i x, Uses (Within sb.inodeTableStart sb.dataRegionStart) (fun _ => True) (mofsWriteInode sb i x)
  stampInode : ∀ i mask, Uses (Within sb.inodeTableStart sb.dataRegionStart) (fun _ => True) (mofsInodeStampPersist sb i mask)

section Accesses

variable {b : Nat}

theorem uses_readFull (h : lo ≤ b ∧ b < hi) : Uses (Within lo hi) (fun _ => True) (readFull b) := by
  refine uses_bind (P := fun _ => True) (uses_bind (uses_call h) fun r _ => uses_ofExcept fun _ _ => trivial) fun r _ => ?_
  split
  · trivial
  · exact uses_pure trivial

theorem uses_writeFull (h : lo ≤ b ∧ b < hi) (x : Block) : Uses (Within lo hi) (fun _ => True) (writeFull b x) := by
  refine uses_bind (P := fun _ => True) (uses_bind (uses_call h) fun r _ => uses_ofExcept fun _ _ => trivial) fun r _ => ?_
  split
  · trivial
  · exact uses_pure trivial

theorem lt_of_mem_scanBits {base req n bit : Nat} {byte : UInt8} {acc : List Nat} (h : ∀ i ∈ acc, i < bound) :
    ∀ i ∈ scanBits lo bound base req byte n bit acc, i < bound := by
  induction n generalizing bit acc with
  | zero => exact h
  | succ n ih =>
    rw [scanBits]
    split
    · exact h
    · dsimp only
      split
      · exact h
      next hlt =>
      split
      · exact ih h
      · refine ih fun i hi => ?_
        split at hi
        · rcases List.mem_append.mp hi with hi | hi
          · exact h i hi
          · rw [List.mem_singleton.mp hi]
            exact Nat.not_le.mp hlt
        · exact h i hi

theorem lt_of_mem_scanBytes {base req n byteIdx : Nat} {buf : Block} {acc : List Nat} (h : ∀ i ∈ acc, i < bound) :
    ∀ i ∈ scanBytes lo bound base req buf n byteIdx acc, i < bound := by
  induction n generalizing byteIdx acc with
  | zero => exact h
  | succ n ih =>
    rw [scanBytes]
    split
    · exact h
    · exact ih (lt_of_mem_scanBits h)

/-- A scan reads the blocks of its bitmap and finds indices below the bound. -/
theorem uses_scanBlocks {first req n : Nat} (blkIdx : Nat) {acc : List Nat} (hn : start + blkIdx + n ≤ hi) (h32 : hi < 4294967296)
    (h : ∀ i ∈ acc, i < bound) :
    Uses (Within start hi) (fun l => ∀ i ∈ l, i < bound) (scanBlocks sb first bound start req n blkIdx acc) := by
  induction n generalizing blkIdx acc with
  | zero => exact uses_pure h
  | succ n ih =>
    rw [scanBlocks]
    split
    · exact uses_pure h
    · have hblk : u32 (start + blkIdx) = start + blkIdx := Nat.mod_eq_of_lt (by omega)
      refine uses_bind (uses_readFull ?_) fun buf _ => ih (blkIdx + 1) (by omega) (lt_of_mem_scanBytes h)
      rw [hblk]
      omega

theorem uses_findFreeIndices {first req n : Nat} (hn : start + n ≤ hi) (h32 : hi < 4294967296) :
    Uses (Within start hi) (fun l => ∀ i ∈ l, i < bound) (findFreeIndices sb first bound start n req) := by
  rw [findFreeIndices]
  split
  · exact uses_pure fun i hi => by cases hi
  · refine uses_bind (uses_scanBlocks 0 hn h32 fun i hi => by cases hi) fun acc hacc => ?_
    split
    · trivial
    · exact uses_pure hacc

theorem uses_setBitmapBit {idx : Nat} (hlt : start + idx / (sb.blkSize * 8) < hi) (h32 : hi < 4294967296)
    (hblk : sb.blkSize ≤ 65536) (used : Bool) :
    Uses (Within start hi) (fun _ => True) (setBitmapBit sb start idx used) := by
  have hbits : u32 (sb.blkSize * 8) = sb.blkSize * 8 := Nat.mod_eq_of_lt (by omega)
  have hin : start ≤ u32 (start + idx / u32 (sb.blkSize * 8)) ∧ u32 (start + idx / u32 (sb.blkSize * 8)) < hi := by
    rw [hbits, u32, Nat.mod_eq_of_lt (lt_trans hlt h32)]
    exact ⟨Nat.le_add_right _ _, hlt⟩
  exact uses_bind (uses_readFull hin) fun buf _ => uses_writeFull hin _

theorem uses_mofsNow : Uses (Within lo hi) (fun _ => True) mofsNow :=
  uses_bind (uses_call (show Within lo hi .now from trivial)) fun _ _ => uses_ofExcept fun _ _ => trivial

end Accesses

section InodeTable

/-- Inode offsets are computed in `int`. They stay in the table as long as they do not overflow; the only other case is
a table that reaches so far up that offsets taken below zero come out in it again, modulo `2 ^ 32` blocks. -/
def Superblock.TableInInt (sb : Superblock) : Prop :=
  sb.inodeNum ≤ 33554432 ∨
    4294967296 + sb.inodeTableStart < sb.dataRegionStart + (4294967296 - (sb.inodeNum - 1) * 64) / sb.blkSize

variable {i : Nat}

theorem inodeBlk_small (hi : i < 33554432) (h32 : sb.inodeTableStart + i * 64 / sb.blkSize < 4294967296) :
    inodeBlk sb i = sb.inodeTableStart + i * 64 / sb.blkSize := by
  have hbyte : inodeByte i = ((i * 64 : Nat) : Int) := by
    rw [inodeByte, u32, Nat.mod_eq_of_lt (by omega), if_pos (by omega)]
  rw [inodeBlk, hbyte, ← Int.ofNat_tdiv]
  generalize i * 64 / sb.blkSize = q at *
  omega

/-- From `2 ^ 25` on the offset is negative. -/
theorem inodeBlk_large (hlo : 33554432 ≤ i) (hhi : i < 67108864) :
    inodeBlk sb i = (((sb.inodeTableStart : Int) - ((4294967296 - i * 64) / sb.blkSize : Nat)) % 4294967296).toNat := by
  have hbyte : inodeByte i = -((4294967296 - i * 64 : Nat) : Int) := by
    rw [inodeByte, u32, Nat.mod_eq_of_lt (by omega), if_neg (by omega)]
    omega
  rw [inodeBlk, hbyte, Int.neg_tdiv, ← Int.ofNat_tdiv, Int.sub_eq_add_neg]

/-- An offset that overflows and lands in the table nevertheless. -/
theorem large_of_table (hlo : 33554432 ≤ i) (hhi : i < 67108864) (hq : 0 < (4294967296 - i * 64) / sb.blkSize)
    (h : sb.inodeTableStart ≤ inodeBlk sb i ∧ inodeBlk sb i < sb.dataRegionStart) :
    4294967296 + sb.inodeTableStart < sb.dataRegionStart + (4294967296 - i * 64) / sb.blkSize := by
  have hq' : (4294967296 - i * 64) / sb.blkSize ≤ 4294967296 - i * 64 := Nat.div_le_self _ _
  rw [inodeBlk_large hlo hhi] at h
  generalize (4294967296 - i * 64) / sb.blkSize = q at *
  omega

variable (hS : sb.Sane) (h32 : sb.holeBlkNum < 4294967296)

include hS h32

theorem table_of_small (hi : i < sb.inodeNum) (h25 : i < 33554432) (hB : 0 < sb.blkSize) :
    sb.inodeTableStart ≤ inodeBlk sb i ∧ inodeBlk sb i < sb.dataRegionStart := by
  have hlt : i * 64 / sb.blkSize < sb.dataRegionStart - sb.inodeTableStart := by
    rw [Nat.div_lt_iff_lt_mul hB]
    have := hS.inodeTable
    simp only [inodeBytes] at this
    omega
  have := hS.hole
  have hblk (h : sb.inodeTableStart + i * 64 / sb.blkSize < 4294967296) := inodeBlk_small h25 h
  generalize i * 64 / sb.blkSize = q at *
  rw [hblk (by omega)]
  omega

theorem table_of_large (hlo : 33554432 ≤ i) (hhi : i < 67108864)
    (h : 4294967296 + sb.inodeTableStart < sb.dataRegionStart + (4294967296 - i * 64) / sb.blkSize) :
    sb.inodeTableStart ≤ inodeBlk sb i ∧ inodeBlk sb i < sb.dataRegionStart := by
  have := hS.hole
  have hq : (4294967296 - i * 64) / sb.blkSize ≤ 4294967296 - i * 64 := Nat.div_le_self _ _
  rw [inodeBlk_large hlo hhi]
  generalize (4294967296 - i * 64) / sb.blkSize = q at *
  omega

theorem tableInInt_iff (hB : ∃ k ≤ 7, sb.blkSize = 512 * 2 ^ k) :
    sb.TableInInt ↔ ∀ i < sb.inodeNum, ¬ isNeg i → sb.inodeTableStart ≤ inodeBlk sb i ∧ inodeBlk sb i < sb.dataRegionStart := by
  obtain ⟨k, hk, hblk⟩ := hB
  have hpow : 2 ^ k ≤ 2 ^ 7 := Nat.pow_le_pow_right (by omega) hk
  have hpos := Nat.one_le_two_pow (n := k)
  have hB0 : 0 < sb.blkSize := by omega
  have hhole := hS.hole
  have hdata := hS.data
  constructor
  · rintro h i hi -
    by_cases h25 : i < 33554432
    · exact table_of_small hS h32 hi h25 hB0
    · have h := h.resolve_left (by omega)
      have hmono : (4294967296 - (sb.inodeNum - 1) * 64) / sb.blkSize ≤ (4294967296 - i * 64) / sb.blkSize :=
        Nat.div_le_div_right (by omega)
      have hle : (4294967296 - i * 64) / sb.blkSize ≤ 4294967296 - i * 64 := Nat.div_le_self _ _
      exact table_of_large hS h32 (by omega) (by omega) (by omega)
  · intro h
    by_contra hno
    rw [Superblock.TableInInt, not_or] at hno
    obtain ⟨hn, hlast⟩ := hno
    have hstart := hS.start_pos
    have hb := hS.bitmaps
    have ht := hS.table
    -- the first offset that overflows can only come out at the top of the table, so the table starts low
    have hfirst := large_of_table (i := 33554432) (by omega) (by omega) (Nat.div_pos (by omega) hB0)
      (h _ (by omega) (by simp [isNeg]))
    have hlow : sb.inodeTableStart * sb.blkSize < 2147483648 := by
      have hlt : sb.inodeTableStart + 1 ≤ (4294967296 - 33554432 * 64) / sb.blkSize := by omega
      have := (Nat.mul_le_mul_right sb.blkSize hlt).trans (Nat.div_mul_le_self _ _)
      rw [Nat.add_mul] at this
      omega
    -- the inode whose offset would be block 0
    set u := 8 * 2 ^ k with hu
    have hbu : sb.blkSize = 64 * u := by omega
    have hmul : sb.inodeTableStart * sb.blkSize = sb.inodeTableStart * u * 64 := by
      rw [hbu, Nat.mul_comm 64 u, ← Nat.mul_assoc]
    have hupos : 0 < sb.inodeTableStart * u := Nat.mul_pos (by omega) (by omega)
    have hzero : (4294967296 - (67108864 - sb.inodeTableStart * u) * 64) / sb.blkSize = sb.inodeTableStart := by
      rw [show 4294967296 - (67108864 - sb.inodeTableStart * u) * 64 = sb.inodeTableStart * sb.blkSize by omega,
        Nat.mul_div_cancel _ hB0]
    have hfew : sb.inodeNum ≤ 67108864 - sb.inodeTableStart * u := by
      by_contra hlt
      have := large_of_table (i := 67108864 - sb.inodeTableStart * u) (by omega) (by omega) (by omega)
        (h _ (by omega) (by unfold isNeg; omega))
      omega
    have hmono : sb.inodeTableStart ≤ (4294967296 - (sb.inodeNum - 1) * 64) / sb.blkSize := by
      rw [← hzero]
      exact Nat.div_le_div_right (by omega)
    exact hlast (large_of_table (by omega) (by omega) (by omega) (h _ (by omega) (by unfold isNeg; omega)))

end InodeTable

/-- The accesses to the inode table for which the table position of every inode is in the region. -/
theorem uses_inode {i : Nat} {α : Type} {f : M α} (h : i < sb.inodeNum → ¬ isNeg i → Uses (Within lo hi) (fun _ => True) f)
    {c : Prop} [Decidable c] (hc : isNeg i ∨ sb.inodeNum ≤ i → c) : Uses (Within lo hi) (fun _ => True) (if c then throw .einval else f) := by
  split
  · trivial
  next hno =>
  have hin := not_or.mp fun h => hno (hc h)
  exact h (Nat.not_le.mp hin.2) hin.1

theorem uses_mofsInodeStampNow (x : Inode) (mask : Nat) : Uses (Within lo hi) (fun _ => True) (mofsInodeStampNow x mask) := by
  rw [mofsInodeStampNow]
  split
  · trivial
  · exact uses_bind uses_mofsNow fun _ _ => uses_pure trivial

theorem uses_mofsReadInode (i : Nat) (h : i < sb.inodeNum → ¬ isNeg i → lo ≤ inodeBlk sb i ∧ inodeBlk sb i < hi) :
    Uses (Within lo hi) (fun _ => True) (mofsReadInode sb i) :=
  uses_inode (fun hlt hneg => uses_bind (uses_readFull (h hlt hneg)) fun _ _ => uses_pure trivial) id

theorem uses_mofsWriteInode (i : Nat) (x : Inode) (h : i < sb.inodeNum → ¬ isNeg i → lo ≤ inodeBlk sb i ∧ inodeBlk sb i < hi) :
    Uses (Within lo hi) (fun _ => True) (mofsWriteInode sb i x) := by
  refine uses_inode (fun hlt hneg => ?_) id
  have hin := h hlt hneg
  have hmodify : Uses (Within lo hi) (fun _ => True) (bcacheModifyBlock (inodeBlk sb i) (inodeOffset sb i) (encodeInode x)) :=
    uses_bind (uses_call hin) fun _ _ => uses_ofExcept fun _ _ => trivial
  refine uses_bind (uses_attempt hmodify) fun r _ => ?_
  split
  · exact uses_bind (uses_readFull hin) fun _ _ => uses_writeFull hin _
  · exact uses_ofExcept fun _ _ => trivial

theorem uses_mofsInodeStampPersist (i mask : Nat)
    (h : i < sb.inodeNum → ¬ isNeg i → lo ≤ inodeBlk sb i ∧ inodeBlk sb i < hi) :
    Uses (Within lo hi) (fun _ => True) (mofsInodeStampPersist sb i mask) := by
  refine uses_inode (fun hlt hneg => ?_) fun hc => hc.imp id .inl
  have hin := h hlt hneg
  exact uses_bind (uses_readFull hin) fun _ _ => uses_bind (uses_mofsInodeStampNow _ _) fun _ _ => uses_writeFull hin _

theorem bitBlk_lt {k num bits : Nat} (hk : k < num) (hsize : num ≤ (hi - start) * bits) (hpos : 0 < bits) :
    start + k / bits < hi := by
  apply Nat.add_lt_of_lt_sub'
  rw [Nat.div_lt_iff_lt_mul hpos]
  omega

/-- Sane regions contain all accesses if and only if the inode table can be addressed. -/
theorem contained_iff (hS : sb.Sane) (h32 : sb.holeBlkNum < 4294967296) (hB : ∃ k ≤ 7, sb.blkSize = 512 * 2 ^ k) :
    sb.Contained ↔ sb.TableInInt := by
  rw [tableInInt_iff hS h32 hB]
  constructor
  · intro hC i hi hneg
    have := hC.readInode i
    rw [mofsReadInode, if_neg (not_or.mpr ⟨hneg, Nat.not_le.mpr hi⟩)] at this
    exact this.1
  · intro h
    obtain ⟨k, hk, hblk⟩ := hB
    have hpow : 2 ^ k ≤ 2 ^ 7 := Nat.pow_le_pow_right (by omega) hk
    have hpos := Nat.one_le_two_pow (n := k)
    have h64 : sb.blkSize ≤ 65536 := by omega
    have hbits : 0 < sb.blkSize * 8 := by omega
    obtain ⟨hstart, hbm, htab, hdata, hhole, hib, hdb, -⟩ := hS
    have hwrap {a b : Nat} (hab : a < b) (hb : b < 4294967296) : a + u32 (b + 4294967296 - a) ≤ b := by
      have : u32 (b + 4294967296 - a) = b - a := by
        rw [u32, show b + 4294967296 - a = b - a + 4294967296 by omega, Nat.add_mod_right, Nat.mod_eq_of_lt (by omega)]
      omega
    refine ⟨fun req => uses_findFreeIndices (hwrap hbm (by omega)) (by omega), fun i used => ?_, fun req => ?_, fun j used => ?_,
      fun i => uses_mofsReadInode i (h i), fun i x => uses_mofsWriteInode i x (h i),
      fun i mask => uses_mofsInodeStampPersist i mask (h i)⟩
    · rw [setInodeBitmapBit]
      split
      · trivial
      next hin =>
      exact uses_setBitmapBit (bitBlk_lt (by omega) hib hbits) (by omega) h64 used
    · refine uses_mono (uses_findFreeIndices (hwrap htab (by omega)) (by omega)) fun l hl j hj => ?_
      have := hl j hj
      rw [Superblock.inData, u32, Nat.mod_eq_of_lt (by omega)]
      omega
    · rw [setDataBitmapBit]
      split
      · trivial
      next hin =>
      exact uses_setBitmapBit (bitBlk_lt (Nat.not_le.mp hin) hdb hbits) (by omega) h64 used

section Mounting

variable {cached : Bool} {stale : Nat → Option Block} {clock : Nat → UInt64} {d : Dev} {rootOwner : Option (Nat × Nat)}
  {env : Env} {t : Disk}

/-- What mounting checks of the device: the superblock is complete, and has the magic number, a block size that can be used
and the number of blocks of the device. A new owner of the root directory also needs the root inode in a block of the device. -/
structure Dev.Admitted (d : Dev) (rootOwner : Option (Nat × Nat)) : Prop where
  size : superblockBytes ≤ d.size
  magic : (decodeSuperblock d.bytes).magic = magicNum
  blk : ∃ k ≤ 7, (decodeSuperblock d.bytes).blkSize = 512 * 2 ^ k
  hole : d.size / (decodeSuperblock d.bytes).blkSize = (decodeSuperblock d.bytes).holeBlkNum
  root : rootOwner ≠ none → rootInodeNum < (decodeSuperblock d.bytes).inodeNum ∧
    (decodeSuperblock d.bytes).inodeTableStart < (decodeSuperblock d.bytes).holeBlkNum

theorem loadSuperblock_ok (h : loadSuperblock d.size d.bytes = .ok sb) :
    sb = decodeSuperblock d.bytes ∧ d.Admitted none := by
  rw [loadSuperblock] at h
  split at h
  · cases h
  next hsize =>
  dsimp only at h
  split at h
  · cases h
  next hmagic =>
  cases hv : validateLogicalBlkSize (decodeSuperblock d.bytes).blkSize with
  | error e =>
    rw [hv] at h
    cases h
  | ok u =>
    rw [hv] at h
    change (if _ then _ else _) = _ at h
    split at h
    · cases h
    next hhole =>
    cases h
    exact ⟨rfl, Nat.not_lt.mp hsize, not_not.mp hmagic, validate_ok hv, not_not.mp hhole, fun h => absurd rfl h⟩

theorem Dev.Admitted.load (h : d.Admitted rootOwner) : loadSuperblock d.size d.bytes = .ok (decodeSuperblock d.bytes) := by
  obtain ⟨k, hk, hblk⟩ := h.blk
  rw [loadSuperblock, if_neg (Nat.not_lt.mpr h.size)]
  dsimp only
  rw [if_neg (not_not.mpr h.magic), validate_of_pow hk hblk]
  exact if_neg (not_not.mpr h.hole)

theorem mofsInitCore_ok (h : mofsInitCore cached stale clock d rootOwner = some (.ok (sb, env), t)) :
    loadSuperblock d.size d.bytes = .ok sb := by
  rw [mofsInitCore] at h
  split at h
  · cases h
  next sb' hload =>
  dsimp only at h
  split at h
  · cases h
    exact hload
  · split at h
    · cases h
    · cases h
    · cases h
      exact hload

/-- The update of the root owner goes through exactly when the root inode is in a block of the device. -/
theorem updateRootOwner_ok_iff (env : Env) (h : d.Admitted none) (henv : env.blkSize = (decodeSuperblock d.bytes).blkSize)
    (hsize : env.size = d.size) (t : Disk) (uid gid : Nat) : (∃ t', exec env (updateRootOwner (decodeSuperblock d.bytes) uid gid) t = some (.ok (), t')) ↔
      rootInodeNum < (decodeSuperblock d.bytes).inodeNum ∧
        (decodeSuperblock d.bytes).inodeTableStart < (decodeSuperblock d.bytes).holeBlkNum := by
  obtain ⟨k, -, hblk⟩ := h.blk
  have hhole := h.hole
  have h32 : (decodeSuperblock d.bytes).inodeTableStart < 4294967296 := leNat_lt _ _ 4
  generalize decodeSuperblock d.bytes = sb at *
  have hB : 512 ≤ sb.blkSize := by
    have := Nat.one_le_two_pow (n := k)
    omega
  have hfit : sb.inodeTableStart < sb.holeBlkNum ↔ (sb.inodeTableStart + 1) * env.blkSize ≤ env.size := by
    rw [← hhole, henv, hsize, ← Nat.succ_le_iff, Nat.le_div_iff_mul_le (by omega)]
  constructor
  · rintro ⟨t', ht⟩
    obtain ⟨x, u, hread, -⟩ := run_bind_eq_ok ht
    by_cases hi : rootInodeNum < sb.inodeNum
    · refine ⟨hi, ?_⟩
      by_contra hno
      rw [mofsReadInode, if_neg (root_inRange hi), (rootBlk_eq hB h32).1,
        run_bind_error (exec_readFull_short (fun hle => hno (hfit.mpr hle)) t)] at hread
      cases hread
    · rw [mofsReadInode, if_pos (.inr (Nat.not_lt.mp hi))] at hread
      cases hread
  · rintro ⟨hi, hlt⟩
    exact ⟨_, exec_updateRootOwner env t uid gid hB h32 hi henv (hfit.mp hlt)⟩

/-- Mounting succeeds exactly when its checks pass. -/
theorem mofsInitCore_ok_iff (cached : Bool) (stale : Nat → Option Block) (clock : Nat → UInt64) (d : Dev)
    (rootOwner : Option (Nat × Nat)) :
    (∃ sb env t, mofsInitCore cached stale clock d rootOwner = some (.ok (sb, env), t)) ↔ d.Admitted rootOwner := by
  have hrun (h : d.Admitted none) (o : Nat × Nat) :=
    updateRootOwner_ok_iff ⟨(decodeSuperblock d.bytes).blkSize, d.size, cached, stale, clock⟩ h rfl rfl
      (diskOf (decodeSuperblock d.bytes).blkSize d.bytes) o.1 o.2
  constructor
  · rintro ⟨sb, env, t, hmount⟩
    obtain ⟨rfl, hnone⟩ := loadSuperblock_ok (mofsInitCore_ok hmount)
    refine { hnone with root := fun hroot => ?_ }
    obtain ⟨o, rfl⟩ := Option.ne_none_iff_exists'.mp hroot
    apply (hrun hnone o).mp
    rw [mofsInitCore, hnone.load] at hmount
    dsimp only at hmount
    split at hmount
    · cases hmount
    · cases hmount
    · next t' ht => exact ⟨t', ht⟩
  · intro h
    cases rootOwner with
    | none => exact ⟨_, _, _, by rw [mofsInitCore, h.load]⟩
    | some o =>
      obtain ⟨t, ht⟩ := (hrun { h with root := fun hno => absurd rfl hno } o).mpr (h.root (by rintro ⟨⟩))
      exact ⟨_, _, t, by simp only [mofsInitCore, h.load, ht]; rfl⟩

/-- Mounting does not look at the regions: a mounted volume has sane regions that contain all accesses if and only if, should
the fields that are checked be right, the others describe sane regions and an inode table that can be addressed in `int`. -/
theorem mount_admits_iff (cached : Bool) (stale : Nat → Option Block) (clock : Nat → UInt64) (d : Dev)
    (rootOwner : Option (Nat × Nat)) :
    (∀ sb env t, mofsInitCore cached stale clock d rootOwner = some (.ok (sb, env), t) → sb.Sane ∧ sb.Contained) ↔
      (d.Admitted rootOwner → (decodeSuperblock d.bytes).Sane ∧ (decodeSuperblock d.bytes).TableInInt) := by
  have hiff (h : d.Admitted none) (hS : (decodeSuperblock d.bytes).Sane) :=
    contained_iff hS (leNat_lt _ _ 4) h.blk
  constructor
  · intro h hadmitted
    obtain ⟨sb, env, t, hmount⟩ := (mofsInitCore_ok_iff cached stale clock d rootOwner).mpr hadmitted
    obtain ⟨hS, hC⟩ := h sb env t hmount
    obtain ⟨rfl, hnone⟩ := loadSuperblock_ok (mofsInitCore_ok hmount)
    exact ⟨hS, (hiff hnone hS).mp hC⟩
  · intro h sb env t hmount
    obtain ⟨hS, hT⟩ := h ((mofsInitCore_ok_iff cached stale clock d rootOwner).mp ⟨sb, env, t, hmount⟩)
    obtain ⟨rfl, hnone⟩ := loadSuperblock_ok (mofsInitCore_ok hmount)
    exact ⟨hS, (hiff hnone hS).mpr hT⟩

/-- A superblock with the right magic number and size, and all regions at block 0. -/
def craftedSuperblock : Superblock := ⟨magicNum, 16, 64, 16, 0, 0, 0, 0, 512⟩

def craftedDev : Dev where
  size := 16 * 512
  growable := false
  bytes := splice (fun _ => 0) 0 (encodeSuperblock craftedSuperblock)
  log := []
  clock := fun _ => 0
  ticks := 0

/-- A volume is mounted whose root inode is read from block 0, where the superblock is. -/
theorem mount_admits_crafted : ∃ sb env t,
    mofsInitCore false (fun _ => none) (fun _ => 0) craftedDev none = some (.ok (sb, env), t) ∧ ¬ sb.Sane ∧
      ¬ sb.Contained ∧ inodeBlk sb rootInodeNum = 0 := by
  have hdecode : decodeSuperblock craftedDev.bytes = craftedSuperblock :=
    decodeSuperblock_splice _ rfl (by decide) (by decide) (by decide) (by decide) (by decide) (by decide) (by decide) (by decide)
  have hload : loadSuperblock craftedDev.size craftedDev.bytes = .ok craftedSuperblock := by
    rw [loadSuperblock, if_neg (by decide), hdecode]
    rfl
  refine ⟨craftedSuperblock, _, _, by rw [mofsInitCore, hload], fun hS => absurd hS.start_pos (by decide), fun hC => ?_, by decide⟩
  have := hC.readInode rootInodeNum
  rw [mofsReadInode, if_neg (by decide)] at this
  exact absurd this.1.2 (by decide)

end Mounting

end Mofs
