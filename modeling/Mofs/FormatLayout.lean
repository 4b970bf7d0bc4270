import Mofs.Usable

namespace Mofs

open Effect Bytes

variable {d d' : Dev} {fsSize blkSize : Int} {bytes blk : Nat}

/-- Arithmetic of `unsigned long long`. -/
abbrev off64 (n : Nat) : Nat := n % 18446744073709551616

/-- The layout arithmetic of `mofs_format` in the types of the source: `bpi` is 32 bits wide, all else 64. -/
def geometryU64 (devSize blk : Nat) : Geometry :=
  let bpi := u32 (blk * 4)
  let hole := devSize / blk
  let inodeNum := off64 (devSize + u32 (bpi + 4294967295)) / bpi
  { holeBlkNum := hole
    inodeNum := inodeNum
    inodeBitmapBlkNum := off64 (off64 (inodeNum + off64 (blk * 8)) + 18446744073709551615) / off64 (blk * 8)
    inodeTableBlkNum := off64 (off64 (off64 (inodeNum * inodeBytes) + blk) + 18446744073709551615) / blk
    dataBitmapBlkNum := off64 (off64 (hole + off64 (blk * 8)) + 18446744073709551615) / off64 (blk * 8) }

theorem off64_sub_one {n : Nat} (h0 : 0 < n) (h : n < 18446744073709551616) : off64 (off64 n + 18446744073709551615) = n - 1 := by
  rw [off64, off64, Nat.mod_eq_of_lt h]
  omega

/-- Nothing wraps on a device of less than `2^63` bytes. -/
theorem geometryU64_eq (hval : validateLogicalBlkSize blk = .ok ()) (h63 : bytes < 9223372036854775808) :
    geometryU64 bytes blk = geometry bytes blk := by
  obtain ⟨k, hk7, hk⟩ := validate_ok hval
  have hlo := Nat.one_le_two_pow (n := k)
  have hhi : 2 ^ k ≤ 2 ^ 7 := Nat.pow_le_pow_right (by omega) hk7
  have hbpi : u32 (blk * 4) = blk * 4 := Nat.mod_eq_of_lt (by omega)
  have hbpi1 : u32 (blk * 4 + 4294967295) = blk * 4 - 1 := by rw [u32]; omega
  have hsum : off64 (bytes + (blk * 4 - 1)) = bytes + (blk * 4 - 1) := Nat.mod_eq_of_lt (by omega)
  have h8 : off64 (blk * 8) = blk * 8 := Nat.mod_eq_of_lt (by omega)
  have hhole := Nat.div_le_self bytes blk
  have hnum : (bytes + (blk * 4 - 1)) / (blk * 4) ≤ (bytes + (blk * 4 - 1)) / 2048 :=
    Nat.div_le_div_left (by omega) (by decide)
  simp only [geometryU64, geometry, hbpi, hbpi1, hsum, h8, inodeBytes]
  generalize (bytes + (blk * 4 - 1)) / (blk * 4) = num at hnum
  generalize bytes / blk = hole at hhole
  have hmul : off64 (num * 64) = num * 64 := Nat.mod_eq_of_lt (by omega)
  rw [hmul, off64_sub_one (by omega) (by omega), off64_sub_one (by omega) (by omega), off64_sub_one (by omega) (by omega)]

/-- The superblock `sb` says what the layout `g` says: every field has its untruncated value, the regions follow one
another from block 1 on and fill the volume, and each is large enough for what it indexes. -/
structure ExactLayout (sb : Superblock) (g : Geometry) (blk : Nat) : Prop where
  size : sb.blkSize = blk
  hole : sb.holeBlkNum = g.holeBlkNum
  inodes : sb.inodeNum = g.inodeNum
  data : sb.dataBlkNum = g.holeBlkNum - g.metaReserved
  room : g.metaReserved < g.holeBlkNum
  inodeBitmap : sb.inodeBitmapStart = 1
  dataBitmap : sb.dataBitmapStart = sb.inodeBitmapStart + g.inodeBitmapBlkNum
  inodeTable : sb.inodeTableStart = sb.dataBitmapStart + g.dataBitmapBlkNum
  dataRegion : sb.dataRegionStart = sb.inodeTableStart + g.inodeTableBlkNum
  whole : sb.dataRegionStart + sb.dataBlkNum = sb.holeBlkNum
  inodeBits : sb.inodeNum ≤ g.inodeBitmapBlkNum * blk * 8
  dataBits : sb.dataBlkNum ≤ g.dataBitmapBlkNum * blk * 8
  table : 64 * sb.inodeNum ≤ g.inodeTableBlkNum * blk

theorem Made.exactLayout {sb : Superblock} {now : UInt64} (h : Made d d' bytes blk sb now) :
    ExactLayout sb (geometry bytes blk) blk := by
  have hsb := geometry_superblock h.fit h.blk_pos h.hole_le
  have hl := h.laid
  have hr := h.regions
  rw [← h.eq] at hsb
  have hibs : sb.inodeBitmapStart = 1 := by rw [hsb]
  have hdbs : sb.dataBitmapStart = 1 + (geometry bytes blk).inodeBitmapBlkNum := by rw [hsb]
  have hits : sb.inodeTableStart = sb.dataBitmapStart + (geometry bytes blk).dataBitmapBlkNum := by rw [hsb]
  have hdrs : sb.dataRegionStart = sb.inodeTableStart + (geometry bytes blk).inodeTableBlkNum := by
    rw [hsb]
    rfl
  have hblk : sb.blkSize = blk := by rw [hsb]
  have hib := hl.inodeBitmap
  have hdb := hl.dataBitmap
  have hit := hl.inodeTable
  rw [hdbs, hibs, Nat.add_sub_cancel_left, hblk, ← Nat.mul_assoc] at hib
  rw [hits, Nat.add_sub_cancel_left, hblk, ← Nat.mul_assoc] at hdb
  rw [hdrs, Nat.add_sub_cancel_left, hblk, Nat.mul_comm] at hit
  exact ⟨hblk, by rw [hsb], by rw [hsb], by rw [hsb], h.fit, hibs, by rw [hdbs, hibs], hits, hdrs, hr.full, hib, hdb, hit⟩

/-- The superblock is one that `mofs_format` writes, on some device with some arguments. -/
def Superblock.FromFormat (sb : Superblock) : Prop :=
  ∃ d d' fsSize blkSize, run Dev.answer (mofsFormat fsSize blkSize) d = some (.ok (), d') ∧ decodeSuperblock d'.bytes = sb

theorem Superblock.FromFormat.laid {sb : Superblock} (h : sb.FromFormat) : sb.Laid := by
  obtain ⟨d, d', fsSize, blkSize, hrun, rfl⟩ := h
  obtain ⟨sb, now, hmade⟩ := made_of_run rfl hrun
  rw [hmade.formatted.super]
  exact hmade.laid

theorem fromFormat_blankDev {blocks : Nat} (h8 : 8 < blocks) (h32 : blocks ≤ 4294967295) :
    ((geometry (blocks * 512) 512).superblock 512).FromFormat := by
  have hroom := geometry_room (show 512 = 512 * 2 ^ 0 by decide) (show 8 * 512 < blocks * 512 by omega)
  have hhole : (geometry (blocks * 512) 512).holeBlkNum = blocks := Nat.mul_div_cancel _ (by decide)
  obtain ⟨d', hrun⟩ := returns_blankDev (Nat.le_refl blocks) (by omega) (by omega) h32
  obtain ⟨sb, now, hmade⟩ := made_of_run (show 512 = if (0 : Int) ≤ 512 then (512 : Int).toNat else blkSizeDefault by
    decide) hrun
  rw [if_pos (by omega), Int.toNat_natCast] at hmade
  exact ⟨_, d', _, _, hrun, hmade.formatted.super.trans hmade.eq⟩

/-- The block size that `mofs_format` works with. -/
def effBlkBytes (blkSize : Int) : Nat := if 0 ≤ blkSize then blkSize.toNat else blkSizeDefault

/-- The size in bytes that `mofs_format` lays out. -/
def volumeBytes (devSize : Nat) (fsSize blkSize : Int) : Nat :=
  if 0 < fsSize then fsSize.toNat * effBlkBytes blkSize else devSize

theorem volumeBytes_lt {devSize : Nat} (hval : validateLogicalBlkSize (effBlkBytes blkSize) = .ok ())
    (h63 : devSize < 9223372036854775808) (hfs : fsSize < 2147483648) :
    volumeBytes devSize fsSize blkSize < 9223372036854775808 := by
  obtain ⟨k, hk7, hk⟩ := validate_ok hval
  have hhi : 2 ^ k ≤ 2 ^ 7 := Nat.pow_le_pow_right (by omega) hk7
  rw [volumeBytes]
  split
  · calc fsSize.toNat * effBlkBytes blkSize
        ≤ 2147483648 * 65536 := Nat.mul_le_mul (by omega) (by omega)
      _ < 9223372036854775808 := by decide
  · exact h63

/-- The layout arithmetic is exact: what the 64-bit arithmetic of the source computes is the layout itself, and the
32-bit fields of the superblock on the device hold it. -/
theorem mofsFormat_layout_exact (h63 : d.size < 9223372036854775808) (hfs : fsSize < 2147483648)
    (hrun : run Dev.answer (mofsFormat fsSize blkSize) d = some (.ok (), d')) :
    geometryU64 (volumeBytes d.size fsSize blkSize) (effBlkBytes blkSize) =
        geometry (volumeBytes d.size fsSize blkSize) (effBlkBytes blkSize) ∧
      ExactLayout (decodeSuperblock d'.bytes) (geometry (volumeBytes d.size fsSize blkSize) (effBlkBytes blkSize))
        (effBlkBytes blkSize) := by
  obtain ⟨sb, now, hmade⟩ := made_of_run (show effBlkBytes blkSize = _ from rfl) hrun
  obtain ⟨k, hk7, hk⟩ := hmade.pow
  have hval := validate_of_pow hk7 hk
  rw [hmade.formatted.super]
  exact ⟨geometryU64_eq hval (volumeBytes_lt hval h63 hfs), hmade.exactLayout⟩

theorem mofsFormat_layout_exact_sixteen : ∃ d', (blankDev 16).size < 9223372036854775808 ∧ (16 : Int) < 2147483648 ∧
    run Dev.answer (mofsFormat 16 512) (blankDev 16) = some (.ok (), d') ∧
    ExactLayout (decodeSuperblock d'.bytes) (geometry 8192 512) 512 := by
  obtain ⟨d', hrun⟩ := returns_blankDev (show 16 ≤ 16 by decide) (by decide) (by decide) (by decide)
  exact ⟨d', by decide, by decide, hrun, (mofsFormat_layout_exact (by decide) (by decide) hrun).2⟩

section Rejected

/-- The device fails a program with I/O errors only. -/
def OnlyEio {α : Type} (p : F α) : Prop := ∀ d e d', run Dev.answer p d = some (.error e, d') → e = .eio

theorem OnlyEio.bind {α β : Type} {p : F α} {f : α → F β} (hp : OnlyEio p) (hf : ∀ a, OnlyEio (f a)) : OnlyEio (p >>= f) := by
  intro d e d' h
  rcases run_bind_eq_error h with h | ⟨a, u, -, h⟩
  · exact hp d e d' h
  · exact hf a u e d' h

theorem onlyEio_seekWriteExact (off : Nat) (bs : List UInt8) : OnlyEio (seekWriteExact off bs) := by
  intro d e d' h
  change run Dev.answer (ofExcept (Dev.answer (.write off bs) d).1) (Dev.answer (.write off bs) d).2 = _ at h
  by_cases hg : off + bs.length ≤ d.size ∨ d.growable = true
  · have ha : Dev.answer (.write off bs) d = (.ok (), d.put off bs) := if_pos hg
    rw [ha] at h
    cases h
  · have ha : Dev.answer (.write off bs) d =
        (.error .eio, { d with bytes := splice d.bytes off (bs.take (d.size - off)) }) := if_neg hg
    rw [ha] at h
    cases h
    rfl

theorem onlyEio_clearRange (blk n block : Nat) : OnlyEio (clearRange blk n block) := by
  induction n generalizing block with
  | zero =>
    intro d e d' h
    cases h
  | succ n ih => exact (onlyEio_seekWriteExact _ _).bind fun _ => ih _

theorem onlyEio_formatRoot (sb : Superblock) : OnlyEio (formatRoot sb) := by
  have hnow : OnlyEio devNow := by
    intro d e d' h
    cases h
  exact (onlyEio_seekWriteExact _ _).bind fun _ => (onlyEio_seekWriteExact _ _).bind fun _ =>
    (onlyEio_seekWriteExact _ _).bind fun _ => (onlyEio_seekWriteExact _ _).bind fun _ =>
    (onlyEio_seekWriteExact _ _).bind fun _ => hnow.bind fun _ => onlyEio_seekWriteExact _ _

/-- The layout is possible, but it has more blocks than a superblock can say. -/
def TooManyBlocks (devSize : Nat) (fsSize blkSize : Int) : Prop :=
  validateLogicalBlkSize (effBlkBytes blkSize) = .ok () ∧
    (geometry (volumeBytes devSize fsSize blkSize) (effBlkBytes blkSize)).metaReserved <
      (geometry (volumeBytes devSize fsSize blkSize) (effBlkBytes blkSize)).holeBlkNum ∧
    4294967295 < (geometry (volumeBytes devSize fsSize blkSize) (effBlkBytes blkSize)).holeBlkNum

/-- The bytes in front of the data region. -/
def metaBytes (devSize : Nat) (fsSize blkSize : Int) : Nat :=
  (geometry (volumeBytes devSize fsSize blkSize) (effBlkBytes blkSize)).metaReserved * effBlkBytes blkSize

theorem run_volumeBytes (d : Dev) (fsSize blkSize : Int) :
    run Dev.answer (if 0 < fsSize then pure (fsSize.toNat * effBlkBytes blkSize) else devGetSize : F Nat) d =
      some (.ok (volumeBytes d.size fsSize blkSize), d) := by
  rw [volumeBytes]
  split
  · rfl
  · rfl

/-- A format is rejected before its first write, or after it has cleared all metadata blocks. -/
theorem rejected_format (hrun : run Dev.answer (mofsFormat fsSize blkSize) d = some (.error .einval, d')) :
    (¬ TooManyBlocks d.size fsSize blkSize ∧ d' = d) ∨ (TooManyBlocks d.size fsSize blkSize ∧
      Wrote d (clearWrites (effBlkBytes blkSize)
        (geometry (volumeBytes d.size fsSize blkSize) (effBlkBytes blkSize)).metaReserved 0) d') := by
  rw [mofsFormat, ← effBlkBytes] at hrun
  cases hval : validateLogicalBlkSize (effBlkBytes blkSize) with
  | error e =>
    rw [hval, run_bind_error (run_ofExcept _)] at hrun
    cases hrun
    refine .inl ⟨fun h => ?_, rfl⟩
    rw [h.1] at hval
    cases hval
  | ok u =>
    rw [hval, run_bind_ok (run_ofExcept _), run_bind_ok (run_volumeBytes d fsSize blkSize)] at hrun
    dsimp only at hrun
    split at hrun
    · next hfit =>
      cases hrun
      exact .inl ⟨fun h => absurd h.2.1 (Nat.not_lt.mpr hfit), rfl⟩
    · next hfit =>
      rcases run_bind_eq_error hrun with h | ⟨_, d₁, hclear, h⟩
      · exact absurd (onlyEio_clearRange _ _ _ d _ d' h) (by decide)
      · split at h
        · next h32 =>
          cases h
          exact .inr ⟨⟨hval, Nat.not_le.mp hfit, h32⟩, wrote_clearRange hclear⟩
        · exact absurd ((onlyEio_seekWriteExact _ _).bind (fun _ => onlyEio_formatRoot _) d₁ _ d' h) (by decide)

/-- A rejected format has left the device alone, unless the volume has too many blocks: then all its metadata blocks
are zero. -/
theorem rejected_format_intact_iff (hrun : run Dev.answer (mofsFormat fsSize blkSize) d = some (.error .einval, d')) :
    d'.bytes = d.bytes ↔
      (TooManyBlocks d.size fsSize blkSize → ∀ k < metaBytes d.size fsSize blkSize, d.bytes k = 0) := by
  rcases rejected_format hrun with ⟨hno, rfl⟩ | ⟨hmany, hw⟩
  · exact ⟨fun _ h => absurd h hno, fun _ => rfl⟩
  · have hbytes (k : Nat) : d'.bytes k = if k < metaBytes d.size fsSize blkSize then 0 else d.bytes k := by
      rw [hw.bytes, foldl_clearWrites, Nat.zero_mul, Nat.zero_add, metaBytes]
      simp only [Nat.zero_le, true_and]
    constructor
    · intro he _ k hk
      rw [← he, hbytes, if_pos hk]
    · intro hz
      funext k
      rw [hbytes]
      split
      · next hk => exact (hz hmany k hk).symm
      · rfl

/-- A device of `2^32` blocks of 512 bytes, none of them zero. -/
def hugeDev : Dev := ⟨2199023255552, false, fun _ => 1, [], fun _ => 0, 0⟩

theorem hugeDev_rejected : ∃ d', run Dev.answer (mofsFormat 0 512) hugeDev = some (.error .einval, d') := by
  have hends : ∀ w ∈ clearWrites 512 (geometry 2199023255552 512).metaReserved 0, w.1 + w.2.length ≤ hugeDev.size := by
    intro w hw
    obtain ⟨b, hb, rfl⟩ := List.mem_map.mp hw
    have hb : b < (geometry 2199023255552 512).metaReserved := by simpa using hb
    have hmeta : (geometry 2199023255552 512).metaReserved ≤ 4294967296 := by decide
    simp only [List.length_replicate]
    change b * 512 + 512 ≤ 2199023255552
    omega
  obtain ⟨d', hclear, -⟩ := returns_clearRange hends
  refine ⟨d', ?_⟩
  rw [mofsFormat, ← effBlkBytes, show effBlkBytes 512 = 512 from rfl, show validateLogicalBlkSize 512 = .ok () from rfl,
    run_bind_ok (run_ofExcept _)]
  have hsize : run Dev.answer (if (0 : Int) < 0 then pure ((0 : Int).toNat * 512) else devGetSize : F Nat) hugeDev =
      some (.ok 2199023255552, hugeDev) := rfl
  rw [run_bind_ok hsize]
  dsimp only
  rw [if_neg (by decide), run_bind_ok hclear, if_pos (by decide)]
  rfl

/-- The rejected format of a device that is too large for its block size has erased the start of the device. -/
theorem rejected_format_not_intact : ∃ d', run Dev.answer (mofsFormat 0 512) hugeDev = some (.error .einval, d') ∧
    d'.bytes ≠ hugeDev.bytes := by
  obtain ⟨d', hrun⟩ := hugeDev_rejected
  refine ⟨d', hrun, fun he => ?_⟩
  rcases rejected_format hrun with ⟨hno, -⟩ | ⟨-, hw⟩
  · exact hno ⟨rfl, by decide, by decide⟩
  · have h0 : d'.bytes 0 = 0 := by
      rw [hw.bytes, foldl_clearWrites, if_pos (by decide)]
    rw [he] at h0
    cases h0

/-- An unsupported block size is rejected before anything is written. -/
theorem rejected_format_intact_iff_zero : run Dev.answer (mofsFormat 16 0) (blankDev 16) = some (.error .einval, blankDev 16) ∧
    ((blankDev 16).bytes = (blankDev 16).bytes ↔
      (TooManyBlocks (blankDev 16).size 16 0 → ∀ k < metaBytes (blankDev 16).size 16 0, (blankDev 16).bytes k = 0)) :=
  ⟨rfl, rejected_format_intact_iff rfl⟩

end Rejected

end Mofs
