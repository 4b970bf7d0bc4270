import Mofs.FileModel

namespace Mofs

open Effect Bytes

variable {sb : Superblock} {V W : View} {G H : Owners} {i off n : Nat}

/-- The gap bytes that a write behind the end of the file does not touch: those in front of the block it starts in.
They lie in the last block of the file and in the free blocks the write appends, lowest numbers first. -/
def CleanGap (sb : Superblock) (V : View) (G : Owners) (i off n : Nat) : Prop :=
  ∀ q, (V.inode i).iSize.toNat ≤ q → q / sb.blkSize < off / sb.blkSize →
    bytesOf sb.blkSize V.blk
      (G.data i ++ sb.abs ((sb.freeData V).take (sb.blocksFor (off + n) - (G.data i).length))) q = 0

/-- What a file should hold after a write behind its end. -/
def withHole (sb : Superblock) (V : View) (G : Owners) (i off : Nat) (data : List UInt8) : List UInt8 :=
  fileBytes sb V G i ++ List.replicate (off - (V.inode i).iSize.toNat) 0 ++ data

@[simp] theorem length_withHole {data : List UInt8} (hoff : (V.inode i).iSize.toNat ≤ off) :
    (withHole sb V G i off data).length = off + data.length := by
  simp [withHole]
  omega

section

variable {data : List UInt8}

theorem getElem_withHole {q : Nat} (hoff : (V.inode i).iSize.toNat ≤ off)
    (hq : q < (withHole sb V G i off data).length) :
    (withHole sb V G i off data)[q] =
      if off ≤ q then data.getD (q - off) 0
      else if q < (V.inode i).iSize.toNat then bytesOf sb.blkSize V.blk (G.data i) q else 0 := by
  rw [length_withHole hoff] at hq
  by_cases h1 : off ≤ q
  · have hlen : (fileBytes sb V G i ++ List.replicate (off - (V.inode i).iSize.toNat) 0).length = off := by
      simp
      omega
    rw [if_pos h1]
    simp only [withHole]
    rw [List.getElem_append_right (by omega), List.getD_eq_getElem _ _ (by omega)]
    simp only [hlen]
  · rw [if_neg h1]
    simp only [withHole]
    rw [List.getElem_append_left (by simp; omega)]
    by_cases h2 : q < (V.inode i).iSize.toNat
    · rw [if_pos h2, List.getElem_append_left (by simpa using h2)]
      simp [fileBytes]
    · rw [if_neg h2, List.getElem_append_right (by simpa using h2), List.getElem_replicate]

/-- A write behind the end gives the file a hole of zeros if and only if the bytes it does not touch were zero. -/
theorem withHole_iff (hB : 0 < sb.blkSize) (h : WrittenAt sb V W G H i off data)
    (hs : (G.data i).length = sb.blocksFor (V.inode i).iSize.toNat) (hoff : (V.inode i).iSize.toNat < off)
    (hdata : 0 < data.length) :
    fileBytes sb W H i = withHole sb V G i off data ↔ CleanGap sb V G i off data.length := by
  have hsize : (W.inode i).iSize.toNat = off + data.length := by rw [h.size]; omega
  have hlen := h.length hB hs
  -- the bytes after the write, one by one
  have hbyte : ∀ q < off + data.length, bytesOf sb.blkSize W.blk (H.data i) q =
      if off ≤ q then data.getD (q - off) 0
      else if q < (V.inode i).iSize.toNat then bytesOf sb.blkSize V.blk (G.data i) q
      else if q / sb.blkSize < off / sb.blkSize then bytesOf sb.blkSize V.blk (H.data i) q else 0 := by
    intro q hq
    rw [h.bytes q (by rw [hlen, hsize]; exact div_lt_of_lt hB hq), afterWrite]
    by_cases h1 : off ≤ q
    · rw [if_pos ⟨h1, hq⟩, if_pos h1]
    rw [if_neg (by omega), if_neg h1]
    have hle : q / sb.blkSize ≤ off / sb.blkSize := Nat.div_le_div_right (by omega)
    have hin : off / sb.blkSize < sb.blocksFor (off + data.length) := div_lt_of_lt hB (by omega)
    by_cases h2 : q < (V.inode i).iSize.toNat
    · have hold : q / sb.blkSize < sb.blocksFor (V.inode i).iSize.toNat := div_lt_of_lt hB h2
      rw [if_pos h2, if_neg (by omega), h.blocks]
      exact bytesOf_append (by rw [hs]; exact hold)
    rw [if_neg h2]
    by_cases h3 : q / sb.blkSize < off / sb.blkSize
    · rw [if_pos h3, if_neg fun hc => absurd hc.1.1 (by omega)]
    · rw [if_neg h3, if_pos ⟨⟨by omega, by omega⟩, .inl ⟨by omega, by omega⟩⟩]
  constructor
  · intro heq q hq hlt
    have hqo : q < off := Nat.lt_of_not_le fun hc => absurd (Nat.div_le_div_right hc) (Nat.not_le.mpr hlt)
    have hqw : q < (fileBytes sb W H i).length := by rw [length_fileBytes, hsize]; omega
    have hget := List.getElem_of_eq heq hqw
    rw [getElem_withHole hoff.le] at hget
    simp only [fileBytes, getElem_slice, Nat.zero_add] at hget
    rw [hbyte q (by omega), if_neg (by omega), if_neg (by omega), if_pos hlt, if_neg (by omega), if_neg (by omega)] at hget
    rw [← h.blocks]
    exact hget
  · intro hclean
    apply List.ext_getElem
    · rw [length_fileBytes, length_withHole hoff.le, hsize]
    · intro q hq hq'
      rw [length_withHole hoff.le] at hq'
      rw [getElem_withHole hoff.le]
      simp only [fileBytes, getElem_slice, Nat.zero_add]
      rw [hbyte q hq']
      by_cases h1 : off ≤ q
      · rw [if_pos h1, if_pos h1]
      rw [if_neg h1, if_neg h1]
      by_cases h2 : q < (V.inode i).iSize.toNat
      · rw [if_pos h2, if_pos h2]
      rw [if_neg h2, if_neg h2]
      by_cases h3 : q / sb.blkSize < off / sb.blkSize
      · rw [if_pos h3, h.blocks]
        exact hclean q (by omega) h3
      · rw [if_neg h3]

end

namespace Mount

/-- A write behind the end that succeeded, and then a read of the whole file. -/
theorem reads_after_sparseWrite (m : Mount) {d d₁ : Disk} {user reader : User} {hd hd' rd : FileHandle}
    {data : List UInt8} {upd : Bool} (upd' : Bool) (h : Wf m.sb (m.sb.view d) G)
    (hi : (m.sb.view d).ibit hd.inodeNum = true)
    (hs : (G.data hd.inodeNum).length = m.sb.blocksFor ((m.sb.view d).inode hd.inodeNum).iSize.toNat)
    (hoff : ((m.sb.view d).inode hd.inodeNum).iSize.toNat < off) (hmax : off < mofsMaxFileBytes m.sb) (hdata : data ≠ [])
    (hwrite : exec m.env (mofsWriteCore m.sb user hd data off upd) d = some (.ok (.ok n, hd'), d₁))
    (hrd : rd.inodeNum = hd.inodeNum)
    (hread : readChecks reader rd (off + n) 0 ((m.sb.view d).inode hd.inodeNum) = .ok ()) :
    0 < n ∧ n = min data.length (mofsMaxFileBytes m.sb - off) ∧
    ∃ bs rd' d₂, exec m.env (mofsReadCore m.sb reader rd (off + n) 0 upd') d₁ = some (.ok (.ok bs, rd'), d₂) ∧
      (bs = withHole m.sb (m.sb.view d) G hd.inodeNum off (data.take n) ↔
        CleanGap m.sb (m.sb.view d) G hd.inodeNum off n) := by
  have hB := m.ok.blk_pos
  have hpost := (m.ensures_mofsWriteCore h hi (fun _ => hs)).of_exec rfl hwrite
  cases hchk : writeChecks m.sb user hd data.length off ((m.sb.view d).inode hd.inodeNum) with
  | error e =>
    rw [hchk] at hpost
    cases hpost.1
  | ok u =>
    rw [hchk] at hpost
    simp only [Int.toNat_natCast] at hpost
    split at hpost
    · cases hpost.1
    obtain ⟨hr, H, hW⟩ := hpost
    have hn : n = min data.length (mofsMaxFileBytes m.sb - off) := by
      simp only [Except.ok.injEq, Prod.mk.injEq] at hr
      rw [hr.1, List.length_take, Nat.min_comm]
    have hfit : data.take (mofsMaxFileBytes m.sb - off) = data.take n := by
      rw [List.take_eq_take_iff, hn]
      omega
    have hlen : (data.take n).length = n := by rw [List.length_take, hn]; omega
    have hpos : 0 < n := by
      have := List.length_pos_iff.mpr hdata
      omega
    rw [hfit] at hW
    have hmaxle : mofsMaxFileBytes m.sb ≤ 1024 * 65536 := Nat.mul_le_mul_left 1024 m.ok.blk_le
    have hsize : ((m.sb.view d₁).inode hd.inodeNum).iSize.toNat = off + n := by rw [hW.size, hlen]; omega
    have hfile := hW.frame.wf.fileAt (i := hd.inodeNum) (by rw [hW.ibit]; exact hi)
    rw [← hrd] at hfile
    obtain ⟨r, d₂, hexec, hbytes⟩ := (m.ensures_mofsReadCore reader rd 0 upd' hfile
      (fun _ => by rw [hrd]; exact hW.length hB hs) (show off + n < 2147483648 by omega)).exists rfl
    rw [hrd, hW.attrs.readChecks, hread] at hbytes
    obtain ⟨rfl, -⟩ := hbytes
    refine ⟨hpos, hn, _, _, d₂, hexec, ?_⟩
    have hiff := withHole_iff hB hW hs hoff (by omega)
    rw [hlen] at hiff
    rw [← hiff, fileBytes, hsize]
    simp

end Mount

/-- Holes read as zeros exactly when what the write appends without touching it was zero before. -/
theorem sparseWrite_reads_zeros_iff (m : Mount) {d d₁ : Disk} {user reader : User} {hd hd' rd : FileHandle}
    {data : List UInt8} {upd upd' : Bool} (h : Wf m.sb (m.sb.view d) G)
    (hi : (m.sb.view d).ibit hd.inodeNum = true)
    (hs : (G.data hd.inodeNum).length = m.sb.blocksFor ((m.sb.view d).inode hd.inodeNum).iSize.toNat)
    (hoff : ((m.sb.view d).inode hd.inodeNum).iSize.toNat < off) (hmax : off < mofsMaxFileBytes m.sb) (hdata : data ≠ [])
    (hwrite : exec m.env (mofsWriteCore m.sb user hd data off upd) d = some (.ok (.ok n, hd'), d₁))
    (hrd : rd.inodeNum = hd.inodeNum)
    (hread : readChecks reader rd (off + n) 0 ((m.sb.view d).inode hd.inodeNum) = .ok ()) :
    (∃ rd' d₂, exec m.env (mofsReadCore m.sb reader rd (off + n) 0 upd') d₁ =
      some (.ok (.ok (withHole m.sb (m.sb.view d) G hd.inodeNum off (data.take n)), rd'), d₂)) ↔
    CleanGap m.sb (m.sb.view d) G hd.inodeNum off n := by
  obtain ⟨-, -, bs, rd', d₂, hexec, hiff⟩ := m.reads_after_sparseWrite upd' h hi hs hoff hmax hdata hwrite hrd hread
  rw [← hiff]
  constructor
  · rintro ⟨rd'', d₃, hexec'⟩
    rw [hexec] at hexec'
    cases hexec'
    rfl
  · rintro rfl
    exact ⟨rd', d₂, hexec⟩

section

/-- The blocks a write at offset 512 of the empty file appends are the first two free ones. -/
theorem OneFile.cleanGap_iff {m : Mount} {d : Disk} {x : Block} (h : OneFile m d x) :
    CleanGap m.sb (m.sb.view d) (freshOwners m.sb) fileHandle.inodeNum 512 1 ↔ ∀ q < 512, x q = 0 := by
  have hB : m.sb.blkSize = 512 := by rw [h.sb]; rfl
  have hdata : (freshOwners m.sb).data fileHandle.inodeNum = [] := rfl
  have hsize : ((m.sb.view d).inode fileHandle.inodeNum).iSize.toNat = 0 := by rw [h.inode]; rfl
  have hbyte : ∀ q < 512, bytesOf 512 (m.sb.view d).blk
      ([] ++ m.sb.abs ((List.range' 2 10).take (m.sb.blocksFor (512 + 1) - 0))) q = x q := by
    intro q hq
    have hblocks : m.sb.blocksFor (512 + 1) = 2 := by rw [Superblock.blocksFor, hB]
    rw [hblocks, bytesOf, Nat.div_eq_of_lt hq, Nat.mod_eq_of_lt hq, ← h.blk]
    rfl
  rw [CleanGap, hB, hdata, hsize, h.free, List.length_nil]
  constructor
  · intro hc q hq
    rw [← hbyte q hq]
    exact hc q (Nat.zero_le q) (by omega)
  · intro hx q _ hq
    have hq : q < 512 := by omega
    rw [hbyte q hq, hx q hq]

theorem OneFile.readChecks_far {m : Mount} {d : Disk} {x : Block} (h : OneFile m d x) :
    readChecks fileOwner fileHandle (512 + 1) 0 ((m.sb.view d).inode fileHandle.inodeNum) = .ok () := by
  rw [h.inode]
  rfl

end

theorem sparseWrite_reads_zeros_clean : ∃ (m : Mount) (d d₁ : Disk),
    exec m.env (mofsWriteCore m.sb fileOwner fileHandle [120] (512 : Nat) false) d = some (.ok (.ok 1, fileHandle), d₁) ∧
    ((∃ rd' d₂, exec m.env (mofsReadCore m.sb fileOwner fileHandle (512 + 1) 0 false) d₁ =
      some (.ok (.ok (withHole m.sb (m.sb.view d) (freshOwners m.sb) fileHandle.inodeNum 512 [120]), rd'), d₂)) ↔
    CleanGap m.sb (m.sb.view d) (freshOwners m.sb) fileHandle.inodeNum 512 1) := by
  obtain ⟨m, d, h⟩ := exists_oneFile (fun _ => 0)
  obtain ⟨d₁, H, hexec, -⟩ := h.stores (show 512 < 1024 by decide)
  have hreg : ((m.sb.view d).inode fileHandle.inodeNum).isDir = false := by rw [h.inode]; rfl
  have hsize : ((m.sb.view d).inode fileHandle.inodeNum).iSize.toNat = 0 := by rw [h.inode]; rfl
  have hmax : 512 < mofsMaxFileBytes m.sb := by rw [h.sb]; decide
  exact ⟨m, d, d₁, hexec, sparseWrite_reads_zeros_iff m h.ok.wf h.ibit (h.ok.length h.ibit hreg)
    (by rw [hsize]; decide) hmax (by decide) hexec rfl h.readChecks_far⟩

/-- A byte written into the second block of an empty file makes the old content of a free block readable. -/
theorem sparseWrite_reads_stale : ∃ (m : Mount) (d d₁ d₂ : Disk) (bs : List UInt8) (rd : FileHandle),
    FilesOk m.sb (m.sb.view d) (freshOwners m.sb) ∧
    (m.sb.view d).ibit fileHandle.inodeNum = true ∧ ((m.sb.view d).inode fileHandle.inodeNum).iSize.toNat = 0 ∧
    exec m.env (mofsWriteCore m.sb fileOwner fileHandle [120] (512 : Nat) false) d = some (.ok (.ok 1, fileHandle), d₁) ∧
    exec m.env (mofsReadCore m.sb fileOwner fileHandle (512 + 1) 0 false) d₁ = some (.ok (.ok bs, rd), d₂) ∧
    bs ≠ List.replicate 512 0 ++ [120] := by
  obtain ⟨m, d, h⟩ := exists_oneFile (fun _ => 1)
  obtain ⟨d₁, H, hexec, -⟩ := h.stores (show 512 < 1024 by decide)
  have hreg : ((m.sb.view d).inode fileHandle.inodeNum).isDir = false := by rw [h.inode]; rfl
  have hsize : ((m.sb.view d).inode fileHandle.inodeNum).iSize.toNat = 0 := by rw [h.inode]; rfl
  have hmax : 512 < mofsMaxFileBytes m.sb := by rw [h.sb]; decide
  obtain ⟨-, -, bs, rd, d₂, hexec', hiff⟩ := m.reads_after_sparseWrite false h.ok.wf h.ibit
    (h.ok.length h.ibit hreg) (by rw [hsize]; decide) hmax (by decide) hexec rfl h.readChecks_far
  refine ⟨m, d, d₁, d₂, bs, rd, h.ok, h.ibit, hsize, hexec, hexec', fun hbs => ?_⟩
  have hhole : withHole m.sb (m.sb.view d) (freshOwners m.sb) fileHandle.inodeNum 512 ([120].take 1) =
      List.replicate 512 0 ++ [120] := by
    have hnil : fileBytes m.sb (m.sb.view d) (freshOwners m.sb) fileHandle.inodeNum = [] :=
      List.eq_nil_of_length_eq_zero (by rw [length_fileBytes, hsize])
    rw [withHole, hnil, hsize]
    rfl
  exact absurd (h.cleanGap_iff.mp (hiff.mp (hbs.trans hhole.symm)) 0 (by decide)) (by decide)

end Mofs
