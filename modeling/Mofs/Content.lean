import Mathlib.Data.List.Nodup
import Mofs.FileData
import Mofs.Release

namespace Mofs

open Effect Bytes

variable {sb : Superblock} {V W : View} {G H : Owners} {i : Nat} {ns ds : List Nat}

/-- The list of inode `i` alone: its nodes `ns` and its data blocks `ds`. -/
structure FileAt (sb : Superblock) (V : View) (i : Nat) (ns ds : List Nat) : Prop where
  range : i < sb.inodeNum
  chain : Chain sb V.blk (V.inode i).iDataHead.toNat ns ds
  nr : (V.inode i).iNrBlocks.toNat = ds.length
  max : ds.length ≤ maxFileDataBlocks
  nodup : (ns ++ ds).Nodup
  inData : ∀ b ∈ ns ++ ds, sb.inData b

theorem Wf.fileAt (h : Wf sb V G) (hi : V.ibit i = true) : FileAt sb V i (G.nodes i) (G.data i) :=
  ⟨h.range i hi, h.chain i hi, h.nr i hi, h.max i, h.nodup i, h.inData i⟩

namespace FileAt

theorem congr (h : FileAt sb V i ns ds) (hin : W.inode i = V.inode i) (hblk : ∀ b ∈ ns, W.blk b = V.blk b) :
    FileAt sb W i ns ds :=
  ⟨h.range, hin ▸ h.chain.congr fun b hb => (hblk b hb).symm, hin ▸ h.nr, h.max, h.nodup, h.inData⟩

theorem inData_get (h : FileAt sb V i ns ds) {k : Nat} (hk : k < ds.length) : sb.inData (ds.getD k 0) := by
  rw [List.getD_eq_getElem _ _ hk]
  exact h.inData _ (List.mem_append_right _ (List.getElem_mem hk))

theorem not_node (h : FileAt sb V i ns ds) {b : Nat} (hb : b ∈ ds) : b ∉ ns := fun hn =>
  (List.nodup_append.mp h.nodup).2.2 b hn b hb rfl

theorem data_nodup (h : FileAt sb V i ns ds) : ds.Nodup := (List.nodup_append.mp h.nodup).2.1

theorem get_inj (h : FileAt sb V i ns ds) {j k : Nat} (hj : j < ds.length) (hk : k < ds.length)
    (he : ds.getD j 0 = ds.getD k 0) : j = k := by
  rw [List.getD_eq_getElem _ _ hj, List.getD_eq_getElem _ _ hk] at he
  exact (List.Nodup.getElem_inj_iff h.data_nodup).mp he

theorem length_nodes_le (h : FileAt sb V i ns ds) : ns.length ≤ sb.dataBlkNum := by
  have hsub : ns ⊆ List.range' sb.dataRegionStart sb.dataBlkNum := fun b hb =>
    List.mem_range'_1.mpr (h.inData b (List.mem_append_left _ hb))
  have := ((List.nodup_append.mp h.nodup).1.subperm hsub).length_le
  simpa using this

end FileAt

/-- The bytes of a file with the data blocks `ds`. -/
def bytesOf (blkSize : Nat) (blk : Nat → Block) (ds : List Nat) : Nat → UInt8 :=
  fun p => blk (ds.getD (p / blkSize) 0) (p % blkSize)

theorem bytesOf_congr {blkSize q : Nat} {blk blk' : Nat → Block} {ds : List Nat} (h : ∀ b ∈ ds, blk b = blk' b)
    (hq : q / blkSize < ds.length) : bytesOf blkSize blk ds q = bytesOf blkSize blk' ds q := by
  rw [bytesOf, bytesOf, List.getD_eq_getElem _ _ hq, h _ (List.getElem_mem hq)]

/-- The number of blocks that `size` bytes take. -/
def Superblock.blocksFor (sb : Superblock) (size : Nat) : Nat := (size + sb.blkSize - 1) / sb.blkSize

section

variable {s n : Nat}

theorem blocksFor_le_iff (hB : 0 < sb.blkSize) : sb.blocksFor s ≤ n ↔ s ≤ n * sb.blkSize := by
  rw [Superblock.blocksFor]
  constructor
  · intro h
    exact (le_ceil_mul s hB).trans (Nat.mul_le_mul_right _ h)
  · exact ceil_le_of_le_mul hB

theorem lt_blocksFor_iff (hB : 0 < sb.blkSize) : n < sb.blocksFor s ↔ n * sb.blkSize < s := by
  rw [← Nat.not_le, blocksFor_le_iff hB, Nat.not_le]

/-- Only the last block of a file can be partial. -/
theorem div_lt_blocksFor (hB : 0 < sb.blkSize) : s / sb.blkSize < sb.blocksFor s ↔ s % sb.blkSize ≠ 0 := by
  have := Nat.div_add_mod s sb.blkSize
  rw [lt_blocksFor_iff hB, Nat.mul_comm]
  omega

theorem blocksFor_le_succ (hB : 0 < sb.blkSize) : sb.blocksFor s ≤ s / sb.blkSize + 1 := by
  have := Nat.div_add_mod s sb.blkSize
  have := Nat.mod_lt s hB
  rw [blocksFor_le_iff hB, Nat.add_mul, Nat.one_mul, Nat.mul_comm]
  omega

end

theorem add_div_of_div (o j B : Nat) (hB : 0 < B) : (o + j) / B = o / B + (o % B + j) / B := by
  conv_lhs => rw [← Nat.div_add_mod o B, Nat.add_assoc, Nat.mul_add_div hB]

theorem add_mod_of_div (o j B : Nat) : (o + j) % B = (o % B + j) % B := by
  conv_lhs => rw [← Nat.div_add_mod o B, Nat.add_assoc, Nat.mul_add_mod]

/-- What `read_file_data_block` returns for a file of `s` bytes in the blocks `ds`. -/
def fileRead (blkSize s : Nat) (blk : Nat → Block) (ds : List Nat) (start req : Nat) : FileRead :=
  if req = 0 ∨ ds.length ≤ start then ⟨0, 0, []⟩
  else
    let n := min req (ds.length - start)
    let buf := ((ds.drop start).take n).map blk
    if s / blkSize < start + n then ⟨n - 1, s % blkSize, buf⟩ else ⟨n, 0, buf⟩

namespace Mount

theorem ceilBlks_eq (m : Mount) {s : Nat} (h : m.sb.blocksFor s ≤ maxFileDataBlocks) :
    ceilBlks m.sb s = m.sb.blocksFor s := by
  have hB := m.ok.blk_pos
  have hle := m.ok.blk_le
  have hs := (blocksFor_le_iff hB).mp h
  have hmax : maxFileDataBlocks * m.sb.blkSize ≤ 1024 * 65536 := Nat.mul_le_mul_left 1024 hle
  rw [ceilBlks, u32, Nat.mod_eq_of_lt (by omega), Superblock.blocksFor]

theorem reads_resolveFileDataBlock (m : Mount) (h : FileAt m.sb V i ns ds) {k : Nat} (hk : k < ds.length) :
    m.Reads (resolveFileDataBlock m.sb i k) V (.ok (ds.getD k 0)) := by
  rw [resolveFileDataBlock, if_neg (m.not_isNeg' h.range)]
  refine Reads.bind (m.reads_mofsReadInode V h.range) ?_
  have hhead : (V.inode i).iDataHead.toNat ≠ 0 := h.chain.links.ne_null fun h' => by simp [h'] at hk
  rw [h.nr, if_neg (by omega), if_neg hhead]
  exact m.reads_resolveFrom h.chain (fun b hb => h.inData b (List.mem_append_left _ hb))
    (length_walk_lt m.ok h.length_nodes_le) hk

theorem reads_readBlocksFrom (m : Mount) (h : FileAt m.sb V i ns ds) {start n k : Nat} {buf : List Block}
    (hk : start + k + n ≤ ds.length) :
    m.Reads (readBlocksFrom m.sb i start n k buf) V
      (.ok ⟨k + n, 0, buf ++ ((ds.drop (start + k)).take n).map V.blk⟩) := by
  have hmax := h.max
  simp only [maxFileDataBlocks] at hmax
  induction n generalizing k buf with
  | zero => simpa [readBlocksFrom] using Reads.pure _
  | succ n ih =>
    have hlt : start + k < ds.length := by omega
    rw [readBlocksFrom, u32, Nat.mod_eq_of_lt (by omega)]
    refine Reads.bind (m.reads_resolveFileDataBlock h hlt) ?_
    refine Reads.bind (m.reads_readContinuousBlocks V (h.inData_get hlt)) ?_
    rw [if_neg (by simp), if_neg (by simp)]
    have hnext : m.Reads (readBlocksFrom m.sb i start n (k + 1) (buf ++ [V.blk (ds.getD (start + k) 0)])) V _ :=
      ih (by omega)
    rw [List.append_assoc, show k + 1 + n = k + (n + 1) by omega] at hnext
    rw [List.drop_eq_getElem_cons hlt, List.take_succ_cons, List.map_cons, ← List.getD_eq_getElem _ 0 hlt]
    exact hnext

theorem reads_readFileDataBlock (m : Mount) (h : FileAt m.sb V i ns ds)
    (hs : ds.length = m.sb.blocksFor (V.inode i).iSize.toNat) {start req : Nat} (hreq : req < 4294966272) :
    m.Reads (readFileDataBlock m.sb i start req) V
      (.ok (fileRead m.sb.blkSize (V.inode i).iSize.toNat V.blk ds start req)) := by
  have hmax := h.max
  rw [readFileDataBlock, if_neg (m.not_isNeg' h.range), fileRead]
  by_cases h0 : req = 0
  · rw [if_pos h0, if_pos (.inl h0)]
    exact Reads.pure _
  rw [if_neg h0]
  refine Reads.bind (m.reads_mofsReadInode V h.range) ?_
  simp only [m.ceilBlks_eq (hs ▸ hmax), ← hs, h.nr, or_self]
  by_cases hstart : ds.length ≤ start
  · rw [if_pos hstart, if_pos (.inr hstart)]
    exact Reads.pure _
  simp only [maxFileDataBlocks] at hmax
  rw [if_neg hstart, if_neg (not_or.mpr ⟨h0, hstart⟩), u32, Nat.mod_eq_of_lt (by omega)]
  have hn : (if ds.length < start + req then ds.length - start else req) = min req (ds.length - start) := by
    split <;> omega
  rw [hn]
  generalize hnd : min req (ds.length - start) = n
  have hn1 : 1 ≤ n := by omega
  refine Reads.bind (m.reads_readBlocksFrom h (by omega)) ?_
  simp only [Nat.zero_add, true_and, List.nil_append, Nat.add_zero, u32]
  rw [Nat.mod_eq_of_lt (show start + n < 4294967296 by omega)]
  by_cases hp : (V.inode i).iSize.toNat / m.sb.blkSize < start + n
  · rw [if_pos hp, if_pos hp, show (n + 4294967295) % 4294967296 = n - 1 by omega]
    exact Reads.pure _
  · rw [if_neg hp, if_neg hp]
    exact Reads.pure _

end Mount

end Mofs
