import Mofs.File
import Mofs.Frame

namespace Mofs

open Effect Bytes

variable {sb : Superblock} {V W : View} {G H : Owners} {i : Nat} {ns ds : List Nat}

/-- The blocks a write of `n` bytes at `off` covers. -/
def Superblock.covers (sb : Superblock) (off n q : Nat) : Prop :=
  off / sb.blkSize ≤ q / sb.blkSize ∧ q / sb.blkSize < sb.blocksFor (off + n)

instance (sb : Superblock) (off n q : Nat) : Decidable (sb.covers off n q) := by
  unfold Superblock.covers; infer_instance

/-- Byte `q` of a file of `s` bytes after `data` was written at `off`. In the blocks of the write the gap behind the
old end is zero, and so is what lies in new blocks; the blocks before them keep what they hold. -/
def afterWrite (sb : Superblock) (s off : Nat) (data : List UInt8) (old : Nat → UInt8) (q : Nat) : UInt8 :=
  if off ≤ q ∧ q < off + data.length then data.getD (q - off) 0
  else if sb.covers off data.length q ∧ (s ≤ q ∧ q < off ∨ sb.blocksFor s ≤ q / sb.blkSize) then 0
  else old q

/-- The number of blocks a write of `n` bytes at `off` asks for. -/
theorem exists_req (hB : 0 < sb.blkSize) (off : Nat) {n : Nat} (hn : 0 < n) :
    ∃ req, sb.blocksFor (off + n) = off / sb.blkSize + req ∧ 0 < req ∧ off % sb.blkSize + n ≤ req * sb.blkSize ∧
      (off % sb.blkSize + n + sb.blkSize - 1) / sb.blkSize = req := by
  refine ⟨_, ?_, ceil_pos hB (by omega), le_ceil_mul _ hB, rfl⟩
  rw [Superblock.blocksFor, show off + n + sb.blkSize - 1 = off + (n + sb.blkSize - 1) by omega,
    add_div_of_div _ _ _ hB, show off % sb.blkSize + n + sb.blkSize - 1 = off % sb.blkSize + (n + sb.blkSize - 1) by omega]

/-- A buffer of blocks with those of the positions `lo, …, hi - 1` that the file already has filled in. -/
def preloaded (sb : Superblock) (blk : Nat → Block) (ds : List Nat) (start current lo hi : Nat) (buf : Block) : Block :=
  fun p =>
    if lo ≤ p / sb.blkSize ∧ p / sb.blkSize < hi ∧ start + p / sb.blkSize < current then
      blk (ds.getD (start + p / sb.blkSize) 0) (p % sb.blkSize)
    else buf p

theorem preloaded_empty (sb : Superblock) (blk : Nat → Block) (ds : List Nat) (start current lo : Nat) (buf : Block) :
    preloaded sb blk ds start current lo lo buf = buf := by
  funext p
  rw [preloaded, if_neg (by omega)]

theorem preloaded_skip {blk : Nat → Block} {start current lo hi : Nat} {buf : Block} (h : current ≤ start + lo) :
    preloaded sb blk ds start current lo hi buf = preloaded sb blk ds start current (lo + 1) hi buf := by
  funext p
  simp only [preloaded]
  by_cases hp : lo + 1 ≤ p / sb.blkSize ∧ p / sb.blkSize < hi ∧ start + p / sb.blkSize < current
  · rw [if_pos (by omega), if_pos hp]
  · rw [if_neg (by omega), if_neg hp]

theorem preloaded_step {blk : Nat → Block} {start current lo hi : Nat} {buf : Block} (hB : 0 < sb.blkSize)
    (h : start + lo < current) (hlt : lo < hi) :
    preloaded sb blk ds start current lo hi buf =
      preloaded sb blk ds start current (lo + 1) hi (placeBlock sb buf lo (blk (ds.getD (start + lo) 0))) := by
  funext p
  have hk1 : (lo + 1) * sb.blkSize = lo * sb.blkSize + sb.blkSize := Nat.succ_mul _ _
  have hblk : p / sb.blkSize = lo ↔ lo * sb.blkSize ≤ p ∧ p < (lo + 1) * sb.blkSize := by
    rw [Nat.div_eq_iff hB, hk1]
    omega
  simp only [preloaded, placeBlock]
  by_cases hp : p / sb.blkSize = lo
  · have hmod : p % sb.blkSize = p - lo * sb.blkSize := by
      have := Nat.div_add_mod p sb.blkSize
      rw [hp, Nat.mul_comm] at this
      omega
    rw [if_pos (by omega), if_neg (by omega), if_pos (hblk.mp hp), hp, hmod]
  · rw [if_neg (mt hblk.mpr hp)]
    by_cases hin : lo + 1 ≤ p / sb.blkSize ∧ p / sb.blkSize < hi ∧ start + p / sb.blkSize < current
    · rw [if_pos (by omega), if_pos hin]
    · rw [if_neg (by omega), if_neg hin]

namespace Mount

theorem reads_preloadBlocks (m : Mount) (h : FileAt m.sb V i ns ds) {readOne : Nat → M Block}
    (hread : ∀ b, m.sb.inData b → m.Reads (readOne b) V (.ok (V.blk b))) {start current n k : Nat} {buf : Block}
    (hcur : current ≤ ds.length) (h32 : start + k + n < 4294967296) :
    m.Reads (preloadBlocks m.sb readOne i start current n k buf) V
      (.ok (preloaded m.sb V.blk ds start current k (k + n) buf)) := by
  induction n generalizing k buf with
  | zero =>
    rw [Nat.add_zero, preloaded_empty]
    exact Reads.pure _
  | succ n ih =>
    rw [preloadBlocks, u32, Nat.mod_eq_of_lt (by omega), show k + (n + 1) = k + 1 + n by omega]
    by_cases hc : current ≤ start + k
    · rw [if_pos hc, preloaded_skip hc]
      exact ih (by omega)
    · have hlt : start + k < ds.length := by omega
      rw [if_neg hc, preloaded_step m.ok.blk_pos (by omega) (by omega)]
      refine Reads.bind (m.reads_resolveFileDataBlock h hlt) ?_
      refine Reads.bind (hread _ (h.inData_get hlt)) ?_
      exact ih (by omega)

theorem reads_readForWrite (m : Mount) (V : View) {b : Nat} (hb : m.sb.inData b) :
    m.Reads (readForWrite m.sb b) V (.ok (V.blk b)) := by
  have hhole := m.ok.hole
  have hlt := m.ok.hole_lt
  rw [readForWrite, u32, Nat.mod_eq_of_lt (by omega), if_neg (by have := hb.1; have := hb.2; omega)]
  exact m.reads_readFull V hb

theorem reads_readOrEio (m : Mount) (V : View) {b : Nat} (hb : m.sb.inData b) :
    m.Reads (readOrEio b) V (.ok (V.blk b)) :=
  Reads.bind (m.reads_readFull V hb).attempt (Reads.pure _)

/-- A file gets as many blocks as it needs: it has them, or they are appended, or there is no room. -/
theorem ensures_extend (m : Mount) (h : Wf m.sb V G) (hi : V.ibit i = true) {need : Nat}
    (hneed : need ≤ maxFileDataBlocks) :
    m.Ensures (onlyIf ((G.data i).length < need) (allocateDataBlock m.sb i (need - (G.data i).length))) V (fun r W =>
      if (G.data i).length < need ∧ ¬ m.sb.canGrow V (G.data i).length (need - (G.data i).length) then
        r = .error .enospc ∧ W = V
      else r = .ok () ∧ (need ≤ (G.data i).length → W = V) ∧ ∃ H, Relisted m.sb V W G H i [] ∧
        H.data i = G.data i ++ m.sb.abs ((m.sb.freeData V).take (need - (G.data i).length))) := by
  rw [onlyIf]
  by_cases hlt : (G.data i).length < need
  · rw [if_pos hlt]
    refine (m.ensures_allocateDataBlock h (h.range i hi) hi (by omega) (by omega)).mono fun r W hr => ?_
    by_cases hc : m.sb.canGrow V (G.data i).length (need - (G.data i).length)
    · rw [if_pos hc] at hr
      rw [if_neg (by simp [hc])]
      obtain ⟨hr, H, hH, hd⟩ := hr
      exact ⟨hr, fun hle => absurd hlt (Nat.not_lt.mpr hle), H, hH.1, hd⟩
    · rw [if_neg hc] at hr
      rw [if_pos ⟨hlt, hc⟩]
      exact hr
  · rw [if_neg hlt]
    refine Ensures.pure ?_
    rw [if_neg (by simp [hlt])]
    refine ⟨rfl, fun _ => rfl, G, ⟨h, fun _ _ => ⟨rfl, rfl⟩, fun _ _ => rfl, ⟨_, _, rfl⟩, rfl, fun _ _ _ _ => rfl⟩, ?_⟩
    rw [Nat.sub_eq_zero_of_le (by omega)]
    simp [Superblock.abs]

end Mount

end Mofs
