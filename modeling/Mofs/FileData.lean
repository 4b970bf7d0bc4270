import Mofs.Block

namespace Mofs

open Effect Bytes

variable (sb : Superblock)

/-- `(size + blk_size - 1) / blk_size` in `unsigned int` arithmetic. -/
def ceilBlks (size : Nat) : Nat := u32 (size + sb.blkSize - 1) / sb.blkSize

structure FileRead where
  readBlkNum : Nat
  fraction : Nat
  buf : List Block

def readBlocksFrom (i start : Nat) : (n k : Nat) → List Block → M FileRead
  | 0, k, buf => pure ⟨k, 0, buf⟩
  | n + 1, k, buf => do
    let absBlk ← resolveFileDataBlock sb i (u32 (start + k))
    let r ← readContinuousBlocks absBlk
    if r.fraction ≠ 0 then pure ⟨k, r.fraction, buf ++ [r.buf]⟩
    else if r.readBlkNum ≠ 1 then throw .eio
    else readBlocksFrom i start n (k + 1) (buf ++ [r.buf])

def readFileDataBlock (i start req : Nat) : M FileRead :=
  if isNeg i then throw .einval
  else if req = 0 then pure ⟨0, 0, []⟩
  else do
    let x ← mofsReadInode sb i
    let sizeBlks := ceilBlks sb x.iSize.toNat
    if x.iNrBlocks.toNat ≤ start ∨ sizeBlks ≤ start then pure ⟨0, 0, []⟩
    else
      let r ← readBlocksFrom sb i start (if sizeBlks < u32 (start + req) then sizeBlks - start else req) 0 []
      if r.fraction = 0 ∧ x.iSize.toNat / sb.blkSize < u32 (start + r.readBlkNum) then
        pure ⟨u32 (r.readBlkNum + 4294967295), x.iSize.toNat % sb.blkSize, r.buf⟩
      else pure r

structure FileWritten where
  writtenBlkNum : Nat
  fraction : Nat
  deriving DecidableEq

def writeBlocksFrom (i start : Nat) (buf : Nat → Block) : (n k : Nat) → M FileWritten
  | 0, k => pure ⟨k, 0⟩
  | n + 1, k => do
    let absBlk ← resolveFileDataBlock sb i (u32 (start + k))
    if absBlk < sb.dataRegionStart ∨ u32 (sb.dataRegionStart + sb.dataBlkNum) ≤ absBlk then throw .einval
    else
      let r ← writeContinuousBlocks absBlk (buf k)
      if r.fraction ≠ 0 then pure ⟨k, r.fraction⟩
      else if r.writtenBlkNum ≠ 1 then throw .eio
      else writeBlocksFrom i start buf n (k + 1)

def writeFileDataBlock (i : Nat) (buf : Nat → Block) (start req : Nat) : M FileWritten :=
  if isNeg i then throw .einval
  else if req = 0 then pure ⟨0, 0⟩
  else do
    let x ← mofsReadInode sb i
    if x.iNrBlocks.toNat ≤ start then throw .einval
    else writeBlocksFrom sb i start buf (min req (x.iNrBlocks.toNat - start)) 0

end Mofs
