import Mofs.Inode

namespace Mofs

open Effect Bytes

variable (sb : Superblock)

def listPtrsCap : Nat := listPtrsPerNode sb.blkSize

def absToDataIdx (absBlk : Nat) : Except Errno Nat :=
  if absBlk < sb.dataRegionStart then .error .eio
  else if sb.dataBlkNum ≤ absBlk - sb.dataRegionStart then .error .eio
  else .ok (absBlk - sb.dataRegionStart)

def setDataBitmapBit (idx : Nat) (used : Bool) : M Unit :=
  if sb.dataBlkNum ≤ idx then throw .einval else setBitmapBit sb sb.dataBitmapStart idx used

def updateDataBitmapBits (used : Bool) : List Nat → M Unit
  | [] => pure ()
  | i :: is => do
    let _ ← attempt (setDataBitmapBit sb i used)
    updateDataBitmapBits used is

def findFreeDataBlockIndices (req : Nat) : M (List Nat) :=
  findFreeIndices sb 0 sb.dataBlkNum sb.dataBitmapStart (u32 (sb.inodeTableStart + 4294967296 - sb.dataBitmapStart)) req

/-- Mark every index as used; when one update fails, those made before it are taken back. -/
def markUsed (marked : List Nat) : List Nat → M Unit
  | [] => pure ()
  | i :: is => do
    match ← attempt (setDataBitmapBit sb i true) with
    | .ok () => markUsed (marked ++ [i]) is
    | .error e =>
      updateDataBitmapBits sb false marked
      throw e

/-- More steps than a walk along list nodes has states: a node number, a count and a bitmap, each within
32 bits. A walk that outlives it does not end. -/
def walkFuel : Nat := 4294967296 ^ 3

def readListNode (absBlk : Nat) : M Block := readFull absBlk

def writeListNode (absBlk : Nat) (x : Block) : M Unit := writeFull absBlk x

def freeListChainFrom : (fuel nodeAbs : Nat) → M Unit
  | 0, _ => .hang
  | fuel + 1, nodeAbs =>
    if nodeAbs = 0 then pure ()
    else do
      let buf ← readListNode nodeAbs
      let idx ← ofExcept (absToDataIdx sb nodeAbs)
      setDataBitmapBit sb idx false
      bcacheInvalidate nodeAbs
      freeListChainFrom fuel (nodeNext buf)

def freeListChain (headAbs : Nat) : M Unit := freeListChainFrom sb walkFuel headAbs

def exportFrom (nrBlocks : Nat) : (fuel nodeAbs : Nat) → List Nat → M (List Nat)
  | 0, _, _ => .hang
  | fuel + 1, nodeAbs, out =>
    if nodeAbs = 0 then
      if out.length ≠ nrBlocks then throw .eio else pure out
    else do
      let buf ← readListNode nodeAbs
      if listPtrsCap sb < nodeNrPtrs buf then throw .eio
      else if nrBlocks < out.length + nodeNrPtrs buf then throw .eio
      else exportFrom nrBlocks fuel (nodeNext buf) (out ++ nodePtrs buf (nodeNrPtrs buf))

def exportDataBlockList (x : Inode) (absCap : Nat) : M (List Nat) :=
  if x.iNrBlocks.toNat = 0 then pure []
  else if x.iDataHead.toNat = 0 ∨ absCap < x.iNrBlocks.toNat then throw .einval
  else if listPtrsCap sb = 0 then throw .einval
  else exportFrom sb x.iNrBlocks.toNat walkFuel x.iDataHead.toNat []

def listNodesForBlockCount (nrBlocks : Nat) : Nat :=
  if nrBlocks = 0 then 0
  else if listPtrsCap sb = 0 then 0
  else u32 (nrBlocks + listPtrsCap sb - 1) / listPtrsCap sb

/-- The `next_abs` field of a node that the nodes `is` follow. -/
def nextAbs : List Nat → Nat
  | [] => 0
  | j :: _ => u32 (sb.dataRegionStart + j)

/-- Write one list node per index of `nodeIdx`, each with the next slice of the block list and a link to
the node after it. -/
def writeListNodes : List Nat → List Nat → M Unit
  | [], _ => pure ()
  | i :: is, absList => do
    writeListNode (u32 (sb.dataRegionStart + i)) (encodeNode (nextAbs sb is) (absList.take (listPtrsCap sb)))
    writeListNodes is (absList.drop (listPtrsCap sb))

def rebuildDataBlockList (x : Inode) (absList : List Nat) : M Inode :=
  if absList.length = 0 then pure { x with iDataHead := 0, iNrBlocks := 0 }
  else if listNodesForBlockCount sb absList.length = 0 then throw .einval
  else do
    let nodeIdx ← findFreeDataBlockIndices sb (listNodesForBlockCount sb absList.length)
    markUsed sb [] nodeIdx
    match ← attempt (writeListNodes sb nodeIdx absList) with
    | .ok () =>
      pure { x with
        iDataHead := .ofNat (sb.dataRegionStart + nodeIdx.headD 0)
        iNrBlocks := .ofNat absList.length }
    | .error e =>
      updateDataBitmapBits sb false nodeIdx
      throw e

def resolveFrom : (fuel nodeAbs remain : Nat) → M Nat
  | 0, _, _ => .hang
  | fuel + 1, nodeAbs, remain =>
    if nodeAbs = 0 then throw .eio
    else do
      let buf ← readListNode nodeAbs
      if listPtrsCap sb < nodeNrPtrs buf then throw .eio
      else if remain < nodeNrPtrs buf then pure (leNat buf (8 + 4 * remain) 4)
      else resolveFrom fuel (nodeNext buf) (remain - nodeNrPtrs buf)

def resolveFileDataBlock (i fileBlkIdx : Nat) : M Nat :=
  if isNeg i then throw .einval
  else do
    let x ← mofsReadInode sb i
    if x.iNrBlocks.toNat ≤ fileBlkIdx then throw .einval
    else if x.iDataHead.toNat = 0 then throw .eio
    else resolveFrom sb walkFuel x.iDataHead.toNat fileBlkIdx

def allocateDataBlock (i reqBlkNum : Nat) : M Unit :=
  if isNeg i then throw .einval
  else if reqBlkNum = 0 then pure ()
  else do
    let x ← mofsReadInode sb i
    if maxFileDataBlocks < u32 (x.iNrBlocks.toNat + reqBlkNum) then throw .enospc
    else
      let flat ← exportDataBlockList sb x x.iNrBlocks.toNat
      let newIdx ← findFreeDataBlockIndices sb reqBlkNum
      markUsed sb [] newIdx
      match ← attempt (rebuildDataBlockList sb x (flat ++ newIdx.map (fun k => u32 (sb.dataRegionStart + k)))) with
      | .error e =>
        updateDataBitmapBits sb false newIdx
        throw e
      | .ok y =>
        match ← attempt (mofsWriteInode sb i y) with
        | .error e =>
          let _ ← attempt (freeListChain sb y.iDataHead.toNat)
          updateDataBitmapBits sb false newIdx
          throw e
        | .ok () =>
          if x.iDataHead.toNat ≠ 0 then
            let _ ← attempt (freeListChain sb x.iDataHead.toNat)
            pure ()
          else pure ()

/-- The release loop of `free_data_block`. An error leaves it with the bits cleared so far still clear. -/
def releaseBlocks : List Nat → M Unit
  | [] => pure ()
  | a :: as => do
    let idx ← ofExcept (absToDataIdx sb a)
    setDataBitmapBit sb idx false
    bcacheInvalidate a
    releaseBlocks as

def rollbackBitmap (released : List Nat) : M Unit :=
  updateDataBitmapBits sb true (released.map (fun a => u32 (a + 4294967296 - sb.dataRegionStart)))

def freeDataBlock (i startBlkNum reqBlkNum : Nat) : M Unit :=
  if isNeg i then throw .einval
  else if reqBlkNum = 0 then pure ()
  else do
    let x ← mofsReadInode sb i
    let nr := x.iNrBlocks.toNat
    if nr ≤ startBlkNum then throw .einval
    else
      let freeBlkNum := if nr < u32 (startBlkNum + reqBlkNum) then nr - startBlkNum else reqBlkNum
      let flat ← exportDataBlockList sb x nr
      let released := (flat.drop startBlkNum).take freeBlkNum
      let compact := flat.take startBlkNum ++ flat.drop (startBlkNum + freeBlkNum)
      releaseBlocks sb released
      match ← attempt (rebuildDataBlockList sb x compact) with
      | .error e =>
        rollbackBitmap sb released
        throw e
      | .ok y =>
        match ← attempt (mofsWriteInode sb i y) with
        | .error e =>
          let _ ← attempt (freeListChain sb y.iDataHead.toNat)
          rollbackBitmap sb released
          throw e
        | .ok () =>
          if x.iDataHead.toNat ≠ 0 then
            let _ ← attempt (freeListChain sb x.iDataHead.toNat)
            pure ()
          else pure ()

end Mofs
