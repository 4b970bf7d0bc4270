import Mofs.Port

namespace Mofs

open Effect Bytes

variable (sb : Superblock)

def timeAtime : Nat := 1
def timeMtime : Nat := 2
def timeCtime : Nat := 4
def timeAll : Nat := 7

/-- An inode with the time stamps that `mask` selects set to `now`. -/
def Inode.stamp (x : Inode) (mask : Nat) (now : UInt64) : Inode :=
  { x with
    iAtime := if mask &&& timeAtime ≠ 0 then now else x.iAtime
    iMtime := if mask &&& timeMtime ≠ 0 then now else x.iMtime
    iCtime := if mask &&& timeCtime ≠ 0 then now else x.iCtime }

def mofsInodeStampNow (x : Inode) (mask : Nat) : M Inode := do
  if mask = 0 then throw .einval
  else
    let now ← mofsNow
    pure (x.stamp mask now)

/-- Set or clear one bit of a bitmap block buffer. -/
def bitmapPut (buf : Block) (byte bit : Nat) (used : Bool) : Block :=
  Function.update buf byte (if used then setBit (buf byte) bit else clearBit (buf byte) bit)

/-- The body shared by `set_data_bitmap_bit` and `set_inode_bitmap_bit`: read the block that owns the bit,
change that bit, write the block back. -/
def setBitmapBit (start idx : Nat) (used : Bool) : M Unit := do
  let bitsPerBitmap := u32 (sb.blkSize * 8)
  let targetBlk := idx / bitsPerBitmap
  let bitInBlk := idx % bitsPerBitmap
  let buf ← readFull (u32 (start + targetBlk))
  writeFull (u32 (start + targetBlk)) (bitmapPut buf (bitInBlk / 8) (bitInBlk % 8) used)

def setInodeBitmapBit (idx : Nat) (used : Bool) : M Unit :=
  if idx < 3 ∨ sb.inodeNum ≤ idx then throw .einval else setBitmapBit sb sb.inodeBitmapStart idx used

def updateInodeBitmapBits (used : Bool) : List Nat → M Unit
  | [] => pure ()
  | i :: is => do
    let _ ← attempt (setInodeBitmapBit sb i used)
    updateInodeBitmapBits used is

/-- The bit loop of the bitmap scans: `bit` runs to 8, a set bit or an index below `lo` is passed over,
an index from `bound` on leaves the loop. -/
def scanBits (lo bound base req : Nat) (byte : UInt8) : (n bit : Nat) → List Nat → List Nat
  | 0, _, acc => acc
  | n + 1, bit, acc =>
    if req ≤ acc.length then acc
    else
      let idx := u32 (base + bit)
      if bound ≤ idx then acc
      else if idx < lo then scanBits lo bound base req byte n (bit + 1) acc
      else scanBits lo bound base req byte n (bit + 1)
        (if testBit byte bit = false then acc ++ [idx] else acc)

def scanBytes (lo bound base req : Nat) (buf : Block) : (n byteIdx : Nat) → List Nat → List Nat
  | 0, _, acc => acc
  | n + 1, byteIdx, acc =>
    if req ≤ acc.length then acc
    else scanBytes lo bound base req buf n (byteIdx + 1)
      (scanBits lo bound (u32 (base + byteIdx * 8)) req (buf byteIdx) 8 0 acc)

def scanBlocks (lo bound start req : Nat) : (n blkIdx : Nat) → List Nat → M (List Nat)
  | 0, _, acc => pure acc
  | n + 1, blkIdx, acc =>
    if req ≤ acc.length then pure acc
    else do
      let buf ← readFull (u32 (start + blkIdx))
      scanBlocks lo bound start req n (blkIdx + 1)
        (scanBytes lo bound (u32 (blkIdx * u32 (sb.blkSize * 8))) req buf sb.blkSize 0 acc)

/-- The body shared by the two searches for free bitmap entries. -/
def findFreeIndices (lo bound start blkNum req : Nat) : M (List Nat) :=
  if req = 0 then pure []
  else do
    let acc ← scanBlocks sb lo bound start req blkNum 0 []
    if acc.length < req then throw .enospc else pure acc

def findFreeInodeIndices (req : Nat) : M (List Nat) :=
  findFreeIndices sb 3 sb.inodeNum sb.inodeBitmapStart (u32 (sb.dataBitmapStart + 4294967296 - sb.inodeBitmapStart)) req

/-- Table position of an inode, in the `int` arithmetic of the source: the byte offset wraps at 32 bits,
the quotient and the remainder round towards zero. -/
def inodeByte (i : Nat) : Int :=
  if u32 (i * 64) < 2147483648 then u32 (i * 64) else (u32 (i * 64) : Int) - 4294967296

def inodeBlk (i : Nat) : Nat := ((sb.inodeTableStart + (inodeByte i).tdiv sb.blkSize) % 4294967296).toNat

def inodeOffset (i : Nat) : Nat := ((inodeByte i).tmod sb.blkSize).toNat

def mofsReadInode (i : Nat) : M Inode :=
  if isNeg i ∨ sb.inodeNum ≤ i then throw .einval
  else do
    let buf ← readFull (inodeBlk sb i)
    pure (decodeInode buf (inodeOffset sb i))

def mofsWriteInode (i : Nat) (x : Inode) : M Unit :=
  if isNeg i ∨ sb.inodeNum ≤ i then throw .einval
  else do
    match ← attempt (bcacheModifyBlock (inodeBlk sb i) (inodeOffset sb i) (encodeInode x)) with
    | .error .einval =>
      let buf ← readFull (inodeBlk sb i)
      writeFull (inodeBlk sb i) (splice buf (inodeOffset sb i) (encodeInode x))
    | r => ofExcept r

def mofsInodeStampPersist (i mask : Nat) : M Unit :=
  if isNeg i ∨ sb.inodeNum ≤ i ∨ mask = 0 then throw .einval
  else do
    let buf ← readFull (inodeBlk sb i)
    let x ← mofsInodeStampNow (decodeInode buf (inodeOffset sb i)) mask
    writeFull (inodeBlk sb i) (splice buf (inodeOffset sb i) (encodeInode x))

def allocateInode : M Nat := do
  let idx ← findFreeInodeIndices sb 1
  let i := idx.headD 0
  match ← attempt (setInodeBitmapBit sb i true) with
  | .ok () => pure i
  | .error e =>
    updateInodeBitmapBits sb false idx
    throw e

def freeInode (i : Nat) : M Unit :=
  if i < 3 ∨ isNeg i ∨ sb.inodeNum ≤ i then throw .einval
  else do
    setInodeBitmapBit sb i false
    match ← attempt (mofsWriteInode sb i Inode.zero) with
    | .ok () => pure ()
    | .error e =>
      updateInodeBitmapBits sb true [i]
      throw e

end Mofs
