import Mofs.Inode

namespace Mofs

open Effect Bytes

/-- What `mofs_format` asks of the device port: seek and write, the device size, the clock. -/
inductive DevOp
  | write (off : Nat) (bs : List UInt8)
  | getSize
  | now

def DevAns : DevOp → Type
  | .write _ _ => Except Errno Unit
  | .getSize => Except Errno Nat
  | .now => Except Errno UInt64

abbrev F := Prog DevOp DevAns Errno

def seekWriteExact (off : Nat) (bs : List UInt8) : F Unit := do
  let r : Except Errno Unit ← call (DevOp.write off bs)
  ofExcept r

def devGetSize : F Nat := do
  let r : Except Errno Nat ← call DevOp.getSize
  ofExcept r

def devNow : F UInt64 := do
  let r : Except Errno UInt64 ← call DevOp.now
  ofExcept r

/-- A raw device. An image file grows when it is written past its end, a block device does not; `log` records
the byte ranges written. -/
structure Dev where
  size : Nat
  growable : Bool
  bytes : Nat → UInt8
  log : List (Nat × Nat)
  clock : Nat → UInt64
  ticks : Nat

def Dev.put (d : Dev) (off : Nat) (bs : List UInt8) : Dev :=
  { d with bytes := splice d.bytes off bs, log := d.log ++ [(off, bs.length)], size := max d.size (off + bs.length) }

def Dev.answer : (op : DevOp) → Dev → DevAns op × Dev
  | .write off bs, d =>
    if off + bs.length ≤ d.size ∨ d.growable then (.ok (), d.put off bs)
    else (.error .eio, { d with bytes := splice d.bytes off (bs.take (d.size - off)) })
  | .getSize, d => (.ok d.size, d)
  | .now, d => (.ok (d.clock d.ticks), { d with ticks := d.ticks + 1 })

def blkSizeDefault : Nat := 4096

def encodeSuperblock (sb : Superblock) : List UInt8 :=
  leBytes sb.magic 4 ++ leBytes sb.holeBlkNum 4 ++ leBytes sb.inodeNum 4 ++ leBytes sb.dataBlkNum 4 ++
  leBytes sb.inodeBitmapStart 4 ++ leBytes sb.dataBitmapStart 4 ++ leBytes sb.inodeTableStart 4 ++
  leBytes sb.dataRegionStart 4 ++ leBytes sb.blkSize 4

def decodeSuperblock (f : Nat → UInt8) : Superblock where
  magic := leNat f 0 4
  holeBlkNum := leNat f 4 4
  inodeNum := leNat f 8 4
  dataBlkNum := leNat f 12 4
  inodeBitmapStart := leNat f 16 4
  dataBitmapStart := leNat f 20 4
  inodeTableStart := leNat f 24 4
  dataRegionStart := leNat f 28 4
  blkSize := leNat f 32 4

def superblockBytes : Nat := 36

/-- The layout arithmetic of `mofs_format` for a volume of `bytes` bytes. -/
structure Geometry where
  holeBlkNum : Nat
  inodeNum : Nat
  inodeBitmapBlkNum : Nat
  inodeTableBlkNum : Nat
  dataBitmapBlkNum : Nat

def geometry (bytes blk : Nat) : Geometry :=
  let hole := bytes / blk
  let inodeNum := (bytes + (blk * 4 - 1)) / (blk * 4)
  { holeBlkNum := hole
    inodeNum := inodeNum
    inodeBitmapBlkNum := (inodeNum + blk * 8 - 1) / (blk * 8)
    inodeTableBlkNum := (inodeNum * inodeBytes + blk - 1) / blk
    dataBitmapBlkNum := (hole + blk * 8 - 1) / (blk * 8) }

def Geometry.metaReserved (g : Geometry) : Nat :=
  1 + g.inodeBitmapBlkNum + g.dataBitmapBlkNum + g.inodeTableBlkNum

def Geometry.superblock (g : Geometry) (blk : Nat) : Superblock :=
  let inodeBitmapStart := 1
  let dataBitmapStart := u32 (inodeBitmapStart + g.inodeBitmapBlkNum)
  let inodeTableStart := u32 (dataBitmapStart + g.dataBitmapBlkNum)
  let dataRegionStart := u32 (inodeTableStart + g.inodeTableBlkNum)
  { magic := magicNum
    holeBlkNum := u32 g.holeBlkNum
    inodeNum := u32 g.inodeNum
    dataBlkNum := u32 (g.holeBlkNum - g.metaReserved)
    inodeBitmapStart, dataBitmapStart, inodeTableStart, dataRegionStart
    blkSize := blk }

def clearBlocks (block blk : Nat) : F Unit := seekWriteExact (block * blk) (List.replicate blk 0)

def clearRange (blk : Nat) : (n block : Nat) → F Unit
  | 0, _ => pure ()
  | n + 1, block => do
    clearBlocks block blk
    clearRange blk n (block + 1)

/-- The root inode that `mofs_format` writes. -/
def rootInode (sb : Superblock) (now : UInt64) : Inode :=
  { Inode.zero with
    iSize := .ofNat sb.blkSize
    iMode := .ofNat (ftypeDir ||| 0o755)
    iLinks := 2
    iDataHead := .ofNat (sb.dataRegionStart + 1)
    iNrBlocks := 1
    iAtime := now
    iMtime := now
    iCtime := now }

/-- The blocks of the root directory: its content, and the list node that points to it. -/
def formatRoot (sb : Superblock) : F Unit := do
  let blk := sb.blkSize
  seekWriteExact (sb.inodeBitmapStart * blk) [0x04]
  seekWriteExact (sb.dataBitmapStart * blk) [0x03]
  clearBlocks sb.dataRegionStart blk
  clearBlocks (sb.dataRegionStart + 1) blk
  seekWriteExact ((sb.dataRegionStart + 1) * blk) (slice (encodeNode 0 [sb.dataRegionStart]) 0 blk)
  let now ← devNow
  seekWriteExact (sb.inodeTableStart * blk + 2 * inodeBytes) (encodeInode (rootInode sb now))

def mofsFormat (fsSize blkSize : Int) : F Unit := do
  let blk := if 0 ≤ blkSize then blkSize.toNat else blkSizeDefault
  ofExcept (validateLogicalBlkSize blk)
  let bytes ← (if 0 < fsSize then pure (fsSize.toNat * blk) else devGetSize : F Nat)
  let g := geometry bytes blk
  if g.holeBlkNum ≤ g.metaReserved then .fail .einval
  else
    clearRange blk g.metaReserved 0
    if 4294967295 < g.holeBlkNum then .fail .einval
    else
      seekWriteExact 0 (encodeSuperblock (g.superblock blk))
      formatRoot (g.superblock blk)

/-- The superblock checks of `mofs_init_core` on a device of `size` bytes. -/
def loadSuperblock (size : Nat) (bytes : Nat → UInt8) : Except Errno Superblock := do
  if size < superblockBytes then .error .eio
  else
    let sb := decodeSuperblock bytes
    if sb.magic ≠ magicNum then .error .eio
    else
      validateLogicalBlkSize sb.blkSize
      if size / sb.blkSize ≠ sb.holeBlkNum then .error .einval else .ok sb

/-- The last part of `mofs_init_core`, when the caller asks for a new owner of the root directory. -/
def updateRootOwner (sb : Superblock) (uid gid : Nat) : M Unit := do
  let x ← mofsReadInode sb rootInodeNum
  let x ← mofsInodeStampNow { x with iUid := .ofNat uid, iGid := .ofNat gid } timeCtime
  mofsWriteInode sb rootInodeNum x

/-- The blocks of a raw device. -/
def diskOf (blk : Nat) (bytes : Nat → UInt8) : Disk where
  blk b := fun k => if k < blk then bytes (b * blk + k) else 0
  drops := 0
  ticks := 0

/-- Mount: the superblock becomes the context of the core, and the core then works on the blocks of the device. -/
def mofsInitCore (cached : Bool) (stale : Nat → Option Block) (clock : Nat → UInt64) (d : Dev)
    (rootOwner : Option (Nat × Nat)) : Option (Except Errno (Superblock × Env) × Disk) :=
  match loadSuperblock d.size d.bytes with
  | .error e => some (.error e, diskOf 0 d.bytes)
  | .ok sb =>
    let env : Env := ⟨sb.blkSize, d.size, cached, stale, clock⟩
    match rootOwner with
    | none => some (.ok (sb, env), diskOf sb.blkSize d.bytes)
    | some (uid, gid) =>
      match exec env (updateRootOwner sb uid gid) (diskOf sb.blkSize d.bytes) with
      | none => none
      | some (.error e, t) => some (.error e, t)
      | some (.ok (), t) => some (.ok (sb, env), t)

end Mofs
