import Mofs.Path

namespace Mofs

open Effect Bytes

variable (sb : Superblock)

def mofsMaxFileBytes : Nat := maxFileDataBlocks * sb.blkSize

def filehandlePoolSize : Nat := 64

structure FileHandle where
  used : Bool
  inodeNum : Nat
  fileOffset : Nat
  openFlags : Nat
  deriving DecidableEq

/-- A zeroed entry of the handle pool. -/
def FileHandle.closed : FileHandle := ⟨false, 0, 0, 0⟩

def requireUser (user : User) : M Unit := if user.valid = false then throw .eperm else pure ()

def requireDirWrite (user : User) (parent : Nat) : M Inode := do
  let x ← mofsReadInode sb parent
  ofExcept (mofsCheckDirWrite user x)
  pure x

def modeBits (ftype mode : Nat) : UInt16 := .ofNat (ftype ||| (mode &&& 0o777))

def mofsCreateCore (user : User) (path : Path) (mode : Nat) : M Nat := do
  let info ← mofsResolvePath sb user path resolveTarget
  if info.leafFound then throw .eexist
  else
    requireUser user
    let _ ← requireDirWrite sb user info.parentInodeNum
    let i ← allocateInode sb
    let link : M Unit := do
      let x ← mofsInodeStampNow { Inode.zero with
        iLinks := 1, iMode := modeBits ftypeReg mode, iUid := .ofNat user.uid, iGid := .ofNat user.gid } timeAll
      mofsWriteInode sb i x
      addDirEntry sb info.leafName info.parentInodeNum i
    match ← attempt link with
    | .ok () => pure i
    | .error e =>
      let _ ← attempt (freeInode sb i)
      throw e

/-- The part shared by `mofs_unlink_core` and `mofs_rmdir_core` once the target may go: take the entry out, then
give its blocks and its inode back. -/
def dropEntry (name : Name) (parent target : Nat) (x : Inode) : M Unit := do
  removeDirEntry sb name parent
  onlyIf (0 < x.iNrBlocks.toNat) (freeDataBlock sb target 0 x.iNrBlocks.toNat)
  freeInode sb target

def mofsUnlinkCore (user : User) (path : Path) : M Unit := do
  let info ← mofsResolvePath sb user path resolveExisting
  requireUser user
  let _ ← requireDirWrite sb user info.parentInodeNum
  let x ← mofsReadInode sb info.leafInodeNum
  if x.isDir then throw .eisdir
  else dropEntry sb info.leafName info.parentInodeNum info.leafInodeNum x

def getFreeFilehandleIndex (pool : Nat → FileHandle) : Option Nat :=
  (List.range filehandlePoolSize).find? (fun k => !(pool k).used)

/-- `mofs_open_core` up to the handle pool: the inode to open, after the type and permission checks. -/
def openInode (user : User) (path : Path) (flags mode : Nat) : M Nat := do
  requireUser user
  let (i, x) ← (do
    match ← attempt (mofsPathToInodeNum sb user path) with
    | .ok i =>
      if flags &&& oflagCreat ≠ 0 ∧ flags &&& oflagExcl ≠ 0 then throw .eexist
      else
        let x ← mofsReadInode sb i
        pure (i, x)
    | .error .enoent =>
      if flags &&& oflagCreat ≠ 0 then
        let i ← mofsCreateCore sb user path mode
        let x ← mofsReadInode sb i
        pure (i, x)
      else throw .enoent
    | .error e => throw e : M (Nat × Inode))
  if flags &&& oflagDirectory ≠ 0 ∧ x.isDir = false then throw .enotdir
  else
    ofExcept (mofsCheckOpenPermission flags user x)
    pure i

def mofsOpenCore (user : User) (pool : Nat → FileHandle) (path : Path) (flags mode : Nat) :
    M (Nat × (Nat → FileHandle)) := do
  let i ← openInode sb user path flags mode
  match getFreeFilehandleIndex pool with
  | none => throw .enfile
  | some k => pure (k, Function.update pool k ⟨true, i, 0, flags⟩)

def mofsCloseCore (h : FileHandle) : M FileHandle := if h.used = false then throw .einval else pure .closed

/-- The bytes of the blocks of a read, one after the other. -/
def flatten (bufs : List Block) : Block := fun k => bufs.getD (k / sb.blkSize) (fun _ => 0) (k % sb.blkSize)

def readSize (size offset : Nat) (r : FileRead) : Nat :=
  if r.readBlkNum * sb.blkSize + r.fraction < offset % sb.blkSize then 0
  else min size (r.readBlkNum * sb.blkSize + r.fraction - offset % sb.blkSize)

/-- The bytes read, the handle after the call, and the outcome of the timestamp update that follows the read. -/
def mofsReadCore (user : User) (h : FileHandle) (size : Nat) (offset : Int) (updateOffset : Bool) :
    M (Except Errno (List UInt8) × FileHandle) :=
  if h.used = false ∨ size = 0 ∨ offset < 0 then throw .einval
  else if h.openFlags &&& oflagRdonly = 0 then throw .ebadf
  else do
    let x ← mofsReadInode sb h.inodeNum
    requireUser user
    ofExcept (mofsCheckOpenPermission h.openFlags user x)
    if x.isDir then throw .eisdir
    else
      let off := offset.toNat
      let reqBlkNum := u32 ((off % sb.blkSize + size + sb.blkSize - 1) / sb.blkSize)
      let r ← readFileDataBlock sb h.inodeNum (u32 (off / sb.blkSize)) reqBlkNum
      let n := readSize sb size off r
      let bytes := slice (flatten sb r.buf) (off % sb.blkSize) n
      let h := if updateOffset then { h with fileOffset := u32 (off + n) } else h
      if 0 < n then
        match ← attempt (mofsInodeStampPersist sb h.inodeNum timeAtime) with
        | .ok () => pure (.ok bytes, h)
        | .error e => pure (.error e, h)
      else pure (.ok bytes, h)

/-- Place one block at position `k` of a buffer of blocks. -/
def placeBlock (buf : Block) (k : Nat) (x : Block) : Block :=
  fun j => if k * sb.blkSize ≤ j ∧ j < (k + 1) * sb.blkSize then x (j - k * sb.blkSize) else buf j

def blockAt (buf : Block) (k : Nat) : Block := fun j => if j < sb.blkSize then buf (k * sb.blkSize + j) else 0

/-- The preload loop of the read-modify-write paths: blocks of the file that exist already are read, the others
stay zero. -/
def preloadBlocks (readOne : Nat → M Block) (i start current : Nat) : (n k : Nat) → Block → M Block
  | 0, _, buf => pure buf
  | n + 1, k, buf =>
    if current ≤ u32 (start + k) then preloadBlocks readOne i start current n (k + 1) buf
    else do
      let absBlk ← resolveFileDataBlock sb i (u32 (start + k))
      let x ← readOne absBlk
      preloadBlocks readOne i start current n (k + 1) (placeBlock sb buf k x)

def readForWrite (absBlk : Nat) : M Block :=
  if absBlk < sb.dataRegionStart ∨ u32 (sb.dataRegionStart + sb.dataBlkNum) ≤ absBlk then throw .eio
  else readFull absBlk

/-- A read whose every failure is reported as an I/O error. -/
def readOrEio (absBlk : Nat) : M Block := do
  match ← attempt (readFull absBlk) with
  | .ok x => pure x
  | .error _ => throw .eio

def zeroRange (buf : Block) (lo hi : Nat) : Block := fun k => if lo ≤ k ∧ k < hi then 0 else buf k

/-- The part of `mofs_write_core` between the allocation and the first block write: assemble the blocks. -/
def assembleWrite (i oldSize off start req : Nat) (data : List UInt8) : M Block := do
  let buf ← preloadBlocks sb (readForWrite sb) i start (ceilBlks sb oldSize) req 0 (fun _ => 0)
  let startOff := start * sb.blkSize
  let buf := if oldSize < off then zeroRange buf (max oldSize startOff - startOff) (off - startOff) else buf
  pure (splice buf (off % sb.blkSize) data)

/-- The part of `mofs_write_core` that stores the assembled blocks and then the inode. -/
def storeWrite (i : Nat) (x : Inode) (off req n : Nat) (buf : Block) : M (Except Errno Nat × Nat) := do
  let w ← writeFileDataBlock sb i (blockAt sb buf) (off / sb.blkSize) req
  let total := w.writtenBlkNum * sb.blkSize + w.fraction
  let written := if total < off % sb.blkSize then 0 else min n (total - off % sb.blkSize)
  let x := if x.iSize.toNat < off + written then { x with iSize := .ofNat (off + written) } else x
  if 0 < written then
    let r ← attempt (do
      let x ← mofsInodeStampNow x (timeMtime ||| timeCtime)
      mofsWriteInode sb i x)
    pure (r.map (fun _ => written), written)
  else pure (.ok written, written)

/-- The part of `mofs_write_core` after its checks. `data` is what of the request fits the largest file. -/
def writeAt (i : Nat) (x : Inode) (off : Nat) (data : List UInt8) : M (Except Errno Nat × Nat) := do
  let oldSize := x.iSize.toNat
  let start := off / sb.blkSize
  let req := u32 (off % sb.blkSize + data.length + sb.blkSize - 1) / sb.blkSize
  let current := ceilBlks sb oldSize
  let grow := current < u32 (start + req)
  let required := start + req - current
  onlyIf grow (allocateDataBlock sb i required)
  let prepared ← attempt (do
    let x ← (if grow then mofsReadInode sb i else pure x : M Inode)
    let buf ← assembleWrite sb i oldSize off start req data
    pure (x, buf) : M (Inode × Block))
  match prepared with
  | .error e =>
    if grow then
      let _ ← attempt (freeDataBlock sb i current required)
      throw e
    else throw e
  | .ok (x, buf) => storeWrite sb i x off req data.length buf

/-- The number of bytes written and the handle after the call. The handle has moved on even when the inode update
at the end fails. -/
def mofsWriteCore (user : User) (h : FileHandle) (data : List UInt8) (offset : Int) (updateOffset : Bool) :
    M (Except Errno Nat × FileHandle) :=
  if h.used = false ∨ data.length = 0 ∨ offset < 0 then throw .einval
  else if h.openFlags &&& oflagWronly = 0 then throw .ebadf
  else do
    let x ← mofsReadInode sb h.inodeNum
    requireUser user
    ofExcept (mofsCheckOpenPermission (h.openFlags &&& oflagAccmode) user x)
    if x.isDir then throw .eisdir
    else
      let off := offset.toNat
      if mofsMaxFileBytes sb ≤ off then throw .efbig
      else
        let (r, written) ← writeAt sb h.inodeNum x off (data.take (mofsMaxFileBytes sb - off))
        pure (r, if updateOffset then { h with fileOffset := u32 (off + written) } else h)

def zeroPartialBlockTail (i blkIdx tailStart : Nat) : M Unit :=
  if sb.blkSize ≤ tailStart then throw .einval
  else do
    let absBlk ← resolveFileDataBlock sb i blkIdx
    let buf ← readOrEio absBlk
    match ← attempt (writeFull absBlk (zeroRange buf tailStart sb.blkSize)) with
    | .ok () => pure ()
    | .error _ => throw .eio

def zeroFileByteRange (i fromOff toOff : Nat) : M Unit :=
  if toOff ≤ fromOff then pure ()
  else do
    let x ← mofsReadInode sb i
    let start := fromOff / sb.blkSize
    let req := (toOff - 1) / sb.blkSize - start + 1
    let buf ← preloadBlocks sb readOrEio i start (ceilBlks sb x.iSize.toNat) req 0 (fun _ => 0)
    let startOff := start * sb.blkSize
    let buf := zeroRange buf (max fromOff startOff - startOff) (toOff - startOff)
    let _ ← writeFileDataBlock sb i (blockAt sb buf) start req
    pure ()

def setSize (i : Nat) (x : Inode) (size : Nat) : M Unit := do
  let x ← mofsInodeStampNow { x with iSize := .ofNat size } (timeMtime ||| timeCtime)
  mofsWriteInode sb i x

def shrinkInode (i : Nat) (x : Inode) (newSize : Nat) : M Unit := do
  let keep := if newSize = 0 then 0 else ceilBlks sb newSize
  onlyIf (0 < newSize ∧ newSize % sb.blkSize ≠ 0 ∧ 0 < keep)
    (zeroPartialBlockTail sb i (keep - 1) (newSize % sb.blkSize))
  onlyIf (keep < x.iNrBlocks.toNat) (freeDataBlock sb i keep (x.iNrBlocks.toNat - keep))
  let x ← mofsReadInode sb i
  setSize sb i x newSize

def growInode (i : Nat) (x : Inode) (newSize : Nat) : M Unit := do
  let oldSize := x.iSize.toNat
  let nr := x.iNrBlocks.toNat
  let grow := nr < ceilBlks sb newSize
  let required := ceilBlks sb newSize - nr
  onlyIf grow (allocateDataBlock sb i required)
  let extend : M Unit := do
    let x ← (if grow then mofsReadInode sb i else pure x : M Inode)
    zeroFileByteRange sb i oldSize newSize
    setSize sb i x newSize
  match ← attempt extend with
  | .ok () => pure ()
  | .error e =>
    if grow then
      let _ ← attempt (freeDataBlock sb i nr required)
      throw e
    else throw e

def truncateInode (user : User) (i newSize : Nat) : M Unit := do
  let x ← mofsReadInode sb i
  if x.isDir then throw .eisdir
  else
    requireUser user
    ofExcept (mofsCheckOpenPermission oflagWronly user x)
    if newSize = x.iSize.toNat then pure ()
    else if newSize < x.iSize.toNat then shrinkInode sb i x newSize
    else growInode sb i x newSize

def mofsTruncateCore (user : User) (i : Nat) (length : Int) : M Unit :=
  if isNeg i then throw .einval
  else if length < 0 then throw .einval
  else if (mofsMaxFileBytes sb : Int) < length then throw .efbig
  else truncateInode sb user i length.toNat

structure Stat where
  stIno : Nat
  stNlink : Nat
  stSize : Nat
  stMode : Nat
  stUid : Nat
  stGid : Nat
  stAtime : Nat
  stMtime : Nat
  stCtime : Nat
  deriving DecidableEq

def mofsStatCore (user : User) (path : Path) : M Stat := do
  requireUser user
  let i ← mofsPathToInodeNum sb user path
  let x ← mofsReadInode sb i
  ofExcept (if x.isDir then mofsCheckDirTraverse user x else mofsCheckOpenPermission oflagRdonly user x)
  pure ⟨i, x.iLinks.toNat, x.iSize.toNat, x.iMode.toNat, x.iUid.toNat, x.iGid.toNat, x.iAtime.toNat,
    x.iMtime.toNat, x.iCtime.toNat⟩

end Mofs
