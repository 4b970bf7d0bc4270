import Mofs.File

namespace Mofs

open Effect Bytes

variable (sb : Superblock)

/-- A call whose error the source casts away. -/
def ignore (p : M Unit) : M Unit := do
  let _ ← attempt p
  pure ()

/-- The part of `mofs_mkdir_core` after the child inode is allocated, up to the entry in the parent. The flags in
the rollback of the source are the two places the attempts below stand at. -/
def mkdirChild (user : User) (mode child : Nat) : M Unit := do
  let x ← mofsInodeStampNow { Inode.zero with
    iLinks := 2, iMode := modeBits ftypeDir mode, iUid := .ofNat user.uid, iGid := .ofNat user.gid } timeAll
  mofsWriteInode sb child x
  allocateDataBlock sb child 1

def mkdirFill (child parent : Nat) : M Unit := do
  writeDotEntries sb child parent
  let x ← mofsReadInode sb child
  let x ← mofsInodeStampNow { x with iSize := .ofNat sb.blkSize } (timeMtime ||| timeCtime)
  mofsWriteInode sb child x

def mkdirCount (parent : Nat) : M Unit := do
  let x ← mofsReadInode sb parent
  let x ← mofsInodeStampNow { x with iLinks := .ofNat (x.iLinks.toNat + 1) } timeCtime
  mofsWriteInode sb parent x

def mkdirUndo (blockAllocated parentLinked : Bool) (name : Name) (parent child : Nat) : M Unit := do
  onlyIf parentLinked (ignore (removeDirEntry sb name parent))
  onlyIf blockAllocated (ignore (freeDataBlock sb child 0 1))
  ignore (freeInode sb child)

def mofsMkdirCore (user : User) (path : Path) (mode : Nat) : M Unit :=
  if path.1.head? ≠ some slash then throw .einval
  else do
    let info ← mofsResolvePath sb user path resolveTarget
    if info.leafFound then throw .eexist
    else
      requireUser user
      let parent := info.parentInodeNum
      let x ← mofsReadInode sb parent
      if x.isDir = false then throw .enotdir
      else
        ofExcept (mofsCheckDirWrite user x)
        let child ← allocateInode sb
        match ← attempt (mkdirChild sb user mode child) with
        | .error e =>
          mkdirUndo sb false false info.leafName parent child
          throw e
        | .ok () =>
          match ← attempt (do
            mkdirFill sb child parent
            addDirEntry sb info.leafName parent child) with
          | .error e =>
            mkdirUndo sb true false info.leafName parent child
            throw e
          | .ok () =>
            match ← attempt (mkdirCount sb parent) with
            | .error e =>
              mkdirUndo sb true true info.leafName parent child
              throw e
            | .ok () => pure ()

def mofsRmdirCore (user : User) (path : Path) : M Unit :=
  if path.1.head? ≠ some slash then throw .einval
  else if path.1 = [slash] ∨ isDotOrDotdotName path.1 then throw .einval
  else do
    let info ← mofsResolvePath sb user path resolveExisting
    if isDotOrDotdotName info.leafName then throw .einval
    else
      requireUser user
      let _ ← requireDirWrite sb user info.parentInodeNum
      let x ← mofsReadInode sb info.leafInodeNum
      if x.isDir = false then throw .enotdir
      else
        let empty ← isDirectoryEmpty sb info.leafInodeNum
        if empty = false then throw .enotempty
        else
          dropEntry sb info.leafName info.parentInodeNum info.leafInodeNum x
          let y ← mofsReadInode sb info.parentInodeNum
          if y.iLinks = 0 then throw .eio
          else
            let y ← mofsInodeStampNow { y with iLinks := .ofNat (y.iLinks.toNat - 1) } timeCtime
            mofsWriteInode sb info.parentInodeNum y

def dirhandlePoolSize : Nat := 64

structure DirHandle where
  used : Bool
  inodeNum : Nat
  direntOffset : Nat
  direntName : Name
  direntInodeNum : Nat
  deriving DecidableEq

def DirHandle.closed : DirHandle := ⟨false, 0, 0, [], 0⟩

def getFreeDirhandleIndex (pool : Nat → DirHandle) : Option Nat :=
  (List.range dirhandlePoolSize).find? (fun k => !(pool k).used)

def mofsOpendirCore (user : User) (pool : Nat → DirHandle) (path : Path) : M (Nat × (Nat → DirHandle)) := do
  requireUser user
  let i ← mofsPathToInodeNum sb user path
  let x ← mofsReadInode sb i
  if x.isDir = false then throw .enotdir
  else
    ofExcept (mofsCheckDirRead user x)
    match getFreeDirhandleIndex pool with
    | none => throw .enfile
    | some k => pure (k, Function.update pool k ⟨true, i, 0, [], 0⟩)

def mofsClosedirCore (h : DirHandle) : M DirHandle := if h.used = false then throw .einval else pure .closed

def slotName (buf : Block) (j : Nat) : Name := (slice buf (direntBytes * j) filenameLen).takeWhile (· ≠ 0)

/-- The scan of `mofs_readdir_core` from block `blkIdx`, slot `startIdx`. -/
def readdirFrom (i : Nat) : (n blkIdx startIdx : Nat) → Block → M (Option (Nat × Block × Nat))
  | 0, _, _, _ => pure none
  | n + 1, blkIdx, startIdx, buf => do
    let (r, buf) ← readDirBlock sb i blkIdx buf
    match firstSlot (fun j => startIdx ≤ j && slotLive buf j) (direntNum sb r.fraction) with
    | some j => pure (some (blkIdx, buf, j))
    | none => readdirFrom i n (blkIdx + 1) 0 buf

/-- `mofs_readdir_core` with a block buffer that holds `heap` when it is allocated. -/
def mofsReaddirCoreWith (heap : Block) (user : User) (h : DirHandle) : M DirHandle :=
  if h.used = false then throw .einval
  else do
    requireUser user
    let x ← mofsReadInode sb h.inodeNum
    if x.isDir = false then throw .enotdir
    else
      ofExcept (mofsCheckDirRead user x)
      let startBlock := h.direntOffset / entriesPerBlk sb
      match ← readdirFrom sb h.inodeNum (ceilBlks sb x.iSize.toNat - startBlock) startBlock
        (h.direntOffset % entriesPerBlk sb) heap with
      | some (blkIdx, buf, j) =>
        pure { h with
          direntOffset := u32 (blkIdx * entriesPerBlk sb + j + 1)
          direntName := slotName buf j
          direntInodeNum := direntInode buf (direntBytes * j) }
      | none => pure { h with direntName := [], direntInodeNum := 0 }

def mofsReaddirCore (user : User) (h : DirHandle) : M DirHandle := mofsReaddirCoreWith sb (fun _ => 0) user h

def requireParentWrite (user : User) (parent : Nat) : M Unit := do
  requireUser user
  let x ← mofsReadInode sb parent
  if x.isDir = false then throw .enotdir
  else ofExcept (mofsCheckDirWrite user x)

/-- The removal of an existing destination, before the move itself is checked. -/
def removeDestination (user : User) (newPath : Path) (srcIsDir : Bool) (dst : Nat) : M Unit := do
  let y ← mofsReadInode sb dst
  if srcIsDir && y.isDir then mofsRmdirCore sb user newPath
  else if !srcIsDir && !y.isDir then mofsUnlinkCore sb user newPath
  else if srcIsDir then throw .enotdir
  else throw .eisdir

/-- A directory that has changed parents: its `..` entry and the two link counts. -/
def reparent (src oldParent newParent : Nat) : M Unit := do
  rewriteDotdot sb src newParent
  adjustDirNlink sb oldParent (-1)
  match ← attempt (adjustDirNlink sb newParent 1) with
  | .ok () => pure ()
  | .error e =>
    ignore (adjustDirNlink sb oldParent 1)
    throw e

def reparentOrUndo (old new : PathInfo) : M Unit := do
  let src := old.leafInodeNum
  match ← attempt (reparent sb src old.parentInodeNum new.parentInodeNum) with
  | .ok () => pure ()
  | .error e =>
    ignore (rewriteDotdot sb src old.parentInodeNum)
    ignore (removeDirEntry sb new.leafName new.parentInodeNum)
    ignore (addDirEntry sb old.leafName old.parentInodeNum src)
    throw e

/-- The move itself, after the destination is gone and the checks have passed. -/
def moveEntry (srcIsDir : Bool) (old new : PathInfo) : M Unit := do
  let src := old.leafInodeNum
  removeDirEntry sb old.leafName old.parentInodeNum
  match ← attempt (addDirEntry sb new.leafName new.parentInodeNum src) with
  | .error e =>
    ignore (addDirEntry sb old.leafName old.parentInodeNum src)
    throw e
  | .ok () =>
    onlyIf (srcIsDir ∧ old.parentInodeNum ≠ new.parentInodeNum) (reparentOrUndo sb old new)
    ignore (mofsInodeStampPersist sb src timeCtime)

/-- The checks between the removal of the destination and the move. -/
def checkMove (user : User) (srcIsDir : Bool) (old new : PathInfo) : M Unit := do
  onlyIf srcIsDir (do
    let ancestor ← directoryIsAncestor sb old.leafInodeNum new.parentInodeNum
    onlyIf ancestor (throw .einval))
  requireParentWrite sb user old.parentInodeNum
  onlyIf (old.parentInodeNum ≠ new.parentInodeNum) (requireParentWrite sb user new.parentInodeNum)

def mofsRenameCore (user : User) (oldPath newPath : Path) : M Unit :=
  if oldPath.1.head? ≠ some slash ∨ newPath.1.head? ≠ some slash then throw .einval
  else do
    let old ← mofsResolvePath sb user oldPath resolveExisting
    if old.leafFound = false ∨ isDotOrDotdotName old.leafName then throw .einval
    else
      let new ← mofsResolvePath sb user newPath resolveTarget
      if isDotOrDotdotName new.leafName then throw .einval
      else
        let x ← mofsReadInode sb old.leafInodeNum
        if new.leafFound ∧ new.leafInodeNum = old.leafInodeNum then pure ()
        else
          onlyIf new.leafFound (removeDestination sb user newPath x.isDir new.leafInodeNum)
          checkMove sb user x.isDir old new
          moveEntry sb x.isDir old new

end Mofs
