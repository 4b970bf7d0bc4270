import Mofs.FileModel
import Mofs.Lib.Note

namespace Mofs

open Effect Bytes

/-- What a call of the file layer notes: the bytes it requests for its scratch buffer, the place a block read stores to, the
place of the bytes that are copied from or to the caller, and the block of each write of file data. -/
inductive Note
  | malloc (bytes : Nat)
  | store (pos len : Nat)
  | copy (pos len : Nat)
  | data (b : Nat)

/-- The calls of the file layer with their notes. The writes of bitmaps, list nodes and inodes are inside the functions that
are lifted. -/
abbrev N (α : Type) : Type := Noted Note BlockOp BlockAns Errno α

namespace Noted

variable (sb : Superblock)

def readBlocksFrom (i start : Nat) : (n k : Nat) → List Block → N FileRead
  | 0, k, buf => pure ⟨k, 0, buf⟩
  | n + 1, k, buf => do
    let absBlk ← lift (resolveFileDataBlock sb i (u32 (start + k)))
    note (.store (k * sb.blkSize) sb.blkSize)
    let r ← lift (readContinuousBlocks absBlk)
    if r.fraction ≠ 0 then pure ⟨k, r.fraction, buf ++ [r.buf]⟩
    else if r.readBlkNum ≠ 1 then .fail .eio
    else readBlocksFrom i start n (k + 1) (buf ++ [r.buf])

def readFileDataBlock (i start req : Nat) : N FileRead :=
  if isNeg i then .fail .einval
  else if req = 0 then pure ⟨0, 0, []⟩
  else do
    let x ← lift (mofsReadInode sb i)
    let sizeBlks := ceilBlks sb x.iSize.toNat
    if x.iNrBlocks.toNat ≤ start ∨ sizeBlks ≤ start then pure ⟨0, 0, []⟩
    else
      let r ← readBlocksFrom sb i start (if sizeBlks < u32 (start + req) then sizeBlks - start else req) 0 []
      if r.fraction = 0 ∧ x.iSize.toNat / sb.blkSize < u32 (start + r.readBlkNum) then
        pure ⟨u32 (r.readBlkNum + 4294967295), x.iSize.toNat % sb.blkSize, r.buf⟩
      else pure r

def mofsReadCore (user : User) (h : FileHandle) (size : Nat) (offset : Int) (updateOffset : Bool) :
    N (Except Errno (List UInt8) × FileHandle) :=
  if h.used = false ∨ size = 0 ∨ offset < 0 then .fail .einval
  else if h.openFlags &&& oflagRdonly = 0 then .fail .ebadf
  else do
    let x ← lift (mofsReadInode sb h.inodeNum)
    lift (requireUser user)
    lift (ofExcept (mofsCheckOpenPermission h.openFlags user x))
    if x.isDir then .fail .eisdir
    else
      let off := offset.toNat
      let reqBlkNum := u32 ((off % sb.blkSize + size + sb.blkSize - 1) / sb.blkSize)
      note (.malloc (u32 (reqBlkNum * sb.blkSize)))
      let r ← readFileDataBlock sb h.inodeNum (u32 (off / sb.blkSize)) reqBlkNum
      let n := readSize sb size off r
      note (.copy (off % sb.blkSize) n)
      let bytes := slice (flatten sb r.buf) (off % sb.blkSize) n
      let h := if updateOffset then { h with fileOffset := u32 (off + n) } else h
      if 0 < n then
        match ← lift (attempt (mofsInodeStampPersist sb h.inodeNum timeAtime)) with
        | .ok () => pure (.ok bytes, h)
        | .error e => pure (.error e, h)
      else pure (.ok bytes, h)

def preloadBlocks (readOne : Nat → M Block) (i start current : Nat) : (n k : Nat) → Block → N Block
  | 0, _, buf => pure buf
  | n + 1, k, buf =>
    if current ≤ u32 (start + k) then preloadBlocks readOne i start current n (k + 1) buf
    else do
      let absBlk ← lift (resolveFileDataBlock sb i (u32 (start + k)))
      note (.store (k * sb.blkSize) sb.blkSize)
      let x ← lift (readOne absBlk)
      preloadBlocks readOne i start current n (k + 1) (placeBlock sb buf k x)

def assembleWrite (i oldSize off start req : Nat) (data : List UInt8) : N Block := do
  note (.malloc (u32 (req * sb.blkSize)))
  let buf ← preloadBlocks sb (readForWrite sb) i start (ceilBlks sb oldSize) req 0 (fun _ => 0)
  let startOff := start * sb.blkSize
  let buf := if oldSize < off then zeroRange buf (max oldSize startOff - startOff) (off - startOff) else buf
  note (.copy (off % sb.blkSize) data.length)
  pure (splice buf (off % sb.blkSize) data)

def writeData (b : Nat) (x : Block) : N WriteAns := do
  note (.data b)
  lift (writeContinuousBlocks b x)

def writeBlocksFrom (i start : Nat) (buf : Nat → Block) : (n k : Nat) → N FileWritten
  | 0, k => pure ⟨k, 0⟩
  | n + 1, k => do
    let absBlk ← lift (resolveFileDataBlock sb i (u32 (start + k)))
    if absBlk < sb.dataRegionStart ∨ u32 (sb.dataRegionStart + sb.dataBlkNum) ≤ absBlk then .fail .einval
    else
      let r ← writeData absBlk (buf k)
      if r.fraction ≠ 0 then pure ⟨k, r.fraction⟩
      else if r.writtenBlkNum ≠ 1 then .fail .eio
      else writeBlocksFrom i start buf n (k + 1)

def writeFileDataBlock (i : Nat) (buf : Nat → Block) (start req : Nat) : N FileWritten :=
  if isNeg i then .fail .einval
  else if req = 0 then pure ⟨0, 0⟩
  else do
    let x ← lift (mofsReadInode sb i)
    if x.iNrBlocks.toNat ≤ start then .fail .einval
    else writeBlocksFrom sb i start buf (min req (x.iNrBlocks.toNat - start)) 0

def storeWrite (i : Nat) (x : Inode) (off req n : Nat) (buf : Block) : N (Except Errno Nat × Nat) := do
  let w ← writeFileDataBlock sb i (blockAt sb buf) (off / sb.blkSize) req
  let total := w.writtenBlkNum * sb.blkSize + w.fraction
  let written := if total < off % sb.blkSize then 0 else min n (total - off % sb.blkSize)
  let x := if x.iSize.toNat < off + written then { x with iSize := .ofNat (off + written) } else x
  if 0 < written then
    let r ← lift (attempt (do
      let x ← mofsInodeStampNow x (timeMtime ||| timeCtime)
      mofsWriteInode sb i x))
    pure (r.map (fun _ => written), written)
  else pure (.ok written, written)

def writeAt (i : Nat) (x : Inode) (off : Nat) (data : List UInt8) : N (Except Errno Nat × Nat) := do
  let oldSize := x.iSize.toNat
  let start := off / sb.blkSize
  let req := u32 (off % sb.blkSize + data.length + sb.blkSize - 1) / sb.blkSize
  let current := ceilBlks sb oldSize
  let grow := current < u32 (start + req)
  let required := start + req - current
  lift (onlyIf grow (allocateDataBlock sb i required))
  let prepared ← attempt (do
    let x ← lift (if grow then mofsReadInode sb i else pure x : M Inode)
    let buf ← assembleWrite sb i oldSize off start req data
    pure (x, buf) : N (Inode × Block))
  match prepared with
  | .error e =>
    if grow then
      let _ ← lift (attempt (freeDataBlock sb i current required))
      .fail e
    else .fail e
  | .ok (x, buf) => storeWrite sb i x off req data.length buf

def mofsWriteCore (user : User) (h : FileHandle) (data : List UInt8) (offset : Int) (updateOffset : Bool) :
    N (Except Errno Nat × FileHandle) :=
  if h.used = false ∨ data.length = 0 ∨ offset < 0 then .fail .einval
  else if h.openFlags &&& oflagWronly = 0 then .fail .ebadf
  else do
    let x ← lift (mofsReadInode sb h.inodeNum)
    lift (requireUser user)
    lift (ofExcept (mofsCheckOpenPermission (h.openFlags &&& oflagAccmode) user x))
    if x.isDir then .fail .eisdir
    else
      let off := offset.toNat
      if mofsMaxFileBytes sb ≤ off then .fail .efbig
      else
        let (r, written) ← writeAt sb h.inodeNum x off (data.take (mofsMaxFileBytes sb - off))
        pure (r, if updateOffset then { h with fileOffset := u32 (off + written) } else h)

def zeroPartialBlockTail (i blkIdx tailStart : Nat) : N Unit :=
  if sb.blkSize ≤ tailStart then .fail .einval
  else do
    let absBlk ← lift (resolveFileDataBlock sb i blkIdx)
    let buf ← lift (readOrEio absBlk)
    let stored : N Unit := do
      let r ← writeData absBlk (zeroRange buf tailStart sb.blkSize)
      if r.writtenBlkNum ≠ 1 ∨ r.fraction ≠ 0 then .fail .eio else pure ()
    match ← attempt stored with
    | .ok () => pure ()
    | .error _ => .fail .eio

def zeroFileByteRange (i fromOff toOff : Nat) : N Unit :=
  if toOff ≤ fromOff then pure ()
  else do
    let x ← lift (mofsReadInode sb i)
    let start := fromOff / sb.blkSize
    let req := (toOff - 1) / sb.blkSize - start + 1
    let buf ← lift (Mofs.preloadBlocks sb readOrEio i start (ceilBlks sb x.iSize.toNat) req 0 (fun _ => 0))
    let startOff := start * sb.blkSize
    let buf := zeroRange buf (max fromOff startOff - startOff) (toOff - startOff)
    let _ ← writeFileDataBlock sb i (blockAt sb buf) start req
    pure ()

def shrinkInode (i : Nat) (x : Inode) (newSize : Nat) : N Unit := do
  let keep := if newSize = 0 then 0 else ceilBlks sb newSize
  onlyIf (0 < newSize ∧ newSize % sb.blkSize ≠ 0 ∧ 0 < keep)
    (zeroPartialBlockTail sb i (keep - 1) (newSize % sb.blkSize))
  lift (onlyIf (keep < x.iNrBlocks.toNat) (freeDataBlock sb i keep (x.iNrBlocks.toNat - keep)))
  let x ← lift (mofsReadInode sb i)
  lift (setSize sb i x newSize)

def growInode (i : Nat) (x : Inode) (newSize : Nat) : N Unit := do
  let oldSize := x.iSize.toNat
  let nr := x.iNrBlocks.toNat
  let grow := nr < ceilBlks sb newSize
  let required := ceilBlks sb newSize - nr
  lift (onlyIf grow (allocateDataBlock sb i required))
  let extend : N Unit := do
    let x ← lift (if grow then mofsReadInode sb i else pure x : M Inode)
    zeroFileByteRange sb i oldSize newSize
    lift (setSize sb i x newSize)
  match ← attempt extend with
  | .ok () => pure ()
  | .error e =>
    if grow then
      let _ ← lift (attempt (freeDataBlock sb i nr required))
      .fail e
    else .fail e

def truncateInode (user : User) (i newSize : Nat) : N Unit := do
  let x ← lift (mofsReadInode sb i)
  if x.isDir then .fail .eisdir
  else
    lift (requireUser user)
    lift (ofExcept (mofsCheckOpenPermission oflagWronly user x))
    if newSize = x.iSize.toNat then pure ()
    else if newSize < x.iSize.toNat then shrinkInode sb i x newSize
    else growInode sb i x newSize

def mofsTruncateCore (user : User) (i : Nat) (length : Int) : N Unit :=
  if isNeg i then .fail .einval
  else if length < 0 then .fail .einval
  else if (mofsMaxFileBytes sb : Int) < length then .fail .efbig
  else truncateInode sb user i length.toNat

end Noted

section Erase

variable (sb : Superblock)

theorem erase_readBlocksFrom (i start n k : Nat) (buf : List Block) :
    erase (Noted.readBlocksFrom sb i start n k buf) = readBlocksFrom sb i start n k buf := by
  induction n generalizing k buf with
  | zero => rfl
  | succ n ih =>
    rw [Noted.readBlocksFrom, readBlocksFrom]
    simp only [erase_bind, erase_lift, erase_ite, erase_pure, erase_fail, ih]
    rfl

theorem erase_readFileDataBlock (i start req : Nat) :
    erase (Noted.readFileDataBlock sb i start req) = readFileDataBlock sb i start req := by
  rw [Noted.readFileDataBlock, readFileDataBlock]
  simp only [erase_bind, erase_lift, erase_ite, erase_pure, erase_fail, erase_readBlocksFrom]
  rfl

theorem erase_mofsReadCore (user : User) (h : FileHandle) (size : Nat) (offset : Int) (updateOffset : Bool) :
    erase (Noted.mofsReadCore sb user h size offset updateOffset) = mofsReadCore sb user h size offset updateOffset := by
  have hstamp (bytes : List UInt8) (h : FileHandle) (r : Except Errno Unit) :
      erase (match r with
        | .ok () => pure (.ok bytes, h)
        | .error e => pure (.error e, h) : N (Except Errno (List UInt8) × FileHandle)) =
      (match r with
        | .ok () => pure (.ok bytes, h)
        | .error e => pure (.error e, h) : M (Except Errno (List UInt8) × FileHandle)) := by
    cases r <;> rfl
  simp only [Noted.mofsReadCore, mofsReadCore, erase_bind, erase_lift, erase_ite, erase_pure, erase_fail,
    erase_readFileDataBlock, hstamp]
  rfl

theorem erase_preloadBlocks (readOne : Nat → M Block) (i start current n k : Nat) (buf : Block) :
    erase (Noted.preloadBlocks sb readOne i start current n k buf) = preloadBlocks sb readOne i start current n k buf := by
  induction n generalizing k buf with
  | zero => rfl
  | succ n ih =>
    rw [Noted.preloadBlocks, preloadBlocks]
    simp only [erase_bind, erase_lift, erase_ite, ih]
    rfl

theorem erase_writeData (b : Nat) (x : Block) : erase (Noted.writeData b x) = writeContinuousBlocks b x := erase_lift _

theorem erase_writeBlocksFrom (i start : Nat) (buf : Nat → Block) (n k : Nat) :
    erase (Noted.writeBlocksFrom sb i start buf n k) = writeBlocksFrom sb i start buf n k := by
  induction n generalizing k with
  | zero => rfl
  | succ n ih =>
    rw [Noted.writeBlocksFrom, writeBlocksFrom]
    simp only [erase_bind, erase_lift, erase_ite, erase_writeData, erase_pure, erase_fail, ih]
    rfl

theorem erase_writeFileDataBlock (i : Nat) (buf : Nat → Block) (start req : Nat) :
    erase (Noted.writeFileDataBlock sb i buf start req) = writeFileDataBlock sb i buf start req := by
  rw [Noted.writeFileDataBlock, writeFileDataBlock]
  simp only [erase_bind, erase_lift, erase_ite, erase_pure, erase_fail, erase_writeBlocksFrom]
  rfl

theorem erase_mofsWriteCore (user : User) (h : FileHandle) (data : List UInt8) (offset : Int) (updateOffset : Bool) :
    erase (Noted.mofsWriteCore sb user h data offset updateOffset) = mofsWriteCore sb user h data offset updateOffset := by
  have hstore (i : Nat) (x : Inode) (off req n : Nat) (buf : Block) :
      erase (Noted.storeWrite sb i x off req n buf) = storeWrite sb i x off req n buf := by
    simp only [Noted.storeWrite, storeWrite, erase_bind, erase_lift, erase_ite, erase_pure, erase_writeFileDataBlock]
  have hasm (i oldSize off start req : Nat) (data : List UInt8) :
      erase (Noted.assembleWrite sb i oldSize off start req data) = assembleWrite sb i oldSize off start req data := by
    simp only [Noted.assembleWrite, assembleWrite, erase_bind, erase_preloadBlocks, erase_pure]
    rfl
  have hat (i : Nat) (x : Inode) (off : Nat) (data : List UInt8) :
      erase (Noted.writeAt sb i x off data) = writeAt sb i x off data := by
    simp only [Noted.writeAt, writeAt, erase_bind, erase_lift, erase_attempt, hasm, erase_pure]
    congr 1
    funext _
    congr 1
    funext r
    cases r with
    | ok y => exact hstore _ _ _ _ _ _
    | error e =>
      simp only [erase_ite, erase_bind, erase_lift, erase_fail]
      rfl
  simp only [Noted.mofsWriteCore, mofsWriteCore, erase_bind, erase_lift, erase_ite, erase_pure, erase_fail, hat]
  rfl

theorem erase_zeroPartialBlockTail (i blkIdx tailStart : Nat) :
    erase (Noted.zeroPartialBlockTail sb i blkIdx tailStart) = zeroPartialBlockTail sb i blkIdx tailStart := by
  simp only [Noted.zeroPartialBlockTail, zeroPartialBlockTail, writeFull, erase_ite, erase_bind, erase_lift, erase_fail,
    erase_attempt, erase_writeData, erase_pure, throw]
  congr 1
  congr 1
  funext b
  congr 1
  funext buf
  congr 1
  funext r
  cases r <;> rfl

theorem erase_zeroFileByteRange (i fromOff toOff : Nat) :
    erase (Noted.zeroFileByteRange sb i fromOff toOff) = zeroFileByteRange sb i fromOff toOff := by
  simp only [Noted.zeroFileByteRange, zeroFileByteRange, erase_ite, erase_bind, erase_lift, erase_pure,
    erase_writeFileDataBlock]

theorem erase_mofsTruncateCore (user : User) (i : Nat) (length : Int) :
    erase (Noted.mofsTruncateCore sb user i length) = mofsTruncateCore sb user i length := by
  have hshrink (x : Inode) (newSize : Nat) : erase (Noted.shrinkInode sb i x newSize) = shrinkInode sb i x newSize := by
    simp only [Noted.shrinkInode, shrinkInode, erase_bind, erase_lift, onlyIf, erase_ite, erase_zeroPartialBlockTail,
      erase_pure]
  have hgrow (x : Inode) (newSize : Nat) : erase (Noted.growInode sb i x newSize) = growInode sb i x newSize := by
    simp only [Noted.growInode, growInode, erase_bind, erase_lift, erase_attempt, erase_zeroFileByteRange]
    congr 1
    funext _
    congr 1
    funext r
    cases r with
    | ok y => rfl
    | error e =>
      simp only [erase_ite, erase_bind, erase_lift, erase_fail]
      rfl
  simp only [Noted.mofsTruncateCore, mofsTruncateCore, Noted.truncateInode, truncateInode, erase_bind, erase_lift, erase_ite,
    erase_pure, erase_fail, hshrink, hgrow]
  rfl

end Erase

section Sound

variable {sb : Superblock} {bytes : Nat}

/-- A note of a call with a buffer of this many bytes that writes file data to the data region only. -/
def Note.Sound (sb : Superblock) (bytes : Nat) : Note → Prop
  | .malloc n => n = bytes
  | .store pos len => pos + len ≤ bytes
  | .copy pos len => pos + len ≤ bytes
  | .data b => sb.inData b

theorem notesIn_preloadBlocks (readOne : Nat → M Block) (i start current : Nat) {req n k : Nat} (buf : Block) (hk : k + n ≤ req) :
    NotesIn (Note.Sound sb (req * sb.blkSize)) (Noted.preloadBlocks sb readOne i start current n k buf) := by
  induction n generalizing k buf with
  | zero => exact .pure _
  | succ n ih =>
    refine .ite (fun _ => ih _ (by omega)) fun _ => .bind (.lift _) fun _ => .bind (.note ?_) fun _ =>
      .bind (.lift _) fun _ => ih _ (by omega)
    calc k * sb.blkSize + sb.blkSize = (k + 1) * sb.blkSize := (Nat.succ_mul k sb.blkSize).symm
      _ ≤ req * sb.blkSize := Nat.mul_le_mul_right _ (by omega)

/-- The blocks of a request, rounded up. -/
theorem le_rounded {B : Nat} (hB : 0 < B) (a : Nat) : a ≤ (a + B - 1) / B * B ∧ (a + B - 1) / B * B < a + B := by
  have hdm := Nat.div_add_mod (a + B - 1) B
  have hlt := Nat.mod_lt (a + B - 1) hB
  rw [Nat.mul_comm] at hdm
  omega

/-- The loop that writes file blocks checks each block number, so whatever the list nodes hold, it writes to the data
region only. -/
theorem notesIn_writeBlocksFrom (h32 : sb.dataRegionStart + sb.dataBlkNum < 4294967296) (i start : Nat)
    (buf : Nat → Block) (n k : Nat) : NotesIn (Note.Sound sb bytes) (Noted.writeBlocksFrom sb i start buf n k) := by
  induction n generalizing k with
  | zero => exact .pure _
  | succ n ih =>
    refine .bind (.lift _) fun b => .ite (fun _ => .fail _) fun hb => .bind (.bind (.note ?_) fun _ => .lift _) fun r => ?_
    · rw [u32, Nat.mod_eq_of_lt h32] at hb
      exact ⟨by omega, by omega⟩
    · exact .ite (fun _ => .pure _) fun _ => .ite (fun _ => .fail _) fun _ => ih _

theorem notesIn_writeFileDataBlock (h32 : sb.dataRegionStart + sb.dataBlkNum < 4294967296) (i : Nat)
    (buf : Nat → Block) (start req : Nat) : NotesIn (Note.Sound sb bytes) (Noted.writeFileDataBlock sb i buf start req) :=
  .ite (fun _ => .fail _) fun _ => .ite (fun _ => .pure _) fun _ => .bind (.lift _) fun _ => .ite (fun _ => .fail _) fun _ =>
    notesIn_writeBlocksFrom h32 _ _ _ _ _

/-- A write is cut to the largest file before its buffer is sized, so the size of the buffer does not wrap around. -/
theorem notesIn_mofsWriteCore (hB : 0 < sb.blkSize) (hble : sb.blkSize ≤ 65536)
    (h32 : sb.dataRegionStart + sb.dataBlkNum < 4294967296) (user : User) (h : FileHandle) (data : List UInt8) (offset : Int)
    (updateOffset : Bool) : ∃ bytes, NotesIn (Note.Sound sb bytes) (Noted.mofsWriteCore sb user h data offset updateOffset) := by
  generalize hfit : data.take (mofsMaxFileBytes sb - offset.toNat) = fit
  have hmod := Nat.mod_lt offset.toNat hB
  have hround := le_rounded hB (offset.toNat % sb.blkSize + fit.length)
  have hmax : mofsMaxFileBytes sb ≤ 1024 * 65536 := Nat.mul_le_mul_left 1024 hble
  have hlen : fit.length ≤ mofsMaxFileBytes sb := by
    rw [← hfit, List.length_take]
    omega
  refine ⟨(offset.toNat % sb.blkSize + fit.length + sb.blkSize - 1) / sb.blkSize * sb.blkSize, ?_⟩
  refine .ite (fun _ => .fail _) fun _ => .ite (fun _ => .fail _) fun _ => .bind (.lift _) fun x => .bind (.lift _) fun _ =>
    .bind (.lift _) fun _ => .ite (fun _ => .fail _) fun _ => .ite (fun _ => .fail _) fun _ => .bind ?_ fun _ => .pure _
  have hsum : u32 (offset.toNat % sb.blkSize + fit.length + sb.blkSize - 1) =
      offset.toNat % sb.blkSize + fit.length + sb.blkSize - 1 := Nat.mod_eq_of_lt (by omega)
  simp only [hfit, Noted.writeAt, hsum]
  refine .bind (.lift _) fun _ => .bind (.attempt (.bind (.lift _) fun _ => .bind ?_ fun _ => .pure _)) fun r => ?_
  · refine .bind (.note ?_) fun _ => .bind (notesIn_preloadBlocks _ _ _ _ _ (Nat.zero_add _).le) fun _ => .bind (.note hround.1) fun _ => .pure _
    exact Nat.mod_eq_of_lt (by omega)
  · cases r with
    | ok y =>
      exact .bind (notesIn_writeFileDataBlock h32 _ _ _ _) fun _ => .ite (fun _ => .bind (.lift _) fun _ => .pure _) fun _ => .pure _
    | error e => exact .ite (fun _ => .bind (.lift _) fun _ => .fail _) fun _ => .fail _

end Sound

end Mofs
