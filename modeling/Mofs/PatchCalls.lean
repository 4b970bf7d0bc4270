import Mofs.Lib.Fallback
import Mofs.CallData
import Mofs.DataWrite
import Mofs.WriteFault

namespace Mofs

open Effect Bytes

variable {α β : Type} {sb : Superblock} {n : Nat}

/-- A build without a cache refuses to patch a block; the block is then read, changed and written back. -/
def patchAlternative (blkSize : Nat) : Alternative BlockOp BlockAns Errno where
  optional op := ∃ b off patch, op = .modify b off patch ∧ patch ≠ [] ∧ off + patch.length ≤ blkSize
  refusal
    | .read _ => .error .einval
    | .write _ _ => .error .einval
    | .modify _ _ _ => .error .einval
    | .invalidate _ => ()
    | .flush => .error .einval
    | .now => .error .einval
  instead
    | .modify b off patch => attempt (do
        let buf ← readFull b
        writeFull b (splice buf off patch))
    | op => call op
  neverFails op := by
    cases op with
    | modify b off patch => exact neverFails_attempt _
    | _ => exact fun _ => trivial

/-- The only blocks the program patches are patched with this alternative at hand. -/
abbrev Patches (blkSize : Nat) (p : M α) : Prop := FallsBack (patchAlternative blkSize) p

theorem attempt_bind_ofExcept (p : M α) : (attempt p >>= fun r => Effect.ofExcept r) = p := by
  induction p with
  | ret a => rfl
  | fail e => rfl
  | hang => rfl
  | ask op k ih => exact congrArg (Prog.ask op) (funext ih)

section Calls

theorem patches_call {op : BlockOp} (h : ¬ (patchAlternative n).optional op) : Patches n (call op : M (BlockAns op)) :=
  .ask h fun _ => .ret _

theorem patches_of_readOnly {p : M α} (h : ReadOnly p) : Patches n p := by
  induction p with
  | ret a => exact .ret a
  | fail e => exact .fail e
  | hang => exact .hang
  | ask op k ih =>
    refine .ask ?_ fun a => ih a (h.2 a)
    rintro ⟨b, off, patch, rfl, -⟩
    exact h.1

theorem patches_writeContinuousBlocks (b : Nat) (x : Block) : Patches n (writeContinuousBlocks b x) := by
  refine (patches_call ?_).bind fun r => .ofExcept r
  rintro ⟨_, _, _, h, -⟩
  cases h

theorem patches_writeFull (b : Nat) (x : Block) : Patches n (writeFull b x) := by
  refine (patches_writeContinuousBlocks b x).bind fun r => ?_
  split
  · exact .fail _
  · exact .pure _

theorem patches_bcacheInvalidate (b : Nat) : Patches n (bcacheInvalidate b) := by
  refine (patches_call ?_).bind fun _ => .pure _
  rintro ⟨_, _, _, h, -⟩
  cases h

theorem patches_bcacheFlush : Patches n bcacheFlush := by
  refine (patches_call ?_).bind fun r => .ofExcept r
  rintro ⟨_, _, _, h, -⟩
  cases h

theorem patches_mofsInodeStampNow (x : Inode) (mask : Nat) : Patches n (mofsInodeStampNow x mask) := by
  rw [mofsInodeStampNow]
  split
  · exact .fail _
  refine FallsBack.bind (FallsBack.bind (patches_call ?_) fun r => .ofExcept r) fun _ => .pure _
  rintro ⟨_, _, _, h, -⟩
  cases h

/-- A patch that is refused is made by a read and a write of the whole block. -/
theorem patches_mofsWriteInode (i : Nat) (x : Inode) : Patches n (mofsWriteInode sb i x) := by
  rw [mofsWriteInode]
  split
  · exact .fail _
  have hwrite : Patches n (do
      let buf ← readFull (inodeBlk sb i)
      writeFull (inodeBlk sb i) (splice buf (inodeOffset sb i) (encodeInode x)) : M Unit) :=
    (patches_of_readOnly (readOnly_readFull _)).bind fun _ => patches_writeFull _ _
  by_cases hop : (patchAlternative n).optional (.modify (inodeBlk sb i) (inodeOffset sb i) (encodeInode x))
  · refine .instead (fun r => Effect.ofExcept r) hop (fun r => .ofExcept r) (fun r hr => ?_) ?_
    · rcases r with e | _
      · cases e with
        | einval => exact absurd rfl hr
        | _ => rfl
      · rfl
    · exact (attempt_bind_ofExcept _).symm
  · refine .ask hop fun r => ?_
    rcases r with e | _
    · cases e with
      | einval => exact hwrite
      | _ => exact .fail _
    · exact .ret _

theorem patches_setBitmapBit (start idx : Nat) (used : Bool) : Patches n (setBitmapBit sb start idx used) :=
  (patches_of_readOnly (readOnly_readFull _)).bind fun _ => patches_writeFull _ _

theorem patches_setInodeBitmapBit (idx : Nat) (used : Bool) : Patches n (setInodeBitmapBit sb idx used) := by
  rw [setInodeBitmapBit]
  split
  · exact .fail _
  · exact patches_setBitmapBit _ _ _

theorem patches_updateInodeBitmapBits (used : Bool) (is : List Nat) : Patches n (updateInodeBitmapBits sb used is) := by
  induction is with
  | nil => exact .pure _
  | cons i is ih => exact (patches_setInodeBitmapBit i used).attempt.bind fun _ => ih

theorem patches_mofsInodeStampPersist (i mask : Nat) : Patches n (mofsInodeStampPersist sb i mask) := by
  rw [mofsInodeStampPersist]
  split
  · exact .fail _
  · exact (patches_of_readOnly (readOnly_readFull _)).bind fun _ => (patches_mofsInodeStampNow _ _).bind fun _ =>
      patches_writeFull _ _

theorem patches_scanBlocks (lo bound start req k blkIdx : Nat) (acc : List Nat) :
    Patches n (scanBlocks sb lo bound start req k blkIdx acc) :=
  patches_of_readOnly (readOnly_scanBlocks lo bound start req k blkIdx acc)

theorem patches_findFreeInodeIndices (req : Nat) : Patches n (findFreeInodeIndices sb req) := by
  rw [findFreeInodeIndices, findFreeIndices]
  split
  · exact .pure _
  refine (patches_scanBlocks _ _ _ _ _ _ _).bind fun acc => ?_
  split
  · exact .fail _
  · exact .pure _

theorem patches_allocateInode : Patches n (allocateInode sb) := by
  refine (patches_findFreeInodeIndices 1).bind fun idx => (patches_setInodeBitmapBit _ _).attempt.bind fun r => ?_
  cases r with
  | ok _ => exact .pure _
  | error e => exact (patches_updateInodeBitmapBits _ _).bind fun _ => .fail _

theorem patches_freeInode (i : Nat) : Patches n (freeInode sb i) := by
  rw [freeInode]
  split
  · exact .fail _
  refine (patches_setInodeBitmapBit _ _).bind fun _ => (patches_mofsWriteInode _ _).attempt.bind fun r => ?_
  cases r with
  | ok _ => exact .pure _
  | error e => exact (patches_updateInodeBitmapBits _ _).bind fun _ => .fail _

end Calls

section Blocks

theorem patches_setDataBitmapBit (idx : Nat) (used : Bool) : Patches n (setDataBitmapBit sb idx used) := by
  rw [setDataBitmapBit]
  split
  · exact .fail _
  · exact patches_setBitmapBit _ _ _

theorem patches_updateDataBitmapBits (used : Bool) (is : List Nat) : Patches n (updateDataBitmapBits sb used is) := by
  induction is with
  | nil => exact .pure _
  | cons i is ih => exact (patches_setDataBitmapBit i used).attempt.bind fun _ => ih

theorem patches_markUsed (marked is : List Nat) : Patches n (markUsed sb marked is) := by
  induction is generalizing marked with
  | nil => exact .pure _
  | cons i is ih =>
    refine (patches_setDataBitmapBit i true).attempt.bind fun r => ?_
    cases r with
    | ok _ => exact ih _
    | error e => exact (patches_updateDataBitmapBits _ _).bind fun _ => .fail _

theorem patches_findFreeDataBlockIndices (req : Nat) : Patches n (findFreeDataBlockIndices sb req) :=
  patches_of_readOnly (readOnly_findFreeDataBlockIndices req)

theorem patches_freeListChain (headAbs : Nat) : Patches n (freeListChain sb headAbs) := by
  rw [freeListChain]
  generalize walkFuel = fuel
  induction fuel generalizing headAbs with
  | zero => exact .hang
  | succ fuel ih =>
    rw [freeListChainFrom]
    split
    · exact .pure _
    exact (patches_of_readOnly (readOnly_readFull _)).bind fun _ => (FallsBack.ofExcept _).bind fun _ =>
      (patches_setDataBitmapBit _ _).bind fun _ => (patches_bcacheInvalidate _).bind fun _ => ih _

theorem patches_writeListNodes (nodeIdx absList : List Nat) : Patches n (writeListNodes sb nodeIdx absList) := by
  induction nodeIdx generalizing absList with
  | nil => exact .pure _
  | cons i is ih => exact (patches_writeFull _ _).bind fun _ => ih _

theorem patches_rebuildDataBlockList (x : Inode) (absList : List Nat) : Patches n (rebuildDataBlockList sb x absList) := by
  rw [rebuildDataBlockList]
  split
  · exact .pure _
  split
  · exact .fail _
  refine (patches_findFreeDataBlockIndices _).bind fun nodeIdx => (patches_markUsed _ _).bind fun _ =>
    (patches_writeListNodes _ _).attempt.bind fun r => ?_
  cases r with
  | ok _ => exact .pure _
  | error e => exact (patches_updateDataBitmapBits _ _).bind fun _ => .fail _

/-- The last step of a change of a block list: the old chain goes. -/
theorem patches_dropChain (x : Inode) : Patches n (if x.iDataHead.toNat ≠ 0 then (do
    let _ ← attempt (freeListChain sb x.iDataHead.toNat)
    pure ()) else pure () : M Unit) := by
  split
  · exact (patches_freeListChain _).attempt.bind fun _ => .pure _
  · exact .pure _

theorem patches_allocateDataBlock (i req : Nat) : Patches n (allocateDataBlock sb i req) := by
  rw [allocateDataBlock]
  split
  · exact .fail _
  split
  · exact .pure _
  refine (patches_of_readOnly (readOnly_mofsReadInode i)).bind fun x => ?_
  split
  · exact .fail _
  refine (patches_of_readOnly (readOnly_exportDataBlockList x _)).bind fun flat =>
    (patches_findFreeDataBlockIndices _).bind fun newIdx => (patches_markUsed _ _).bind fun _ =>
      (patches_rebuildDataBlockList _ _).attempt.bind fun r => ?_
  cases r with
  | error e => exact (patches_updateDataBitmapBits _ _).bind fun _ => .fail _
  | ok y =>
    refine (patches_mofsWriteInode i y).attempt.bind fun r => ?_
    cases r with
    | error e =>
      exact (patches_freeListChain _).attempt.bind fun _ => (patches_updateDataBitmapBits _ _).bind fun _ => .fail _
    | ok _ => exact patches_dropChain x

theorem patches_releaseBlocks (as : List Nat) : Patches n (releaseBlocks sb as) := by
  induction as with
  | nil => exact .pure _
  | cons a as ih =>
    exact (FallsBack.ofExcept _).bind fun _ => (patches_setDataBitmapBit _ _).bind fun _ =>
      (patches_bcacheInvalidate _).bind fun _ => ih

theorem patches_rollbackBitmap (released : List Nat) : Patches n (rollbackBitmap sb released) :=
  patches_updateDataBitmapBits _ _

theorem patches_freeDataBlock (i start req : Nat) : Patches n (freeDataBlock sb i start req) := by
  rw [freeDataBlock]
  split
  · exact .fail _
  split
  · exact .pure _
  refine (patches_of_readOnly (readOnly_mofsReadInode i)).bind fun x => ?_
  dsimp only
  split
  · exact .fail _
  refine (patches_of_readOnly (readOnly_exportDataBlockList x _)).bind fun flat => (patches_releaseBlocks _).bind fun _ =>
    (patches_rebuildDataBlockList _ _).attempt.bind fun r => ?_
  cases r with
  | error e => exact (patches_rollbackBitmap _).bind fun _ => .fail _
  | ok y =>
    refine (patches_mofsWriteInode i y).attempt.bind fun r => ?_
    cases r with
    | error e => exact (patches_freeListChain _).attempt.bind fun _ => (patches_rollbackBitmap _).bind fun _ => .fail _
    | ok _ => exact patches_dropChain x

end Blocks

section Entries

theorem patches_writeFileDataBlock (i : Nat) (buf : Nat → Block) (start req : Nat) :
    Patches n (writeFileDataBlock sb i buf start req) := by
  have hloop (k j : Nat) : Patches n (writeBlocksFrom sb i start buf k j) := by
    induction k generalizing j with
    | zero => exact .pure _
    | succ k ih =>
      rw [writeBlocksFrom]
      refine (patches_of_readOnly (readOnly_resolveFileDataBlock i _)).bind fun absBlk => ?_
      split
      · exact .fail _
      refine (patches_writeContinuousBlocks _ _).bind fun r => ?_
      split
      · exact .pure _
      split
      · exact .fail _
      · exact ih _
  rw [writeFileDataBlock]
  split
  · exact .fail _
  split
  · exact .pure _
  refine (patches_of_readOnly (readOnly_mofsReadInode i)).bind fun x => ?_
  split
  · exact .fail _
  · exact hloop _ _

theorem patches_readDirBlockChecked (i blkIdx : Nat) (buf : Block) : Patches n (readDirBlockChecked sb i blkIdx buf) := by
  refine (patches_of_readOnly (readOnly_readDirBlock i blkIdx buf)).bind ?_
  rintro ⟨r, buf⟩
  dsimp only
  split
  · exact .fail _
  · exact .pure _

theorem patches_writeDirBlock (i blkIdx : Nat) (buf : Block) : Patches n (writeDirBlock sb i blkIdx buf) := by
  refine (patches_writeFileDataBlock i _ blkIdx 1).bind fun w => ?_
  split
  · exact .fail _
  · exact .pure _

theorem patches_removeInBlocks (name : Name) (parent k blkIdx : Nat) (buf : Block) :
    Patches n (removeInBlocks sb name parent k blkIdx buf) := by
  induction k generalizing blkIdx buf with
  | zero => exact .fail _
  | succ k ih =>
    rw [removeInBlocks]
    refine (patches_readDirBlockChecked parent blkIdx buf).bind ?_
    rintro ⟨r, buf⟩
    dsimp only
    split
    · exact patches_writeDirBlock _ _ _
    · exact ih _ _

theorem patches_removeDirEntry (name : Name) (parent : Nat) : Patches n (removeDirEntry sb name parent) := by
  rw [removeDirEntry]
  split
  · exact .fail _
  refine (patches_of_readOnly (readOnly_mofsReadInode parent)).bind fun x => ?_
  split
  · exact .fail _
  · exact (patches_removeInBlocks _ _ _ _ _).bind fun _ => (patches_mofsInodeStampNow _ _).bind fun _ =>
      patches_mofsWriteInode _ _

theorem patches_scanDirBlocks (name : Name) (parent k blkIdx : Nat) (buf : Block) (reusable : Option Nat) :
    Patches n (scanDirBlocks sb name parent k blkIdx buf reusable) := by
  induction k generalizing blkIdx buf reusable with
  | zero => exact .pure _
  | succ k ih =>
    rw [scanDirBlocks]
    refine (patches_readDirBlockChecked parent blkIdx buf).bind ?_
    rintro ⟨r, buf⟩
    exact (FallsBack.ofExcept _).bind fun _ => ih _ _ _

theorem patches_linkSlot (name : Name) (parent child : Nat) (x : Inode) (reusable : Option Nat) (target : Nat) (buf : Block) :
    Patches n (linkSlot sb name parent child x reusable target buf) :=
  (patches_writeDirBlock _ _ _).bind fun _ => (patches_mofsInodeStampNow _ _).bind fun _ => patches_mofsWriteInode _ _

theorem patches_addDirEntry (name : Name) (parent child : Nat) : Patches n (addDirEntry sb name parent child) := by
  rw [addDirEntry]
  split
  · exact .fail _
  split
  · exact .fail _
  refine (patches_of_readOnly (readOnly_mofsReadInode parent)).bind fun x => ?_
  dsimp only
  split
  · exact .fail _
  split
  · exact .fail _
  split
  · exact .fail _
  refine (patches_scanDirBlocks _ _ _ _ _ _).bind fun reusable => ?_
  split
  · split
    · exact .fail _
    refine (patches_allocateDataBlock parent 1).bind fun _ => (patches_linkSlot _ _ _ _ _ _ _).attempt.bind fun r => ?_
    cases r with
    | ok _ => exact .pure _
    | error e => exact (patches_freeDataBlock _ _ _).attempt.bind fun _ => .fail _
  · exact (patches_readDirBlockChecked _ _ _).bind fun _ => patches_linkSlot _ _ _ _ _ _ _

theorem patches_emptyInBlocks (i k blkIdx : Nat) (buf : Block) : Patches n (emptyInBlocks sb i k blkIdx buf) := by
  induction k generalizing blkIdx buf with
  | zero => exact .pure _
  | succ k ih =>
    rw [emptyInBlocks]
    refine (patches_readDirBlockChecked i blkIdx buf).bind ?_
    rintro ⟨r, buf⟩
    dsimp only
    split
    · exact .pure _
    · exact ih _ _

theorem patches_isDirectoryEmpty (i : Nat) : Patches n (isDirectoryEmpty sb i) := by
  rw [isDirectoryEmpty]
  split
  · exact .fail _
  refine (patches_of_readOnly (readOnly_mofsReadInode i)).bind fun x => ?_
  split
  · exact .fail _
  · exact patches_emptyInBlocks _ _ _ _

theorem patches_readFirstBlock (i : Nat) : Patches n (readFirstBlock sb i) := by
  refine (patches_of_readOnly (readOnly_readFileDataBlock i 0 1)).bind fun r => ?_
  split
  · exact .fail _
  · exact .pure _

theorem patches_rewriteDotdot (i newParent : Nat) : Patches n (rewriteDotdot sb i newParent) := by
  refine (patches_readFirstBlock i).bind fun buf => ?_
  split
  · exact patches_writeDirBlock _ _ _
  · exact .fail _

theorem patches_adjustDirNlink (i : Nat) (delta : Int) : Patches n (adjustDirNlink sb i delta) := by
  refine (patches_of_readOnly (readOnly_mofsReadInode i)).bind fun x => ?_
  split
  · exact .fail _
  · exact (patches_mofsInodeStampNow _ _).bind fun _ => patches_mofsWriteInode _ _

theorem patches_directoryIsAncestor (ancestor start : Nat) : Patches n (directoryIsAncestor sb ancestor start) := by
  rw [directoryIsAncestor]
  generalize sb.inodeNum = guard
  induction guard generalizing start with
  | zero => exact .pure _
  | succ guard ih =>
    rw [ancestorFrom]
    split
    · exact .pure _
    split
    · exact .pure _
    refine FallsBack.bind ?_ fun parent => ?_
    · refine (patches_readFirstBlock start).bind fun buf => ?_
      split
      · exact .pure _
      · exact .fail _
    · split
      · exact .pure _
      · exact ih _

end Entries

section Files

variable (user : User)

theorem patches_requireDirWrite (parent : Nat) : Patches n (requireDirWrite sb user parent) :=
  (patches_of_readOnly (readOnly_mofsReadInode parent)).bind fun _ => (FallsBack.ofExcept _).bind fun _ => .pure _

theorem patches_mofsResolvePath (path : Path) (flags : ResolveFlags) : Patches n (mofsResolvePath sb user path flags) :=
  patches_of_readOnly (readOnly_mofsResolvePath user path flags)

theorem patches_requireUser : Patches n (requireUser user) := patches_of_readOnly (readOnly_requireUser user)

theorem patches_mofsCreateCore (path : Path) (mode : Nat) : Patches n (mofsCreateCore sb user path mode) := by
  refine (patches_mofsResolvePath user path _).bind fun info => ?_
  split
  · exact .fail _
  refine (patches_requireUser user).bind fun _ => (patches_requireDirWrite user _).bind fun _ =>
    patches_allocateInode.bind fun i => FallsBack.bind (FallsBack.attempt ?_) fun r => ?_
  · exact (patches_mofsInodeStampNow _ _).bind fun _ => (patches_mofsWriteInode _ _).bind fun _ => patches_addDirEntry _ _ _
  · cases r with
    | ok _ => exact .pure _
    | error e => exact (patches_freeInode i).attempt.bind fun _ => .fail _

theorem patches_dropEntry (name : Name) (parent target : Nat) (x : Inode) : Patches n (dropEntry sb name parent target x) :=
  (patches_removeDirEntry name parent).bind fun _ => (patches_freeDataBlock _ _ _).onlyIf.bind fun _ => patches_freeInode _

theorem patches_mofsUnlinkCore (path : Path) : Patches n (mofsUnlinkCore sb user path) := by
  refine (patches_mofsResolvePath user path _).bind fun info => (patches_requireUser user).bind fun _ =>
    (patches_requireDirWrite user _).bind fun _ => (patches_of_readOnly (readOnly_mofsReadInode _)).bind fun x => ?_
  split
  · exact .fail _
  · exact patches_dropEntry _ _ _ _

theorem patches_openInode (path : Path) (flags mode : Nat) : Patches n (openInode sb user path flags mode) := by
  refine (patches_requireUser user).bind fun _ => FallsBack.bind ?_ ?_
  · refine (patches_of_readOnly (readOnly_mofsPathToInodeNum user path)).attempt.bind fun r => ?_
    split
    · split
      · exact .fail _
      · exact (patches_of_readOnly (readOnly_mofsReadInode _)).bind fun _ => .pure _
    · split
      · exact (patches_mofsCreateCore user path mode).bind fun _ =>
          (patches_of_readOnly (readOnly_mofsReadInode _)).bind fun _ => .pure _
      · exact .fail _
    · exact .fail _
  · rintro ⟨i, x⟩
    dsimp only
    split
    · exact .fail _
    · exact (FallsBack.ofExcept _).bind fun _ => .pure _

theorem patches_mofsOpenCore (pool : Nat → FileHandle) (path : Path) (flags mode : Nat) :
    Patches n (mofsOpenCore sb user pool path flags mode) := by
  refine (patches_openInode user path flags mode).bind fun i => ?_
  split
  · exact .fail _
  · exact .pure _

theorem patches_mofsReadCore (h : FileHandle) (size : Nat) (offset : Int) (updateOffset : Bool) :
    Patches n (mofsReadCore sb user h size offset updateOffset) := by
  rw [mofsReadCore]
  split
  · exact .fail _
  split
  · exact .fail _
  refine (patches_of_readOnly (readOnly_mofsReadInode _)).bind fun x => (patches_requireUser user).bind fun _ =>
    (FallsBack.ofExcept _).bind fun _ => ?_
  split
  · exact .fail _
  refine (patches_of_readOnly (readOnly_readFileDataBlock _ _ _)).bind fun r => ?_
  dsimp only
  split
  · refine (patches_mofsInodeStampPersist _ _).attempt.bind fun r => ?_
    cases r with
    | ok _ => exact .pure _
    | error e => exact .pure _
  · exact .pure _

theorem patches_setSize (i : Nat) (x : Inode) (size : Nat) : Patches n (setSize sb i x size) :=
  (patches_mofsInodeStampNow _ _).bind fun _ => patches_mofsWriteInode _ _

theorem patches_assembleWrite (i oldSize off start req : Nat) (data : List UInt8) :
    Patches n (assembleWrite sb i oldSize off start req data) :=
  (patches_of_readOnly (readOnly_preloadBlocks readOnly_readForWrite _ _ _ _ _ _)).bind fun _ => .pure _

theorem patches_storeWrite (i : Nat) (x : Inode) (off req k : Nat) (buf : Block) :
    Patches n (storeWrite sb i x off req k buf) := by
  refine (patches_writeFileDataBlock _ _ _ _).bind fun w => FallsBack.ite ?_ (.pure _)
  refine FallsBack.bind (FallsBack.attempt ?_) fun _ => .pure _
  exact (patches_mofsInodeStampNow _ _).bind fun _ => patches_mofsWriteInode _ _

theorem patches_reread (c : Prop) [Decidable c] (i : Nat) (x : Inode) :
    Patches n (if c then mofsReadInode sb i else pure x : M Inode) := by
  split
  · exact patches_of_readOnly (readOnly_mofsReadInode i)
  · exact .pure _

theorem patches_undoGrow (c : Prop) [Decidable c] (i start req : Nat) (e : Errno) :
    Patches n (if c then (do
      let _ ← attempt (freeDataBlock sb i start req)
      throw e) else throw e : M α) := by
  split
  · exact (patches_freeDataBlock _ _ _).attempt.bind fun _ => .fail _
  · exact .fail _

theorem patches_writeAt (i : Nat) (x : Inode) (off : Nat) (data : List UInt8) : Patches n (writeAt sb i x off data) := by
  refine (patches_allocateDataBlock _ _).onlyIf.bind fun _ => FallsBack.bind (FallsBack.attempt ?_) fun r => ?_
  · exact (patches_reread _ i x).bind fun _ => (patches_assembleWrite _ _ _ _ _ _).bind fun _ => .pure _
  · cases r with
    | error e => exact patches_undoGrow _ _ _ _ e
    | ok y => exact patches_storeWrite _ _ _ _ _ _

theorem patches_mofsWriteCore (h : FileHandle) (data : List UInt8) (offset : Int) (updateOffset : Bool) :
    Patches n (mofsWriteCore sb user h data offset updateOffset) := by
  rw [mofsWriteCore]
  split
  · exact .fail _
  split
  · exact .fail _
  refine (patches_of_readOnly (readOnly_mofsReadInode _)).bind fun x => (patches_requireUser user).bind fun _ =>
    (FallsBack.ofExcept _).bind fun _ => ?_
  split
  · exact .fail _
  dsimp only
  split
  · exact .fail _
  · exact (patches_writeAt _ _ _ _).bind fun _ => .pure _

theorem patches_zeroPartialBlockTail (i blkIdx tailStart : Nat) : Patches n (zeroPartialBlockTail sb i blkIdx tailStart) := by
  rw [zeroPartialBlockTail]
  split
  · exact .fail _
  refine (patches_of_readOnly (readOnly_resolveFileDataBlock i _)).bind fun b =>
    (patches_of_readOnly (readOnly_readOrEio b)).bind fun buf => (patches_writeFull _ _).attempt.bind fun r => ?_
  cases r with
  | ok _ => exact .pure _
  | error e => exact .fail _

theorem patches_zeroFileByteRange (i fromOff toOff : Nat) : Patches n (zeroFileByteRange sb i fromOff toOff) := by
  rw [zeroFileByteRange]
  split
  · exact .pure _
  · exact (patches_of_readOnly (readOnly_mofsReadInode i)).bind fun _ =>
      (patches_of_readOnly (readOnly_preloadBlocks readOnly_readOrEio _ _ _ _ _ _)).bind fun _ =>
        (patches_writeFileDataBlock _ _ _ _).bind fun _ => .pure _

theorem patches_shrinkInode (i : Nat) (x : Inode) (newSize : Nat) : Patches n (shrinkInode sb i x newSize) :=
  (patches_zeroPartialBlockTail _ _ _).onlyIf.bind fun _ => (patches_freeDataBlock _ _ _).onlyIf.bind fun _ =>
    (patches_of_readOnly (readOnly_mofsReadInode i)).bind fun _ => patches_setSize _ _ _

theorem patches_growInode (i : Nat) (x : Inode) (newSize : Nat) : Patches n (growInode sb i x newSize) := by
  refine (patches_allocateDataBlock _ _).onlyIf.bind fun _ => FallsBack.bind (FallsBack.attempt ?_) fun r => ?_
  · exact (patches_reread _ i x).bind fun _ => (patches_zeroFileByteRange _ _ _).bind fun _ => patches_setSize _ _ _
  · cases r with
    | ok _ => exact .pure _
    | error e => exact patches_undoGrow _ _ _ _ e

theorem patches_mofsTruncateCore (i : Nat) (length : Int) : Patches n (mofsTruncateCore sb user i length) := by
  rw [mofsTruncateCore]
  split
  · exact .fail _
  split
  · exact .fail _
  split
  · exact .fail _
  refine (patches_of_readOnly (readOnly_mofsReadInode i)).bind fun x => ?_
  split
  · exact .fail _
  refine (patches_requireUser user).bind fun _ => (FallsBack.ofExcept _).bind fun _ => ?_
  split
  · exact .pure _
  split
  · exact patches_shrinkInode _ _ _
  · exact patches_growInode _ _ _

end Files

section Directories

variable (user : User)

theorem patches_ignore {p : M Unit} (h : Patches n p) : Patches n (ignore p) := h.attempt.bind fun _ => .pure _

theorem patches_mkdirUndo (blockAllocated parentLinked : Bool) (name : Name) (parent child : Nat) :
    Patches n (mkdirUndo sb blockAllocated parentLinked name parent child) :=
  (patches_ignore (patches_removeDirEntry _ _)).onlyIf.bind fun _ =>
    (patches_ignore (patches_freeDataBlock _ _ _)).onlyIf.bind fun _ => patches_ignore (patches_freeInode _)

theorem patches_mkdirChild (mode child : Nat) : Patches n (mkdirChild sb user mode child) :=
  (patches_mofsInodeStampNow _ _).bind fun _ => (patches_mofsWriteInode _ _).bind fun _ => patches_allocateDataBlock _ _

theorem patches_mkdirFill (child parent : Nat) : Patches n (mkdirFill sb child parent) :=
  (patches_writeDirBlock _ _ _).bind fun _ => (patches_of_readOnly (readOnly_mofsReadInode _)).bind fun _ =>
    (patches_mofsInodeStampNow _ _).bind fun _ => patches_mofsWriteInode _ _

theorem patches_mkdirCount (parent : Nat) : Patches n (mkdirCount sb parent) :=
  (patches_of_readOnly (readOnly_mofsReadInode _)).bind fun _ => (patches_mofsInodeStampNow _ _).bind fun _ =>
    patches_mofsWriteInode _ _

theorem patches_mofsMkdirCore (path : Path) (mode : Nat) : Patches n (mofsMkdirCore sb user path mode) := by
  rw [mofsMkdirCore]
  refine FallsBack.ite (.fail _) ((patches_mofsResolvePath user path _).bind fun info => FallsBack.ite (.fail _) ?_)
  refine (patches_requireUser user).bind fun _ => (patches_of_readOnly (readOnly_mofsReadInode _)).bind fun x =>
    FallsBack.ite (.fail _) ((FallsBack.ofExcept _).bind fun _ => patches_allocateInode.bind fun child => ?_)
  refine (patches_mkdirChild user mode child).attempt.bind fun r => ?_
  cases r with
  | error e => exact (patches_mkdirUndo _ _ _ _ _).bind fun _ => .fail _
  | ok _ =>
    refine FallsBack.bind (FallsBack.attempt ((patches_mkdirFill _ _).bind fun _ => patches_addDirEntry _ _ _)) fun r => ?_
    cases r with
    | error e => exact (patches_mkdirUndo _ _ _ _ _).bind fun _ => .fail _
    | ok _ =>
      refine (patches_mkdirCount _).attempt.bind fun r => ?_
      cases r with
      | error e => exact (patches_mkdirUndo _ _ _ _ _).bind fun _ => .fail _
      | ok _ => exact .pure _

theorem patches_mofsRmdirCore (path : Path) : Patches n (mofsRmdirCore sb user path) := by
  rw [mofsRmdirCore]
  refine FallsBack.ite (.fail _) (FallsBack.ite (.fail _) ((patches_mofsResolvePath user path _).bind fun info => ?_))
  refine FallsBack.ite (.fail _) ((patches_requireUser user).bind fun _ => (patches_requireDirWrite user _).bind fun _ =>
    (patches_of_readOnly (readOnly_mofsReadInode _)).bind fun x => FallsBack.ite (.fail _) ?_)
  refine (patches_isDirectoryEmpty _).bind fun empty => FallsBack.ite (.fail _) ((patches_dropEntry _ _ _ _).bind fun _ => ?_)
  exact (patches_of_readOnly (readOnly_mofsReadInode _)).bind fun y => FallsBack.ite (.fail _)
    ((patches_mofsInodeStampNow _ _).bind fun _ => patches_mofsWriteInode _ _)

theorem patches_requireParentWrite (parent : Nat) : Patches n (requireParentWrite sb user parent) :=
  (patches_requireUser user).bind fun _ => (patches_of_readOnly (readOnly_mofsReadInode _)).bind fun _ =>
    FallsBack.ite (.fail _) (.ofExcept _)

theorem patches_removeDestination (newPath : Path) (srcIsDir : Bool) (dst : Nat) :
    Patches n (removeDestination sb user newPath srcIsDir dst) :=
  (patches_of_readOnly (readOnly_mofsReadInode _)).bind fun _ => (patches_mofsRmdirCore user newPath).ite
    ((patches_mofsUnlinkCore user newPath).ite (FallsBack.ite (.fail _) (.fail _)))

theorem patches_reparent (src oldParent newParent : Nat) : Patches n (reparent sb src oldParent newParent) := by
  refine (patches_rewriteDotdot _ _).bind fun _ => (patches_adjustDirNlink _ _).bind fun _ =>
    (patches_adjustDirNlink _ _).attempt.bind fun r => ?_
  cases r with
  | ok _ => exact .pure _
  | error e => exact (patches_ignore (patches_adjustDirNlink _ _)).bind fun _ => .fail _

theorem patches_reparentOrUndo (old new : PathInfo) : Patches n (reparentOrUndo sb old new) := by
  refine (patches_reparent _ _ _).attempt.bind fun r => ?_
  cases r with
  | ok _ => exact .pure _
  | error e =>
    exact (patches_ignore (patches_rewriteDotdot _ _)).bind fun _ =>
      (patches_ignore (patches_removeDirEntry _ _)).bind fun _ =>
        (patches_ignore (patches_addDirEntry _ _ _)).bind fun _ => .fail _

theorem patches_moveEntry (srcIsDir : Bool) (old new : PathInfo) : Patches n (moveEntry sb srcIsDir old new) := by
  refine (patches_removeDirEntry _ _).bind fun _ => (patches_addDirEntry _ _ _).attempt.bind fun r => ?_
  cases r with
  | error e => exact (patches_ignore (patches_addDirEntry _ _ _)).bind fun _ => .fail _
  | ok _ =>
    exact (patches_reparentOrUndo old new).onlyIf.bind fun _ => patches_ignore (patches_mofsInodeStampPersist _ _)

theorem patches_checkMove (srcIsDir : Bool) (old new : PathInfo) : Patches n (checkMove sb user srcIsDir old new) := by
  refine FallsBack.bind (FallsBack.onlyIf ?_) fun _ => (patches_requireParentWrite user _).bind fun _ =>
    (patches_requireParentWrite user _).onlyIf
  exact (patches_directoryIsAncestor _ _).bind fun _ => FallsBack.onlyIf (.fail _)

theorem patches_mofsRenameCore (oldPath newPath : Path) : Patches n (mofsRenameCore sb user oldPath newPath) := by
  rw [mofsRenameCore]
  refine FallsBack.ite (.fail _) ((patches_mofsResolvePath user oldPath _).bind fun old => FallsBack.ite (.fail _) ?_)
  refine (patches_mofsResolvePath user newPath _).bind fun new => FallsBack.ite (.fail _)
    ((patches_of_readOnly (readOnly_mofsReadInode _)).bind fun x => FallsBack.ite (.pure _) ?_)
  exact (patches_removeDestination user newPath _ _).onlyIf.bind fun _ => (patches_checkMove user _ old new).bind fun _ =>
    patches_moveEntry _ old new

theorem patches_posixBody (P : Pools) (op : PosixOp) : Patches n (posixBody sb user P op) := by
  have hpread (k size : Nat) (offset : Int) : Patches n (mofsPread sb user P k size offset) := by
    refine FallsBack.ite (.fail _) ((patches_mofsReadCore user _ _ _ _).bind ?_)
    rintro ⟨_ | _, _⟩ <;> exact .pure _
  have hpwrite (k : Nat) (data : List UInt8) (offset : Int) : Patches n (mofsPwrite sb user P k data offset) := by
    refine FallsBack.ite (.fail _) ((patches_mofsWriteCore user _ _ _ _).bind ?_)
    rintro ⟨_ | _, _⟩ <;> exact .pure _
  match op with
  | .closedir none | .readdir none | .close none | .read none _ | .pread none _ _ | .write none _ | .pwrite none _ _
  | .lseek none _ _ | .ftruncate none _ | .fsync none => exact .fail _
  | .stat path => exact (patches_of_readOnly (readOnly_mofsStatCore user path)).bind fun _ => .pure _
  | .opendir path => exact (patches_of_readOnly (readOnly_mofsOpendirCore user _ path)).bind fun _ => .pure _
  | .closedir (some _) | .close (some _) => exact FallsBack.bind (FallsBack.ite (.fail _) (.pure _)) fun _ => .pure _
  | .readdir (some _) => exact (patches_of_readOnly (readOnly_mofsReaddirCore user _)).bind fun _ => .pure _
  | .open path flags mode => exact (patches_mofsOpenCore user _ path flags mode).bind fun _ => .pure _
  | .read (some _) _ | .pread (some _) _ _ => exact hpread _ _ _
  | .write (some _) _ | .pwrite (some _) _ _ => exact hpwrite _ _ _
  | .lseek (some k) offset whence => exact patches_of_readOnly (readOnly_mofsLseek P k offset whence)
  | .truncate path length =>
    exact (patches_of_readOnly (readOnly_mofsPathToInodeNum user path)).bind fun i =>
      (patches_mofsTruncateCore user i length).bind fun _ => .pure _
  | .ftruncate (some _) length =>
    exact FallsBack.ite (.fail _) (FallsBack.ite (.fail _)
      ((patches_mofsTruncateCore user _ length).bind fun _ => .pure _))
  | .unlink path => exact (patches_mofsUnlinkCore user path).bind fun _ => .pure _
  | .mkdir path mode => exact (patches_mofsMkdirCore user path mode).bind fun _ => .pure _
  | .rmdir path => exact (patches_mofsRmdirCore user path).bind fun _ => .pure _
  | .rename oldPath newPath => exact (patches_mofsRenameCore user oldPath newPath).bind fun _ => .pure _
  | .fsync (some _) => exact FallsBack.ite (.fail _) (patches_bcacheFlush.bind fun _ => .pure _)

theorem patches_posixCall (P : Pools) (op : PosixOp) : Patches n (posixCall sb user P op) := by
  refine (patches_posixBody user P op).attempt.bind fun r => ?_
  cases r with
  | ok x => exact .pure _
  | error e => exact .pure _

end Directories

end Mofs
