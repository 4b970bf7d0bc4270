import Mofs.FileData

namespace Mofs

open Effect Bytes

variable (sb : Superblock)

abbrev Name := List UInt8

def dot : Name := [46]
def dotdot : Name := [46, 46]

def isDotOrDotdotName (name : Name) : Bool := name = dot || name = dotdot

def entriesPerBlk : Nat := sb.blkSize / direntBytes

/-- How many entries of a directory block the scans look at. -/
def direntNum (fraction : Nat) : Nat := if fraction ≠ 0 then fraction / direntBytes else entriesPerBlk sb

/-- Read one directory block into the buffer of a scan. When nothing is read the buffer keeps what it holds. -/
def readDirBlock (i blkIdx : Nat) (buf : Block) : M (FileRead × Block) := do
  let r ← readFileDataBlock sb i blkIdx 1
  pure (r, r.buf.headD buf)

/-- The completeness test the directory routines make after a block read. -/
def fullOrTail (r : FileRead) : Bool :=
  (r.readBlkNum == 1 && r.fraction == 0) || (r.readBlkNum == 0 && r.fraction != 0)

def readDirBlockChecked (i blkIdx : Nat) (buf : Block) : M (FileRead × Block) := do
  let (r, buf) ← readDirBlock sb i blkIdx buf
  if fullOrTail r = false then throw .eio else pure (r, buf)

def writeDirBlock (i blkIdx : Nat) (buf : Block) : M Unit := do
  let w ← writeFileDataBlock sb i (fun _ => buf) blkIdx 1
  if w.writtenBlkNum ≠ 1 ∨ w.fraction ≠ 0 then throw .eio else pure ()

/-- The first of the slots `0, …, n - 1` of a directory block that satisfies `p`. -/
def firstSlot (p : Nat → Bool) (n : Nat) : Option Nat := (List.range n).find? p

def slotLive (buf : Block) (j : Nat) : Bool :=
  direntInode buf (direntBytes * j) != 0 && buf (direntBytes * j) != 0

def findInBlocks (component : Name) (parent : Nat) : (n blkIdx : Nat) → Block → M Nat
  | 0, _, _ => throw .enoent
  | n + 1, blkIdx, buf => do
    let (r, buf) ← readDirBlock sb parent blkIdx buf
    match firstSlot (fun j => nameEq buf (direntBytes * j) component) (direntNum sb r.fraction) with
    | some j => pure (direntInode buf (direntBytes * j))
    | none => findInBlocks component parent n (blkIdx + 1) buf

/-- `find_dir_entry` with a block buffer that holds `heap` when it is allocated. -/
def findDirEntryWith (heap : Block) (component : Name) (parent : Nat) : M Nat :=
  if isNeg parent then throw .einval
  else do
    let x ← mofsReadInode sb parent
    findInBlocks sb component parent (ceilBlks sb x.iSize.toNat) 0 heap

def findDirEntry (component : Name) (parent : Nat) : M Nat := findDirEntryWith sb (fun _ => 0) component parent

def clearSlot (buf : Block) (j : Nat) : Block := splice buf (direntBytes * j) (List.replicate direntBytes 0)

def removeInBlocks (component : Name) (parent : Nat) : (n blkIdx : Nat) → Block → M Unit
  | 0, _, _ => throw .enoent
  | n + 1, blkIdx, buf => do
    let (r, buf) ← readDirBlockChecked sb parent blkIdx buf
    match firstSlot (fun j => direntInode buf (direntBytes * j) != 0 && nameEq buf (direntBytes * j) component)
      (direntNum sb r.fraction) with
    | some j => writeDirBlock sb parent blkIdx (clearSlot buf j)
    | none => removeInBlocks component parent n (blkIdx + 1) buf

def removeDirEntry (component : Name) (parent : Nat) : M Unit :=
  if component = [] ∨ isNeg parent then throw .einval
  else do
    let x ← mofsReadInode sb parent
    if x.isDir = false then throw .enotdir
    else
      removeInBlocks sb component parent (ceilBlks sb x.iSize.toNat) 0 (fun _ => 0)
      let x ← mofsInodeStampNow x (timeMtime ||| timeCtime)
      mofsWriteInode sb parent x

/-- The slot loop of the first pass of `add_dir_entry`: a live entry of the same name ends it, and the first
reusable slot is remembered. -/
def scanSlots (component : Name) (buf : Block) (base : Nat) : (n j : Nat) → Option Nat → Except Errno (Option Nat)
  | 0, _, reusable => .ok reusable
  | n + 1, j, reusable =>
    if slotLive buf j && nameEq buf (direntBytes * j) component then .error .eexist
    else scanSlots component buf base n (j + 1)
      (if reusable.isNone && !slotLive buf j then some (base + j) else reusable)

def scanDirBlocks (component : Name) (parent : Nat) : (n blkIdx : Nat) → Block → Option Nat → M (Option Nat)
  | 0, _, _, reusable => pure reusable
  | n + 1, blkIdx, buf, reusable => do
    let (r, buf) ← readDirBlockChecked sb parent blkIdx buf
    let reusable ← ofExcept (scanSlots component buf (blkIdx * entriesPerBlk sb) (direntNum sb r.fraction) 0 reusable)
    scanDirBlocks component parent n (blkIdx + 1) buf reusable

def putSlot (buf : Block) (j : Nat) (component : Name) (child : Nat) : Block :=
  splice buf (direntBytes * j) (encodeDirent component child)

/-- The part of `add_dir_entry` after the block of the slot is known: write the slot, then the parent inode that
was read at the start. -/
def linkSlot (component : Name) (parent child : Nat) (x : Inode) (reusable : Option Nat) (target : Nat) (buf : Block) :
    M Unit := do
  writeDirBlock sb parent (target / entriesPerBlk sb) (putSlot buf (target % entriesPerBlk sb) component child)
  let x := if reusable.isNone then { x with iSize := .ofNat (x.iSize.toNat + direntBytes) } else x
  let x ← mofsInodeStampNow x (timeMtime ||| timeCtime)
  mofsWriteInode sb parent x

def addDirEntry (component : Name) (parent child : Nat) : M Unit :=
  if component = [] ∨ isNeg parent ∨ child = 0 ∨ isNeg child ∨ sb.inodeNum ≤ child then throw .einval
  else if filenameLen ≤ component.length then throw .einval
  else do
    let x ← mofsReadInode sb parent
    if x.isDir = false then throw .enotdir
    else if x.iSize.toNat % direntBytes ≠ 0 then throw .eio
    else
      let oldBlkNum := ceilBlks sb x.iSize.toNat
      let appendIdx := x.iSize.toNat / direntBytes
      if u32 (maxFileDataBlocks * entriesPerBlk sb) ≤ appendIdx then throw .efbig
      else
        let reusable ← scanDirBlocks sb component parent oldBlkNum 0 (fun _ => 0) none
        let target := reusable.getD appendIdx
        let targetBlk := target / entriesPerBlk sb
        if oldBlkNum ≤ targetBlk then
          if maxFileDataBlocks ≤ oldBlkNum then throw .efbig
          else
            allocateDataBlock sb parent 1
            match ← attempt (linkSlot sb component parent child x reusable target (fun _ => 0)) with
            | .ok () => pure ()
            | .error e =>
              let _ ← attempt (freeDataBlock sb parent targetBlk 1)
              throw e
        else
          let (_, buf) ← readDirBlockChecked sb parent targetBlk (fun _ => 0)
          linkSlot sb component parent child x reusable target buf

def dotBlock (child parent : Nat) : Block :=
  putSlot (putSlot (fun _ => 0) 0 dot child) 1 dotdot parent

def writeDotEntries (child parent : Nat) : M Unit := writeDirBlock sb child 0 (dotBlock child parent)

/-- Is the NUL-terminated name at offset `o` one of the two dot names? -/
def isDotSlot (buf : Block) (o : Nat) : Bool := nameEq buf o dot || nameEq buf o dotdot

def emptyInBlocks (i : Nat) : (n blkIdx : Nat) → Block → M Bool
  | 0, _, _ => pure true
  | n + 1, blkIdx, buf => do
    let (r, buf) ← readDirBlockChecked sb i blkIdx buf
    match firstSlot (fun j => slotLive buf j && !isDotSlot buf (direntBytes * j)) (direntNum sb r.fraction) with
    | some _ => pure false
    | none => emptyInBlocks i n (blkIdx + 1) buf

def isDirectoryEmpty (i : Nat) : M Bool :=
  if isNeg i then throw .einval
  else do
    let x ← mofsReadInode sb i
    if x.isDir = false then throw .enotdir
    else emptyInBlocks sb i (ceilBlks sb x.iSize.toNat) 0 (fun _ => 0)

/-- The search for `..` in the first directory block. -/
def dotdotSlot (buf : Block) : Option Nat :=
  firstSlot (fun j => direntInode buf (direntBytes * j) != 0 && nameEq buf (direntBytes * j) dotdot) (entriesPerBlk sb)

def readFirstBlock (i : Nat) : M Block := do
  let r ← readFileDataBlock sb i 0 1
  if r.readBlkNum ≠ 1 ∨ r.fraction ≠ 0 then throw .eio else pure (r.buf.headD (fun _ => 0))

def readDotdotParent (i : Nat) : M Nat := do
  let buf ← readFirstBlock sb i
  match dotdotSlot sb buf with
  | some j => pure (direntInode buf (direntBytes * j))
  | none => throw .eio

def rewriteDotdot (i newParent : Nat) : M Unit := do
  let buf ← readFirstBlock sb i
  match dotdotSlot sb buf with
  | some j => writeDirBlock sb i 0 (splice buf (direntBytes * j + filenameLen) (leBytes newParent 4))
  | none => throw .eio

def adjustDirNlink (i : Nat) (delta : Int) : M Unit := do
  let x ← mofsReadInode sb i
  if delta < 0 ∧ x.iLinks = 0 then throw .eio
  else
    let x ← mofsInodeStampNow { x with iLinks := .ofNat ((x.iLinks.toNat + delta) % 65536).toNat } (timeMtime ||| timeCtime)
    mofsWriteInode sb i x

/-- The `..` walk, with the guard that bounds it by the number of inodes. -/
def ancestorFrom (ancestor : Nat) : (guard cursor : Nat) → M Bool
  | 0, _ => pure false
  | guard + 1, cursor =>
    if cursor = ancestor then pure true
    else if cursor = rootInodeNum then pure false
    else do
      let parent ← readDotdotParent sb cursor
      if parent = cursor then pure false else ancestorFrom ancestor guard parent

def directoryIsAncestor (ancestor start : Nat) : M Bool := ancestorFrom sb ancestor sb.inodeNum start

end Mofs
