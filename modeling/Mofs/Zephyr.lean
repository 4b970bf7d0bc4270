import Mofs.Lib.Effect
import Mofs.Layout

namespace Mofs

open Effect Bytes

/-- What the Zephyr port asks of the `disk_access` layer, on the disk of one slot: `count` whole sectors from sector `start`,
or all pending writes. -/
inductive SectorOp
  | read (start count : Nat)
  | write (start count : Nat) (data : List UInt8)
  | sync

def SectorAns : SectorOp → Type
  | .read _ _ => Except Errno (Nat → UInt8)
  | .write _ _ _ => Except Errno Unit
  | .sync => Except Errno Unit

abbrev Z := Prog SectorOp SectorAns Errno

def diskAccessRead (start count : Nat) : Z (Nat → UInt8) := do
  let r : Except Errno (Nat → UInt8) ← call (SectorOp.read start count)
  ofExcept r

def diskAccessWrite (start count : Nat) (data : List UInt8) : Z Unit := do
  let r : Except Errno Unit ← call (SectorOp.write start count data)
  ofExcept r

def diskAccessSync : Z Unit := do
  let r : Except Errno Unit ← call SectorOp.sync
  ofExcept r

structure DevSlot where
  used : Bool
  offset : Int
  sectorSize : Nat
  sectorCount : Nat
  openFlags : Nat

def devSlotMax : Nat := 16

def ioOpenFlagRdonly : Nat := 0b0001
def ioOpenFlagWronly : Nat := 0b0010
def ioOpenFlagSync : Nat := 0b0100

/-- Arithmetic of 64-bit integers, signed and unsigned. -/
def i64 (x : Int) : Int := x.bmod 18446744073709551616

def u64 (x : Int) : Nat := (x % 18446744073709551616).toNat

def devSlotGet (slots : Nat → DevSlot) (fd : Int) : Except Errno Nat :=
  if fd < 0 ∨ devSlotMax ≤ fd ∨ (slots fd.toNat).used = false then .error .ebadf else .ok fd.toNat

def devSlotByteSize (slot : DevSlot) : Int := i64 ((slot.sectorCount * slot.sectorSize : Nat) : Int)

/-- The variables of the loop of `dev_transfer`, with the caller's buffer. -/
structure Cursor where
  cur : Int
  remaining : Nat
  transferred : Nat
  buf : Nat → UInt8

def Cursor.advance (c : Cursor) (chunk : Nat) (buf : Nat → UInt8) : Cursor :=
  ⟨i64 (c.cur + chunk), u32 (c.remaining + 4294967296 - chunk), u32 (c.transferred + chunk), buf⟩

/-- One round of the loop of `dev_transfer`: as many whole sectors as remain when the position is at a sector boundary, otherwise
the part of one sector, which a write reads first. -/
def transferRound (slot : DevSlot) (isWrite : Bool) (c : Cursor) : Z Cursor :=
  let sectorSize := slot.sectorSize
  let sectorIndex := u32 (u64 c.cur / sectorSize)
  let sectorOff := u32 (u64 c.cur % sectorSize)
  let whole := u32 (sectorSize + 4294967296 - sectorOff)
  let chunk := if c.remaining < whole then c.remaining else whole
  if sectorOff = 0 ∧ chunk = sectorSize then
    let maxSectors := u32 (slot.sectorCount + 4294967296 - sectorIndex)
    let nsectors := if maxSectors < c.remaining / sectorSize then maxSectors else c.remaining / sectorSize
    if isWrite then do
      diskAccessWrite sectorIndex nsectors (slice c.buf c.transferred (nsectors * sectorSize))
      pure (c.advance (u32 (nsectors * sectorSize)) c.buf)
    else do
      let data ← diskAccessRead sectorIndex nsectors
      pure (c.advance (u32 (nsectors * sectorSize)) (splice c.buf c.transferred (slice data 0 (nsectors * sectorSize))))
  else do
    let sectorBuf ← diskAccessRead sectorIndex 1
    if isWrite then do
      diskAccessWrite sectorIndex 1 (slice (splice sectorBuf sectorOff (slice c.buf c.transferred chunk)) 0 sectorSize)
      pure (c.advance chunk c.buf)
    else pure (c.advance chunk (splice c.buf c.transferred (slice sectorBuf sectorOff chunk)))

def transferLoop (slot : DevSlot) (isWrite : Bool) : (fuel : Nat) → Cursor → Z Cursor
  | 0, _ => .hang
  | fuel + 1, c =>
    if c.remaining = 0 then pure c
    else do
      let c ← transferRound slot isWrite c
      transferLoop slot isWrite fuel c

/-- What `dev_transfer` leaves: its return code, the slot, the count it stores and the caller's buffer. -/
structure Transfer where
  ret : Except Errno Unit
  slot : DevSlot
  count : Nat
  buf : Nat → UInt8

/-- Every round transfers a byte, so the loop has no more rounds than bytes. What a failed read leaves in the buffer is not
recorded. -/
def devTransfer (slot : DevSlot) (buf : Nat → UInt8) (count : Nat) (isWrite : Bool) : Z Transfer :=
  let devSize := devSlotByteSize slot
  if slot.sectorSize = 0 then pure ⟨.error .eio, slot, 0, buf⟩
  else if devSize ≤ slot.offset ∨ count = 0 then pure ⟨.ok (), slot, 0, buf⟩
  else do
    let remaining := if devSize - slot.offset < count then u32 (u64 (devSize - slot.offset)) else count
    match ← attempt (transferLoop slot isWrite (remaining + 1) ⟨slot.offset, remaining, 0, buf⟩) with
    | .error e => pure ⟨.error e, slot, 0, buf⟩
    | .ok c =>
      let slot := { slot with offset := c.cur }
      if isWrite = true ∧ slot.openFlags &&& ioOpenFlagSync ≠ 0 then
        let synced ← attempt diskAccessSync
        pure ⟨synced, slot, c.transferred, c.buf⟩
      else pure ⟨.ok (), slot, c.transferred, c.buf⟩

def devWrite (slots : Nat → DevSlot) (fd : Int) (buf : Nat → UInt8) (count : Nat) :
    Z (Except Errno Unit × Nat × (Nat → DevSlot)) :=
  match devSlotGet slots fd with
  | .error e => pure (.error e, 0, slots)
  | .ok k =>
    if (slots k).openFlags &&& ioOpenFlagWronly = 0 then pure (.error .ebadf, 0, slots)
    else do
      let r ← devTransfer (slots k) buf count true
      pure (r.ret, r.count, Function.update slots k r.slot)

def devRead (slots : Nat → DevSlot) (fd : Int) (buf : Nat → UInt8) (count : Nat) :
    Z (Except Errno Unit × Nat × (Nat → UInt8) × (Nat → DevSlot)) :=
  match devSlotGet slots fd with
  | .error e => pure (.error e, 0, buf, slots)
  | .ok k =>
    if (slots k).openFlags &&& ioOpenFlagRdonly = 0 then pure (.error .ebadf, 0, buf, slots)
    else do
      let r ← devTransfer (slots k) buf count false
      pure (r.ret, r.count, r.buf, Function.update slots k r.slot)

def devLseek (slots : Nat → DevSlot) (fd offset : Int) (whence : Whence) : Except Errno Int × (Nat → DevSlot) :=
  match devSlotGet slots fd with
  | .error e => (.error e, slots)
  | .ok k =>
    let slot := slots k
    let size := devSlotByteSize slot
    let target : Option Int := match whence with
      | .set => some offset
      | .cur => some (i64 (slot.offset + offset))
      | .end => some (i64 (size + offset))
      | .other => none
    match target with
    | none => (.error .einval, slots)
    | some pos =>
      if pos < 0 ∨ size < pos then (.error .einval, slots)
      else (.ok pos, Function.update slots k { slot with offset := pos })

end Mofs
