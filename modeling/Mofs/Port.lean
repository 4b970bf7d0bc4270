import Mofs.Lib.Effect
import Mofs.Layout

namespace Mofs

open Effect Bytes

/-- What the core asks of the layer below it: the single-block accesses of `read_continuous_blocks` and
`write_continuous_blocks`, the entry points of the block cache, and the clock. -/
inductive BlockOp
  | read (b : Nat)
  | write (b : Nat) (x : Block)
  | modify (b byteOff : Nat) (patch : List UInt8)
  | invalidate (b : Nat)
  | flush
  | now

structure ReadAns where
  readBlkNum : Nat
  fraction : Nat
  buf : Block

structure WriteAns where
  writtenBlkNum : Nat
  fraction : Nat

def BlockAns : BlockOp → Type
  | .read _ => Except Errno ReadAns
  | .write _ _ => Except Errno WriteAns
  | .modify _ _ _ => Except Errno Unit
  | .invalidate _ => Unit
  | .flush => Except Errno Unit
  | .now => Except Errno UInt64

abbrev M := Prog BlockOp BlockAns Errno

def throw {α : Type} (e : Errno) : M α := .fail e

def readContinuousBlocks (b : Nat) : M ReadAns := do
  let r : Except Errno ReadAns ← call (BlockOp.read b)
  ofExcept r

def writeContinuousBlocks (b : Nat) (x : Block) : M WriteAns := do
  let r : Except Errno WriteAns ← call (BlockOp.write b x)
  ofExcept r

def bcacheModifyBlock (b byteOff : Nat) (patch : List UInt8) : M Unit := do
  let r : Except Errno Unit ← call (BlockOp.modify b byteOff patch)
  ofExcept r

def bcacheInvalidate (b : Nat) : M Unit := do
  let _r : Unit ← call (BlockOp.invalidate b)
  pure ()

def bcacheFlush : M Unit := do
  let r : Except Errno Unit ← call BlockOp.flush
  ofExcept r

def mofsNow : M UInt64 := do
  let r : Except Errno UInt64 ← call BlockOp.now
  ofExcept r

/-- The callers' pattern around a one-block read: anything short of a full block is an I/O error. -/
def readFull (b : Nat) : M Block := do
  let r ← readContinuousBlocks b
  if r.readBlkNum ≠ 1 ∨ r.fraction ≠ 0 then throw .eio else pure r.buf

def writeFull (b : Nat) (x : Block) : M Unit := do
  let r ← writeContinuousBlocks b x
  if r.writtenBlkNum ≠ 1 ∨ r.fraction ≠ 0 then throw .eio else pure ()

/-- A fault-free device as the core sees it: `size` bytes behind any of the builds. With a cache, dropping
a cached copy may bring an older content of that one block back; `stale` says which. -/
structure Env where
  blkSize : Nat
  size : Nat
  cached : Bool
  stale : Nat → Option Block
  clock : Nat → UInt64

structure Disk where
  blk : Nat → Block
  drops : Nat
  ticks : Nat

def Disk.put (d : Disk) (b : Nat) (x : Block) : Disk := { d with blk := Function.update d.blk b x }

def Disk.drop (d : Disk) (b : Nat) (x : Option Block) : Disk :=
  { d with blk := Function.update d.blk b (x.getD (d.blk b)), drops := d.drops + 1 }

def Disk.tick (d : Disk) : Disk := { d with ticks := d.ticks + 1 }

def Env.answer (e : Env) : (op : BlockOp) → Disk → BlockAns op × Disk
  | .read b, d =>
    if (b + 1) * e.blkSize ≤ e.size then (.ok ⟨1, 0, d.blk b⟩, d)
    else (.ok ⟨0, e.size - b * e.blkSize, d.blk b⟩, d)
  | .write b x, d =>
    if (b + 1) * e.blkSize ≤ e.size then (.ok ⟨1, 0⟩, d.put b x)
    else (.ok ⟨0, e.size - b * e.blkSize⟩, d.put b x)
  | .modify b byteOff patch, d =>
    if e.cached = false ∨ patch = [] ∨ e.blkSize < byteOff + patch.length then (.error .einval, d)
    else if (b + 1) * e.blkSize ≤ e.size then (.ok (), d.put b (splice (d.blk b) byteOff patch))
    else (.error .eio, d)
  | .invalidate b, d => if e.cached then ((), d.drop b (e.stale d.drops)) else ((), d)
  | .flush, d => (.ok (), d)
  | .now, d => (.ok (e.clock d.ticks), d.tick)

def exec {α : Type} (e : Env) (p : M α) (d : Disk) : Option (Except Errno α × Disk) := run e.answer p d

abbrev Ensures {α : Type} (e : Env) (p : M α) (Q : Except Errno α → Disk → Prop) (d : Disk) : Prop :=
  wp e.answer p Q d

end Mofs
