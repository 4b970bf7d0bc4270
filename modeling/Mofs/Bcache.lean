import Mathlib.Data.List.FinRange
import Mofs.Port

namespace Mofs

open Bytes

/-- A raw transfer of one block goes wrong: it fails, or it moves only a part of the block. What the target of the
transfer holds afterwards is not specified. -/
inductive Fault
  | fail (err : Errno) (junk : Block)
  | short (n : Nat) (junk : Block)

/-- The device below the cache, of `size` bytes. What happens to the raw operations is given by their number. -/
structure RawEnv where
  blkSize : Nat
  size : Nat
  fault : Nat → Option Fault

structure RawDev where
  blk : Nat → Block
  ops : Nat

namespace RawEnv

variable (e : RawEnv)

def inRange (b : Nat) : Prop := (b + 1) * e.blkSize ≤ e.size

instance (b : Nat) : Decidable (e.inRange b) := by unfold inRange; infer_instance

/-- `read_continuous_blocks_raw` for one block: the outcome with the counts of full blocks and of bytes behind them, and
what the buffer holds. -/
def readRaw (b : Nat) (d : RawDev) : (Except Errno (Nat × Nat) × Block) × RawDev :=
  let d' := { d with ops := d.ops + 1 }
  match e.fault d.ops with
  | some (.fail err junk) => ((.error err, junk), d')
  | some (.short n junk) => ((.ok (0, n), junk), d')
  | none => ((.ok (if e.inRange b then (1, 0) else (0, e.size - b * e.blkSize)), d.blk b), d')

/-- `write_continuous_blocks_raw` for one block. -/
def writeRaw (b : Nat) (x : Block) (d : RawDev) : Except Errno (Nat × Nat) × RawDev :=
  match e.fault d.ops with
  | some (.fail err junk) => (.error err, ⟨Function.update d.blk b junk, d.ops + 1⟩)
  | some (.short n junk) => (.ok (0, n), ⟨Function.update d.blk b junk, d.ops + 1⟩)
  | none => (.ok (if e.inRange b then (1, 0) else (0, e.size - b * e.blkSize)), ⟨Function.update d.blk b x, d.ops + 1⟩)

def devFsync (d : RawDev) : Except Errno Unit × RawDev :=
  match e.fault d.ops with
  | some (.fail err _) => (.error err, { d with ops := d.ops + 1 })
  | _ => (.ok (), { d with ops := d.ops + 1 })

end RawEnv

structure Entry where
  valid : Bool
  dirty : Bool
  blkNum : Nat
  lruTick : UInt64
  data : Block

/-- A pool of `n` cache slots with its access clock. -/
structure Pool (n : Nat) where
  entries : Fin n → Entry
  tick : UInt64

/-- What one block of a read gives: the block, part of it, or an error. -/
inductive Fetched
  | block (x : Block)
  | short (fraction : Nat) (bytes : List UInt8)
  | fail (err : Errno)

namespace Pool

variable {n : Nat} (e : RawEnv)

/-- A pool as `mofs_bcache_init` leaves it. -/
def init (n : Nat) : Pool n := ⟨fun _ => ⟨false, false, 0, 0, fun _ => 0⟩, 0⟩

def set (P : Pool n) (i : Fin n) (x : Entry) : Pool n := { P with entries := Function.update P.entries i x }

def touch (P : Pool n) (i : Fin n) : Pool n :=
  ⟨Function.update P.entries i { P.entries i with lruTick := P.tick + 1 }, P.tick + 1⟩

def find (P : Pool n) (b : Nat) : Option (Fin n) :=
  (List.finRange n).find? fun i => (P.entries i).valid && (P.entries i).blkNum == b

def flushEntry (i : Fin n) (s : Pool n × RawDev) : Except Errno Unit × (Pool n × RawDev) :=
  match e.writeRaw (s.1.entries i).blkNum (s.1.entries i).data s.2 with
  | (.error err, d) => (.error err, (s.1, d))
  | (.ok (written, fraction), d) =>
    if written ≠ 1 ∨ fraction ≠ 0 then (.error .eio, (s.1, d))
    else (.ok (), (s.1.set i { s.1.entries i with dirty := false }, d))

/-- The scan for the least recently used slot. -/
def lruFrom (P : Pool n) : List (Fin n) → UInt64 → Option (Fin n) → Option (Fin n)
  | [], _, idx => idx
  | i :: is, best, idx =>
    if (P.entries i).lruTick < best then lruFrom P is (P.entries i).lruTick (some i) else lruFrom P is best idx

/-- The slot to reuse: an empty one, or else the least recently used one. -/
def victimIndex (P : Pool n) : Option (Fin n) :=
  match (List.finRange n).find? fun i => !(P.entries i).valid with
  | some i => some i
  | none => P.lruFrom (List.finRange n) 18446744073709551615 none

def release (P : Pool n) (i : Fin n) : Pool n := P.set i { P.entries i with valid := false, dirty := false }

def getVictim (s : Pool n × RawDev) : Except Errno (Fin n) × (Pool n × RawDev) :=
  match s.1.victimIndex with
  | none => (.error .eio, s)
  | some i =>
    if (s.1.entries i).valid && (s.1.entries i).dirty then
      match flushEntry e i s with
      | (.error err, s) => (.error err, s)
      | (.ok (), s) => (.ok i, (s.1.release i, s.2))
    else (.ok i, (s.1.release i, s.2))

/-- Load a block that is not cached into a slot. -/
def load (b : Nat) (s : Pool n × RawDev) : Except Errno (Fin n × Nat × Nat) × (Pool n × RawDev) :=
  match getVictim e s with
  | (.error err, s) => (.error err, s)
  | (.ok i, (P, d)) =>
    let ((ret, buf), d) := e.readRaw b d
    let P := P.set i { P.entries i with data := buf }
    (ret.map fun c => (i, c), (P, d))

def install (P : Pool n) (i : Fin n) (b : Nat) : Pool n :=
  P.set i { P.entries i with blkNum := b, valid := true, dirty := false }

/-- One round of the loop of `mofs_bcache_read_blocks`. -/
def readBlock (b : Nat) (s : Pool n × RawDev) : Fetched × (Pool n × RawDev) :=
  match s.1.find b with
  | some i => (.block (s.1.entries i).data, (s.1.touch i, s.2))
  | none =>
    match load e b s with
    | (.error err, s) => (.fail err, s)
    | (.ok (i, readOne, frac), (P, d)) =>
      if frac ≠ 0 then (.short frac (slice (P.entries i).data 0 frac), (P, d))
      else if readOne ≠ 1 then (.fail .eio, (P, d))
      else (.block (P.entries i).data, ((P.install i b).touch i, d))

def store (P : Pool n) (i : Fin n) (x : Block) : Pool n := (P.set i { P.entries i with data := x, dirty := true }).touch i

/-- One round of the loop of `mofs_bcache_write_blocks`. -/
def writeBlock (b : Nat) (x : Block) (s : Pool n × RawDev) : Except Errno Unit × (Pool n × RawDev) :=
  match s.1.find b with
  | some i => (.ok (), (s.1.store i x, s.2))
  | none =>
    match getVictim e s with
    | (.error err, s) => (.error err, s)
    | (.ok i, (P, d)) =>
      let P := P.set i { P.entries i with blkNum := b, valid := true }
      (.ok (), (P.store i x, d))

/-- `mofs_bcache_modify_block` behind its checks. -/
def modifyBlock (b off : Nat) (patch : List UInt8) (s : Pool n × RawDev) : Except Errno Unit × (Pool n × RawDev) :=
  match s.1.find b with
  | some i => (.ok (), (s.1.store i (splice (s.1.entries i).data off patch), s.2))
  | none =>
    match load e b s with
    | (.error err, s) => (.error err, s)
    | (.ok (i, readOne, frac), (P, d)) =>
      if readOne ≠ 1 ∨ frac ≠ 0 then (.error .eio, (P, d))
      else
        let P := P.install i b
        (.ok (), (P.store i (splice (P.entries i).data off patch), d))

def flushFrom : List (Fin n) → Pool n × RawDev → Except Errno Unit × (Pool n × RawDev)
  | [], s => (.ok (), s)
  | i :: is, s =>
    if (s.1.entries i).valid && (s.1.entries i).dirty then
      match flushEntry e i s with
      | (.error err, s) => (.error err, s)
      | (.ok (), s) => flushFrom is s
    else flushFrom is s

def flushAll (s : Pool n × RawDev) : Except Errno Unit × (Pool n × RawDev) := flushFrom e (List.finRange n) s

def invalidate (b : Nat) (P : Pool n) : Pool n :=
  match P.find b with
  | some i => P.release i
  | none => P

end Pool

/-- The rounds and calls the two cache implementations are made of, over a state with a device. -/
structure CacheImpl (S : Type) where
  readBlock : Nat → S → Fetched × S
  writeBlock : Nat → Block → S → Except Errno Unit × S
  modifyBlock : Nat → Nat → List UInt8 → S → Except Errno Unit × S
  flush : S → Except Errno Unit × S
  invalidate : Nat → S → S
  dev : S → RawDev

/-- `mofs_buffer.c`: one pool for all blocks. -/
def unifiedCache (e : RawEnv) (n : Nat) : CacheImpl (Pool n × RawDev) where
  readBlock := Pool.readBlock e
  writeBlock := Pool.writeBlock e
  modifyBlock := Pool.modifyBlock e
  flush s :=
    match Pool.flushAll e s with
    | (.error err, s) => (.error err, s)
    | (.ok (), (P, d)) => let (ret, d) := e.devFsync d; (ret, (P, d))
  invalidate b s := (s.1.invalidate b, s.2)
  dev s := s.2

structure SplitState (n k : Nat) where
  metaPool : Pool n
  dataPool : Pool k
  device : RawDev

namespace SplitState

variable {n k : Nat} {α : Type}

/-- Run a part of a call on the metadata pool or on the data pool. -/
def onMeta (f : Pool n × RawDev → α × (Pool n × RawDev)) (s : SplitState n k) : α × SplitState n k :=
  let (r, (P, d)) := f (s.metaPool, s.device)
  (r, ⟨P, s.dataPool, d⟩)

def onData (f : Pool k × RawDev → α × (Pool k × RawDev)) (s : SplitState n k) : α × SplitState n k :=
  let (r, (P, d)) := f (s.dataPool, s.device)
  (r, ⟨s.metaPool, P, d⟩)

end SplitState

/-- `mofs_buffer_split.c`: one pool for the blocks before `dataRegionStart`, one for the others. -/
def splitCache (e : RawEnv) (dataRegionStart n k : Nat) : CacheImpl (SplitState n k) where
  readBlock b s := if b < dataRegionStart then s.onMeta (Pool.readBlock e b) else s.onData (Pool.readBlock e b)
  writeBlock b x s := if b < dataRegionStart then s.onMeta (Pool.writeBlock e b x) else s.onData (Pool.writeBlock e b x)
  modifyBlock b off patch s :=
    if b < dataRegionStart then s.onMeta (Pool.modifyBlock e b off patch) else s.onData (Pool.modifyBlock e b off patch)
  flush s :=
    match s.onMeta (Pool.flushAll e) with
    | (.error err, s) => (.error err, s)
    | (.ok (), s) =>
      match s.onData (Pool.flushAll e) with
      | (.error err, s) => (.error err, s)
      | (.ok (), s) => let (ret, d) := e.devFsync s.device; (ret, { s with device := d })
  invalidate b s := { s with dataPool := s.dataPool.invalidate b }
  dev s := s.device

/-- What a read returns: its code, the counts, the full blocks and the bytes of a partial one. -/
structure ReadRes where
  ret : Except Errno Unit
  readBlkNum : Nat
  fraction : Nat
  blocks : List Block
  part : List UInt8

inductive CacheCall
  | read (start req : Nat)
  | write (start : Nat) (blocks : List Block)
  | modify (b off : Nat) (patch : List UInt8)
  | flush
  | invalidate (b : Nat)

inductive CacheRet
  | read (r : ReadRes)
  | write (ret : Except Errno Unit) (writtenBlkNum : Nat)
  | done (ret : Except Errno Unit)

namespace CacheImpl

variable {S : Type} (C : CacheImpl S)

def readFrom (start : Nat) : (req i : Nat) → List Block → S → ReadRes × S
  | 0, i, blocks, s => (⟨.ok (), i, 0, blocks, []⟩, s)
  | req + 1, i, blocks, s =>
    match C.readBlock (u32 (start + i)) s with
    | (.block x, s) => readFrom start req (i + 1) (blocks ++ [x]) s
    | (.short fraction bytes, s) => (⟨.ok (), i, fraction, blocks, bytes⟩, s)
    | (.fail err, s) => (⟨.error err, i, 0, blocks, []⟩, s)

def writeFrom (start : Nat) : List Block → Nat → S → (Except Errno Unit × Nat) × S
  | [], i, s => ((.ok (), i), s)
  | x :: xs, i, s =>
    match C.writeBlock (u32 (start + i)) x s with
    | (.ok (), s) => writeFrom start xs (i + 1) s
    | (.error err, s) => ((.error err, i), s)

/-- One call of a ready cache with valid pointers, on a volume of blocks of `blkSize` bytes. -/
def call (blkSize : Nat) : CacheCall → S → CacheRet × S
  | .read start req, s => let (r, s) := C.readFrom start req 0 [] s; (.read r, s)
  | .write start blocks, s => let ((ret, written), s) := C.writeFrom start blocks 0 s; (.write ret written, s)
  | .modify b off patch, s =>
    if patch = [] ∨ blkSize < off + patch.length then (.done (.error .einval), s)
    else let (ret, s) := C.modifyBlock b off patch s; (.done ret, s)
  | .flush, s => let (ret, s) := C.flush s; (.done ret, s)
  | .invalidate b, s => (.done (.ok ()), C.invalidate b s)

end CacheImpl

end Mofs
